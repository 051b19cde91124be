import PlacitumNode.Lib.Octets
import PlacitumNode.Lib.Run
import PlacitumNode.Wave.State

/-!
# The response filters (`runtime/ngx_http_waf_response.c`)

The header filter starts the response phase and holds the response; the body filter keeps copies
of the upstream's buffers until the phase settles, then lets the response go or drops it.

* `Buf`, `Rc`, `Conf`, `Env`, `St`: buffers, results, settings, what the next filters answer, and
  the response part of the context;
* `release`, `deny`, `stream`, `outcome`: how a phase ends;
* `Wave`, `phaseRun`, `responseResume`, `bodyPlace`: the inspection of the phase, seen from here;
* `holdChain`, `overlimit`, `headerFilter`, `bodyFilter`: the filters.

Locations that do not inspect responses and only journal them are left out, and so are rewrites of
the body and failed allocations.
-/

namespace Response

open Octets Waves

/-! ### Buffers -/

/-- `ngx_buf_t`: the bytes between `pos` and `last` and those between `file_pos` and `file_last`;
a buffer in memory is read there. -/
structure Buf where
  inMemory : Bool
  mem : Bytes
  file : Bytes
  last : Bool
  deriving DecidableEq

abbrev Chain := List Buf

def Buf.content (b : Buf) : Bytes := if b.inMemory then b.mem else b.file

/-- `ngx_buf_size` -/
def Buf.size (b : Buf) : ℕ := b.content.length

/-- The copy that is held: memory is copied, a piece of a file stays where it is. -/
def Buf.copy (b : Buf) : Buf :=
  if b.inMemory ∧ 0 < b.size then { b with mem := b.mem.take b.size } else b

/-- The buffer of the upstream once its bytes are held. -/
def Buf.drain (b : Buf) : Buf := { b with mem := [], file := [] }

/-- The first `n` bytes of a buffer, as the monitor keeps them. -/
def Buf.window (b : Buf) (n : ℕ) : Buf :=
  if b.inMemory then ⟨true, b.mem.take n, [], false⟩ else ⟨false, [], b.file.take n, false⟩

/-- What the client gets of a buffer. -/
def Buf.shown (b : Buf) : Bytes × Bool := (b.content, b.last)

def bytes (l : Chain) : ℕ := (l.map Buf.size).sum

/-! ### State -/

/-- The results of filters and of the phase. -/
inductive Rc
  | ok
  | declined
  | again
  | done
  | error
  | status (n : ℕ)
  deriving DecidableEq

/-- `NGX_HTTP_WAF_HOLD_*` -/
inductive Hold
  | gate
  | monitor
  deriving DecidableEq

/-- The settings of the location for the response phase.  `captureLimit` is `none` when the whole
body is captured. -/
structure Conf where
  enable : Bool
  inspected : Bool
  hold : Hold
  bodyLimit : ℕ
  bodyLimitPolicy : Policy
  exceptionBody : Policy
  captureBody : Bool
  captureLimit : Option ℕ

/-- What decides that a response is not inspected at all. -/
structure Request where
  main : Bool
  headerOnly : Bool
  head : Bool
  status : ℕ
  requestRefused : Bool

/-- What the code around the filters answers in one call. -/
structure Env where
  headerRc : Rc
  headerOnly : Bool
  bodyRc : Rc
  finalizeRc : Rc
  failStatus : ℕ

/-- What reaches the next filters; `page` is the answer of `ngx_http_filter_finalize_request`, which
passes both filters because the phase is settled. -/
inductive Out
  | header
  | body (chain : Chain)
  | page (status : Rc)
  deriving DecidableEq

/-- The response fields of `ngx_http_waf_ctx_t`, and what has been passed on so far. -/
structure St where
  entered : Bool
  settled : Bool
  streaming : Bool
  denied : Bool
  monitor : Bool
  last : Bool
  capped : Bool
  waitBody : Bool
  bodyReady : Bool
  failBody : Bool
  hold : Chain
  holdSize : ℕ
  out : List Out

/-- Before the header filter. -/
def blank : St := ⟨false, false, false, false, false, false, false, false, false, false, [], 0, []⟩

/-! ### The end of the phase -/

def nextHeader (env : Env) (s : St) : Rc × St :=
  (env.headerRc, { s with out := s.out ++ [.header] })

def nextBody (env : Env) (s : St) (chain : Chain) : Rc × St :=
  (env.bodyRc, { s with out := s.out ++ [.body chain] })

/-- An error or a status of its own. -/
def Rc.fails : Rc → Bool
  | error | status _ => true
  | _ => false

/-- `ngx_http_waf_response_release` -/
def release (env : Env) (s : St) : Rc × St :=
  if s.settled then (.ok, s)
  else
    let held := s.hold
    let (rc, s) := nextHeader env { s with settled := true, streaming := false, hold := [] }
    if rc.fails || env.headerOnly then (rc, s)
    else if held = [] then (rc, s)
    else nextBody env s held

/-- `ngx_http_waf_response_deny` -/
def deny (env : Env) (s : St) (status : Rc) : Rc × St :=
  if s.settled then (.ok, s)
  else (env.finalizeRc, { s with
    settled := true, streaming := false, denied := true
    hold := [], holdSize := 0
    out := s.out ++ [.page status] })

/-- `ngx_http_waf_response_stream` -/
def stream (env : Env) (s : St) : Rc × St :=
  if s.settled then (.ok, s) else nextHeader env { s with streaming := true }

/-- `ngx_http_waf_response_outcome`; `ngx_http_waf_response_hold` marks the request as buffered. -/
def outcome (c : Conf) (env : Env) (s : St) : Rc → Rc × St
  | .done =>
    match c.hold with
    | .monitor => stream env { s with monitor := true }
    | .gate => (.ok, s)
  | .ok | .declined => release env s
  | .error => deny env s (.status 500)
  | rc => deny env s rc

/-! ### The phase -/

/-- What the inspection does in one call, up to its return: it answers, it waits, or a wave wants
the body.  When the body is there, it is placed, and the wave goes on later or at once. -/
inductive Wave
  | answers (rc : Rc)
  | pending
  | bodyLater
  | bodyNow (w : Wave)
  deriving DecidableEq

/-- `ngx_http_waf_response_body_ready` -/
def responseBodyReady (c : Conf) (s : St) : Bool :=
  s.last || s.capped ||
    match c.captureLimit with
    | none => false
    | some need => decide (need ≤ s.holdSize)

/-- The end of `ngx_http_waf_response_resume`. -/
def resumed (c : Conf) (env : Env) (x : Rc × St) : St :=
  if x.1 = .done then x.2
  else if x.2.monitor then x.2
  else (outcome c env x.2 x.1).2

/-- The fields `ngx_http_waf_response_body_place` sets. -/
def St.placing (s : St) : St := { s with waitBody := false, bodyReady := true }

/-- `ngx_http_waf_wave_start` and `ngx_http_waf_phase_resume`, with
`ngx_http_waf_response_body` inside. -/
def phaseRun (c : Conf) (env : Env) : Wave → St → Rc × St
  | .answers rc, s => (rc, s)
  | .pending, s => (.done, s)
  | .bodyLater, s =>
    (.done, if responseBodyReady c s then s.placing else { s with waitBody := true })
  | .bodyNow w, s =>
    (.done, if responseBodyReady c s then resumed c env (phaseRun c env w s.placing)
      else { s with waitBody := true })

/-- `ngx_http_waf_response_resume` -/
def responseResume (c : Conf) (env : Env) (s : St) (w : Wave) : St :=
  resumed c env (phaseRun c env w s)

/-- `ngx_http_waf_response_body_place`; `w` is what follows when the store answers at once. -/
def bodyPlace (c : Conf) (env : Env) (s : St) : Option Wave → St
  | none => s.placing
  | some w => responseResume c env s.placing w

/-- A wave waits for the body, and it is there. -/
def placeIfReady (c : Conf) (env : Env) (s : St) (placed : Option Wave) : St :=
  if s.waitBody && !s.settled && responseBodyReady c s then bodyPlace c env s placed else s

/-! ### The filters -/

/-- The policy for a response that outgrows the limit: a body that had to be captured whole is
unavailable. -/
def Conf.limitPolicy (c : Conf) : Policy :=
  if c.captureBody && c.captureLimit.isNone then c.exceptionBody else c.bodyLimitPolicy

/-- `ngx_http_waf_response_overlimit` -/
def overlimit (c : Conf) (env : Env) (s : St) (placed : Option Wave) : Rc × St :=
  match c.limitPolicy with
  | .trim => (.ok, placeIfReady c env { s with capped := true } placed)
  | .pass =>
    let (rc, s) := release env s
    (if rc = .error then .error else .ok, s)
  | .block => deny env { s with failBody := true } (.status env.failStatus)

/-- One round of the loop of `ngx_http_waf_hold_chain`. -/
def holdBuf (s : St) (b : Buf) : St :=
  { s with
    last := s.last || b.last
    hold := s.hold ++ [b.copy]
    holdSize := s.holdSize + b.size }

/-- `ngx_http_waf_hold_chain`, with the buffers of the upstream as it leaves them. -/
def holdChain (c : Conf) (env : Env) (s : St) (chain : Chain) (placed : Option Wave) :
    (Rc × St) × Chain :=
  let s := chain.foldl holdBuf s
  (if !s.capped && !s.settled && decide (c.bodyLimit < s.holdSize) then overlimit c env s placed
    else (.ok, s), chain.map Buf.drain)

/-- One round of the loop of `ngx_http_waf_stream_capture`. -/
def captureBuf (c : Conf) (s : St) (b : Buf) : St :=
  let s := { s with last := s.last || b.last }
  if b.size = 0 ∨ c.bodyLimit ≤ s.holdSize then s
  else
    let take := min b.size (c.bodyLimit - s.holdSize)
    { s with
      hold := s.hold ++ [b.window take]
      holdSize := s.holdSize + take
      capped := s.capped || decide (c.bodyLimit ≤ s.holdSize + take) }

/-- `ngx_http_waf_body_filter`; the empty chain stands for `NULL`. -/
def bodyFilter (c : Conf) (env : Env) (s : St) (chain : Chain) (past placed : Option Wave) : St :=
  if s.streaming && !s.settled then
    let s := (nextBody env (chain.foldl (captureBuf c) s) chain).2
    placeIfReady c env s placed
  else if !s.entered || s.settled then (nextBody env s chain).2
  else if chain = [] then placeIfReady c env s placed
  else
    let ((rc, s), _) := holdChain c env s chain past
    if rc = .ok then placeIfReady c env s placed else s

/-- `ngx_http_waf_response_bypass` -/
def responseBypass (q : Request) : Bool :=
  !q.main || (q.headerOnly || q.head) || (q.status = 204 || q.status = 304 || q.status = 101)
    || q.requestRefused

/-- `ngx_http_waf_header_filter` of a main request with a context. -/
def headerFilter (c : Conf) (q : Request) (env : Env) (s : St) (w : Wave) : Rc × St :=
  if s.entered then nextHeader env s
  else if !c.enable || !c.inspected then nextHeader env s
  else if responseBypass q then nextHeader env s
  else
    let (rc, s) := phaseRun c env w { s with entered := true }
    outcome c env s rc

/-! ### Runs -/

/-- After the header filter: the upstream sends a chain, or the inspection goes on. -/
inductive Event
  | chain (env : Env) (chain : Chain) (past placed : Option Wave)
  | resume (env : Env) (w : Wave)

def Event.env : Event → Env
  | .chain env _ _ _ => env
  | .resume env _ => env

def step (c : Conf) (s : St) : Event → St
  | .chain env chain past placed => bodyFilter c env s chain past placed
  | .resume env w => if s.entered then responseResume c env s w else s

/-- The response after the header filter. -/
def start (c : Conf) (q : Request) (env : Env) (w : Wave) : St := (headerFilter c q env blank w).2

end Response
