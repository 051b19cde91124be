import PlacitumNode.Frame.Direction

/-!
# A framed connection (`stream/ngx_http_waf_frame.c`)

The two directions of a connection, the inspection of one frame at a time, and the loop that moves
the bytes.

* `Side`, `Conn`: the directions and the state of the connection;
* `settle`, `swap`, `apply`, `inspect`, `journal`: one inspection and what follows from it;
* `parse`, `pumpIter`, `pump`: the loop of `ngx_http_waf_frame_pump`;
* `finalize`, `process`, `run`, `Ev`, `step`, `runs`: the handlers, one event at a time.

What sockets, store and inspectors answer is given by the events.  The code spins for ever where
`parseLoop` has no result; there `step` has none either.
-/

namespace Frames

open Octets Framing Waves

inductive Side
  | c2s
  | s2c
  deriving DecidableEq

/-- One value for each direction. -/
def Side.pick {α : Type*} (c2s s2c : α) : Side → α
  | .c2s => c2s
  | .s2c => s2c

/-- `ngx_http_waf_frame_t`; `rewrite` is the declared size of the object being fetched, `gone` is
the end of `ctx->frame`, and `bye` is the close frame that `ngx_http_waf_frame_finalize` sent. -/
structure Conn where
  dir : Side → Dir
  cur : Option Side
  settled : Bool
  fetching : Bool
  closing : Bool
  closeCode : ℕ
  closeReason : Bytes
  closeWhy : String
  rewrite : ℕ
  gone : Bool
  bye : Bytes

def Conn.set (c : Conn) (s : Side) (d : Dir) : Conn := { c with dir := Function.update c.dir s d }

/-- The connection before its first event. -/
def Conn.fresh (c2s s2c : Dir) : Conn :=
  { dir := Side.pick c2s s2c, cur := none, settled := false, fetching := false, closing := false
    closeCode := 0, closeReason := [], closeWhy := "", rewrite := 0, gone := false, bye := [] }

/-- `ngx_http_waf_frame_attach`: client frames are masked, those of the upstream are not. -/
def attach (cf : Side → Conf) (mode : Side → Mode) (seed : Side → Bytes) : Option Conn :=
  match dirInit (cf .c2s) (mode .c2s) true (seed .c2s),
    dirInit (cf .s2c) (mode .s2c) false (seed .s2c) with
  | some c2s, some s2c => some (Conn.fresh c2s s2c)
  | _, _ => none

/-- `ngx_http_waf_frame_set_close` -/
def Conn.setClose (c : Conn) (k : Close) : Conn :=
  { c with closeCode := k.code, closeReason := k.reason, closeWhy := k.why, closing := true }

/-! ### One inspection -/

/-- What the store answers for a rewritten payload; `sha` says that the declared digest, if any, is
that of the data. -/
inductive Fetch
  | pending
  | failed
  | got (data : Bytes) (sha : Bool)

/-- The rewrite an inspector asked for. -/
inductive Rewrite
  | none
  | object (size : ℕ) (truncated : Bool) (get : Fetch)

/-- How the phase of a frame ends: allowed, or with any other result and the close that
`ngx_http_waf_frame_finish` has set for it. -/
inductive Reply
  | allow (rw : Rewrite)
  | refuse (why : Option Close)

/-- How `ngx_http_waf_frame_inspect` comes back. -/
inductive Answer
  | noMemory
  | waits
  | settles (r : Reply)

/-- The frame that was held goes on. -/
def Dir.settleOk (d : Dir) : Dir :=
  { d.advance d.held with
    held := 0
    log := if d.held = 0 then d.log else d.log ++ [.allowed (d.rest.take d.held)] }

/-- The frame that was held stays. -/
def Dir.settleErr (d : Dir) : Dir :=
  { d with log := d.log ++ [.refused (d.rest.take d.held) (d.sent ++ d.ready)] }

/-- `ngx_http_waf_frame_end`: no frame is being inspected. -/
def Conn.ended (c : Conn) (s : Side) (d : Dir) : Conn :=
  { c.set s d with cur := none, settled := true, fetching := false }

/-- A frame that was not allowed closes the connection, if nothing has closed it yet. -/
def Conn.failed (c : Conn) : Conn :=
  if c.closeCode = 0 then c.setClose (closeInternal "internal error" "frame wave failed") else c

/-- `ngx_http_waf_frame_settle` -/
def settle (c : Conn) (ok : Bool) : Conn :=
  match c.cur with
  | none => { c with settled := true, fetching := false }
  | some s => if ok then c.ended s (c.dir s).settleOk else c.failed.ended s (c.dir s).settleErr

/-- The frame with the rewritten payload, under the opcode and key of the one it replaces. -/
def Dir.newFrame (d : Dir) (data : Bytes) : Bytes :=
  leastHead d d.fin d.opcode d.mask data.length ++
    maskBy (if d.masked then some d.mask else none) data

/-- The new frame goes to the out buffer, the held one is to be dropped. -/
def Dir.swapped (d : Dir) (new : Bytes) : Dir :=
  { d with
    out := new, drop := d.held, held := 0, log := d.log ++ [.replaced (d.rest.take d.held) new] }

/-- `ngx_http_waf_frame_swap` -/
def Dir.swap (cf : Conf) (size : ℕ) (data : Bytes) (sha : Bool) (d : Dir) : Option Dir :=
  if data.length ≠ size ∨ sha = false then none
  else if max bufMin (cf.bodyLimit + headerMax) < (d.newFrame data).length then none
  else some (d.swapped (d.newFrame data))

/-- `ngx_http_waf_frame_rewrite_fail` -/
def rewriteFail (cf : Conf) (c : Conn) : Conn :=
  if cf.exceptionBody = .block then c.setClose cf.rewriteClose else c

/-- The object has come, or not. -/
def swapIn (cf : Side → Conf) (s : Side) (size : ℕ) (get : Fetch) (c : Conn) : Conn :=
  match get with
  | .got data sha =>
    match (c.dir s).swap (cf s) size data sha with
    | some d => c.set s d
    | none => rewriteFail (cf s) c
  | _ => rewriteFail (cf s) c

/-- `ngx_http_waf_frame_rewrite`; `none` is `NGX_AGAIN`. -/
def rewrite (cf : Side → Conf) (s : Side) (rw : Rewrite) (c : Conn) : Option Conn :=
  match rw with
  | .none => some c
  | .object size truncated get =>
    if !(cf s).sendBodyStore then some c
    else if (cf s).bodyLimit < size ∨ truncated then some (rewriteFail (cf s) c)
    else
      match get with
      | .pending => none
      | _ => some (swapIn cf s size get c)

def Rewrite.size : Rewrite → ℕ
  | .none => 0
  | .object size _ _ => size

/-- `ngx_http_waf_frame_apply` -/
def apply (cf : Side → Conf) (c : Conn) (r : Reply) : Conn :=
  match r with
  | .refuse why => settle (why.elim c c.setClose) false
  | .allow rw =>
    match c.cur with
    | none => settle c (!c.closing)
    | some s =>
      match rewrite cf s rw c with
      | none => { c with fetching := true, rewrite := rw.size }
      | some c => settle c (!c.closing)

/-- `ngx_http_waf_frame_begin` for the direction: the payload that was held, unmasked, and the key
kept for a rewrite. -/
def Conn.begin (c : Conn) (s : Side) (d : Dir) (key : Option Key) : Conn :=
  { c.set s { d with mask := key.getD d.mask } with
    cur := some s, settled := false, fetching := false }

def noMemory : Close := closeInternal "internal error" "frame pool allocation failed"

/-- `ngx_http_waf_frame_inspect` -/
def inspect (cf : Side → Conf) (s : Side) (d : Dir) (payload : Bytes) (key : Option Key)
    (answer : Answer) (c : Conn) : Conn :=
  match answer with
  | .noMemory => (c.set s d).setClose noMemory
  | .waits => c.begin s { d with handed := d.handed ++ [maskBy key payload] } key
  | .settles r => apply cf (c.begin s { d with handed := d.handed ++ [maskBy key payload] } key) r

/-- `ngx_http_waf_frame_journal` lets the frame go and only writes it down. -/
def journal (cf : Side → Conf) (s : Side) (d : Dir) (key : Option Key) (answer : Answer)
    (c : Conn) : Conn :=
  match answer with
  | .noMemory => (c.set s d).setClose noMemory
  | _ => apply cf (c.begin s { d.advance d.held with held := 0 } key) (.allow .none)

/-! ### The pump -/

/-- What `send` answers. -/
inductive Sending
  | notReady
  | sends (n : ℕ)
  | fails

/-- What one turn of the pump meets; `recv` is empty when nothing is read. -/
structure Io where
  now : ℕ
  set : AuditSet
  answer : Answer
  send : Sending
  sendOut : Sending
  recv : Bytes

/-- The results of `ngx_http_waf_frame_parse`. -/
inductive Rc
  | ok
  | again
  deriving DecidableEq

/-- `ngx_http_waf_frame_parse` -/
def parse (cf : Side → Conf) (io : Io) (s : Side) (c : Conn) : Option (Rc × Conn) :=
  match parseLoop (cf s) io.now io.set (c.dir s).turns (c.dir s) with
  | none | some (.next _) => none
  | some (.again d) => some (.again, c.set s d)
  | some (.close d k) => some (.ok, (c.set s d).setClose k)
  | some (.journal d _ key) => some (.ok, journal cf s d key io.answer c)
  | some (.inspect d payload key) => some (.ok, inspect cf s d payload key io.answer c)

/-- `last - start` -/
def Dir.last (d : Dir) : ℕ := d.off + d.ready.length + d.rest.length

/-- The bytes that may be received. -/
def Dir.room (d : Dir) : ℕ := d.size - d.last - slack

def Dir.send (d : Dir) (n : ℕ) : Dir :=
  { d with
    off := d.off + min n d.ready.length
    ready := d.ready.drop n
    sent := d.sent ++ d.ready.take n }

/-- The replaced frame leaves the buffer. -/
def Dir.dropFront (d : Dir) : Dir :=
  { d with off := d.off + d.drop, rest := d.rest.drop d.drop, drop := 0 }

def Dir.sendOut (d : Dir) (n : ℕ) : Dir :=
  { d with out := d.out.drop n, sent := d.sent ++ d.out.take n }

/-- What is left moves to the start of the buffer. -/
def Dir.compact (d : Dir) : Dir := { d with off := 0 }

def Dir.recv (d : Dir) (bs : Bytes) : Dir :=
  { d with rest := d.rest ++ bs.take d.room, received := d.received ++ bs.take d.room }

/-- A turn of the pump ends with another turn, with a return, or never. -/
inductive Turn
  | again (c : Conn)
  | stop (c : Conn)
  | hang

def Conn.sendFailed (c : Conn) (s : Side) : Conn :=
  { c with
    closing := true
    closeWhy := if s = .c2s then "upstream send failed" else "client send failed" }

/-- The buffer is compacted when all of it that was released is sent and no frame is held. -/
def Dir.compacted (d : Dir) (busy : Bool) : Dir :=
  if d.ready = [] ∧ !busy ∧ d.drop = 0 ∧ d.off ≠ 0 then d.compact else d

/-- The second half of a turn: make room, receive, and decide whether to go on. -/
def pumpRecv (io : Io) (rc : Rc) (s : Side) (c : Conn) (d : Dir) : Turn :=
  let d := d.compacted (c.cur = some s)
  if d.room ≠ 0 ∧ io.recv ≠ [] then .again (c.set s (d.recv io.recv))
  else if rc = .ok ∧ c.cur = none then .again (c.set s d)
  else .stop (c.set s d)

/-- A replaced frame is dropped once what precedes it is sent; then its replacement is sent. -/
def pumpOut (io : Io) (rc : Rc) (s : Side) (c : Conn) (d : Dir) : Turn :=
  let d := if d.drop ≠ 0 ∧ d.ready = [] then d.dropFront else d
  if d.drop = 0 ∧ d.out ≠ [] then
    match io.sendOut with
    | .notReady => pumpRecv io rc s c d
    | .fails => .stop ((c.set s d).sendFailed s)
    | .sends n =>
      if n ≠ 0 ∧ d.out.length ≤ n then .again (c.set s (d.sendOut n))
      else pumpRecv io rc s c (d.sendOut n)
  else pumpRecv io rc s c d

/-- The part of a turn that follows the parser. -/
def pumpSend (io : Io) (rc : Rc) (s : Side) (c : Conn) : Turn :=
  let d := c.dir s
  if d.ready ≠ [] then
    match io.send with
    | .notReady => pumpOut io rc s c d
    | .fails => .stop (c.sendFailed s)
    | .sends n => pumpOut io rc s c (d.send n)
  else pumpOut io rc s c d

/-- The parser runs when no frame is being inspected and nothing waits to be dropped or sent in
its place. -/
def Conn.parses (c : Conn) (s : Side) : Prop :=
  (c.cur = none ∨ (c.dir s).mode = .pass) ∧ (c.dir s).drop = 0 ∧ (c.dir s).out = []

instance (c : Conn) (s : Side) : Decidable (c.parses s) := inferInstanceAs (Decidable (_ ∧ _))

/-- One turn of the loop of `ngx_http_waf_frame_pump`. -/
def pumpIter (cf : Side → Conf) (io : Io) (s : Side) (c : Conn) : Turn :=
  if c.parses s then
    match parse cf io s c with
    | none => .hang
    | some (rc, c) => if c.closing then .stop c else pumpSend io rc s c
  else pumpSend io .again s c

/-- `ngx_http_waf_frame_pump`.  A list that ends early leaves the loop between two turns. -/
def pump (cf : Side → Conf) (s : Side) : List Io → Conn → Option Conn
  | [], c => some c
  | io :: ios, c =>
    match pumpIter cf io s c with
    | .hang => none
    | .stop c => some c
    | .again c => pump cf s ios c

/-! ### Events -/

/-- The close frame of `ngx_http_waf_frame_finalize`. -/
def Conn.closeFrame (c : Conn) : Bytes :=
  [0x88, UInt8.ofNat (2 + c.closeReason.length), UInt8.ofNat (c.closeCode / 256),
    UInt8.ofNat c.closeCode] ++ c.closeReason

/-- `ngx_http_waf_frame_finalize`; `ready` says that the client's socket takes the close frame. -/
def finalize (ready : Bool) (c : Conn) : Conn :=
  { c with
    cur := none, closing := true, gone := true
    bye := if c.closeCode ≠ 0 ∧ ready then c.closeFrame else [] }

/-- What every handler does at its end. -/
def conclude (ready : Bool) (c : Conn) : Conn := if c.closing then finalize ready c else c

/-- `ngx_http_waf_frame_process` -/
def process (cf : Side → Conf) (s : Side) (ios : List Io) (ready : Bool) (c : Conn) : Option Conn :=
  if c.gone ∨ c.closing then some c else (pump cf s ios c).map (conclude ready)

/-- `ngx_http_waf_frame_run` -/
def run (cf : Side → Conf) (ios ios' : List Io) (ready : Bool) (c : Conn) : Option Conn :=
  match pump cf .c2s ios c with
  | none => none
  | some c =>
    if c.closing then some (finalize ready c) else (pump cf .s2c ios' c).map (conclude ready)

/-- `ngx_http_waf_frame_resume` -/
def resume (cf : Side → Conf) (r : Reply) (ios ios' : List Io) (ready : Bool) (c : Conn) :
    Option Conn :=
  if c.gone ∨ c.settled ∨ c.cur = none then some c
  else
    let c := apply cf c r
    if c.fetching then some c else run cf ios ios' ready c

/-- `ngx_http_waf_frame_fetched` -/
def fetched (cf : Side → Conf) (get : Fetch) (ios ios' : List Io) (ready : Bool) (c : Conn) :
    Option Conn :=
  match c.cur with
  | none => some c
  | some s =>
    if c.gone ∨ !c.fetching then some c
    else
      let c := swapIn cf s c.rewrite get c
      let c := settle c (!c.closing)
      if c.closing then some (finalize ready c) else run cf ios ios' ready c

/-- The events of a connection; `lost` is a timeout, the end of a peer or a failed event. -/
inductive Ev
  | process (s : Side) (ios : List Io) (ready : Bool)
  | resume (r : Reply) (ios ios' : List Io) (ready : Bool)
  | fetched (get : Fetch) (ios ios' : List Io) (ready : Bool)
  | lost (ready : Bool)

def step (cf : Side → Conf) (c : Conn) : Ev → Option Conn
  | .process s ios ready => Frames.process cf s ios ready c
  | .resume r ios ios' ready => Frames.resume cf r ios ios' ready c
  | .fetched get ios ios' ready => Frames.fetched cf get ios ios' ready c
  | .lost ready => some (if c.gone ∨ c.closing then c else finalize ready c)

/-- The state after a run. -/
def runs (cf : Side → Conf) : List Ev → Conn → Option Conn
  | [], c => some c
  | e :: es, c =>
    match step cf c e with
    | none => none
    | some c => runs cf es c

end Frames
