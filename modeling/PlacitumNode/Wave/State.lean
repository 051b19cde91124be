import PlacitumNode.Lib.Mask
import PlacitumNode.Slot.Table

/-!
# The data of an inspection phase (`ngx_http_waf.h`, `core/ngx_http_waf_graph.c`)

A phase asks its inspectors in waves.  The bindings of a location say in which wave an inspector is
asked and in which mode; `wavesBuild` groups them.  A reply carries a verdict and actions; control
actions change the modes of other inspectors while the phase runs.

* `Binding`, `Wave`, `wavesBuild`, `Conf`: the configuration of one phase;
* `Action`, `Session`, `Reply`: what an inspector answers;
* `SlotRec`, `St`: the state of the phase.
-/

namespace Waves

open Flags Octets Slots

/-! ### Configuration -/

/-- `NGX_HTTP_WAF_MODE_*` -/
inductive Mode
  | active
  | passive
  | off
  | vote
  deriving DecidableEq

/-- `NGX_HTTP_WAF_RESUME_*` -/
inductive Resume
  | off
  | prefer
  | require
  deriving DecidableEq

/-- `ngx_http_waf_binding_t` -/
structure Binding where
  index : Index
  wave : ℕ
  mode : Mode
  timeout : ℕ
  resume : Resume
  deriving DecidableEq

/-- `ngx_http_waf_wave_t` -/
structure Wave where
  all : Mask
  passive : Mask
  vote : Mask
  off : Mask
  deriving DecidableEq

def Wave.empty : Wave := ⟨0, 0, 0, 0⟩

/-- A binding joins its wave. -/
def Wave.add (w : Wave) (b : Binding) : Wave :=
  { all := w.all ||| bit b.index
    passive := if b.mode = .passive then w.passive ||| bit b.index else w.passive
    vote := if b.mode = .vote then w.vote ||| bit b.index else w.vote
    off := if b.mode = .off then w.off ||| bit b.index else w.off }

/-- The waves of a phase, numbers without a binding left out. -/
def wavesBuild (bs : List Binding) : List Wave :=
  (List.range 65).filterMap fun wave =>
    match bs.filter (fun b => b.wave == wave) with
    | [] => none
    | b :: bs => some ((b :: bs).foldl Wave.add .empty)

/-- `NGX_HTTP_WAF_DENY_*` -/
inductive DenyMode
  | fast
  | deterministic
  deriving DecidableEq

/-- `NGX_HTTP_WAF_POLICY_*` -/
inductive Policy
  | pass
  | block
  | trim
  deriving DecidableEq

/-- `NGX_HTTP_WAF_EXC_*` -/
inductive Exc
  | timeout
  | absent
  | bus
  | body
  | inspector
  | overload
  deriving DecidableEq

/-- What a location fixes for one phase of a request: the bindings of all phases (an inspector is
bound at most once in each), the inspectors whose `if` does not hold for this request, and the
limits.  `ninspectors` is the number of declared inspectors. -/
structure Conf where
  phase : Phase
  ninspectors : ℕ
  inspects : Phase → List Binding
  once : ∀ p, ((inspects p).map Binding.index).Nodup
  condOff : Mask
  denyMode : DenyMode
  scoreDeny : ℤ
  actionsMax : ℕ
  deadline : ℕ
  exception : Exc → Policy

def Conf.waves (c : Conf) : List Wave := wavesBuild (c.inspects c.phase)

/-- `ngx_http_waf_binding_find` -/
def Conf.bindingFind (c : Conf) (i : Index) (p : Phase) : Option Binding :=
  (c.inspects p).find? fun b => b.index == i

/-! ### Replies -/

/-- `NGX_HTTP_WAF_V_*` -/
inductive Verdict
  | allow
  | score
  | redirect
  | deny
  | error
  deriving DecidableEq

/-- `NGX_HTTP_WAF_DO_*` -/
inductive Verb
  | challenge
  | threshold
  | skip
  | reauth
  | note
  | mutate
  | active
  | passive
  | off
  | vote
  | audit
  | archive
  | mark
  | score
  deriving DecidableEq

def Verb.control : Verb → Bool
  | active | passive | off | vote => true
  | _ => false

def Verb.auditing : Verb → Bool
  | audit | archive => true
  | _ => false

/-- The verbs the node carries out itself. -/
def Verb.module : Verb → Bool
  | challenge | threshold | skip | reauth | note | mutate => false
  | _ => true

/-- `NGX_HTTP_WAF_APPLY_*` -/
inductive Apply
  | request
  | ip
  | asn
  | session
  | conn
  | response
  deriving DecidableEq

/-- `ngx_http_waf_ovr_part_t` -/
structure OvrPart where
  set : ℕ
  ttl : Option ℕ
  onlyWhen : Option ℕ
  named : ℕ
  off : ℕ
  limit : List (Option ℕ)
  source : List ℕ
  deriving DecidableEq

def OvrPart.none : OvrPart := ⟨0, .none, .none, 0, 0, [], []⟩

/-- The fields of `ngx_http_waf_action_t` that merging reads.  `addressee` is `none` for everyone;
`toPhases` is a mask of phases, `0` for all of them. -/
structure Action where
  verb : Verb
  addressee : Option Index
  toPhases : BitVec 4
  code : Bytes
  apply : Apply
  value : ℤ
  counter : Bytes
  group : Bytes
  set : ℕ
  marker : Bytes
  spec : OvrPart
  sender : Index
  phase : Phase
  wave : ℕ
  passive : Bool
  deriving DecidableEq

/-- `ngx_http_waf_session_t` -/
structure Session where
  source : Bytes
  kind : Bytes
  user : Bytes
  id : Bytes
  groups : Bytes
  owner : Index
  verified : Bool
  passive : Bool
  deriving DecidableEq

/-- `NGX_HTTP_WAF_ENTRY_*` -/
inductive Entry
  | answered
  | timeout
  | absent
  | skipped
  | off
  deriving DecidableEq

/-- The fields of `ngx_http_waf_reply_t` that the phase reads. -/
structure Reply where
  verdict : Verdict
  score : ℤ
  overload : Bool
  actions : List Action
  sessions : List Session
  rewriteHas : Bool
  rewriteBody : Bool
  rewriteKey : Bytes
  rewriteSize : ℕ
  rewriteSha256 : Option Bytes
  latency : ℕ
  order : ℕ
  wave : ℕ
  state : Entry
  received : Bool
  passive : Bool
  vote : Bool
  deriving DecidableEq

/-- The zeroed entry of an inspector that has not answered. -/
def Reply.zero : Reply :=
  { verdict := .allow, score := 0, overload := false, actions := [], sessions := []
    rewriteHas := false, rewriteBody := false, rewriteKey := [], rewriteSize := 0
    rewriteSha256 := none, latency := 0, order := 0, wave := 0, state := .answered
    received := false, passive := false, vote := false }

/-! ### State -/

/-- `NGX_HTTP_WAF_CODE_*` -/
inductive Code
  | none
  | localList
  | localRate
  | inspector
  | score
  | failTimeout
  | failAbsent
  | failBus
  | failBody
  | failInspector
  | failOverload
  | localUpgrade
  deriving DecidableEq

/-- The states of `NGX_HTTP_WAF_ST_*` a phase goes through once its waves begin. -/
inductive State
  | needBody
  | placingMeta
  | waiting
  | nextWave
  | allow
  | redirect
  | deny
  | failed
  deriving DecidableEq

/-- `ngx_http_waf_control_t` -/
structure Control where
  active : Mask
  passive : Mask
  off : Mask
  vote : Mask
  deriving DecidableEq

/-- The wave fields of `ngx_http_waf_slot_t`. -/
structure SlotRec where
  wave : ℕ
  got : Mask
  denied : Mask
  awaited : Mask
  published : ℕ
  deriving DecidableEq

/-- The part of `ngx_http_waf_locator_t` a rewrite replaces. -/
structure Locator where
  key : Bytes
  size : ℕ
  truncated : Bool
  inlineData : Option Bytes
  sha256 : Bytes
  deriving DecidableEq

/-- `ngx_http_waf_audit_ovr_t` -/
structure AuditOvr where
  audit : OvrPart
  archive : OvrPart
  deriving DecidableEq

/-- The context of a request in one phase: `ngx_http_waf_phase_ctx_t` and what its replies change
in `ngx_http_waf_ctx_t`.  The slot is there from the publication of a wave to its end. -/
structure St where
  state : State
  waiting : Bool
  wave : ℕ
  wavePublished : ℕ
  due : ℕ
  slot : Option SlotRec
  replies : Index → Reply
  got : Mask
  published : Mask
  personal : Mask
  skipped : Mask
  controlled : Mask
  score : ℤ
  shadow : ℤ
  order : ℕ
  verdict : Verdict
  decisive : Option Index
  decisiveIndex : ℕ
  fail : Code
  code : Code
  byScore : Bool
  bodyPolicy : Option Policy
  locator : Option Locator
  live : Option Locator
  stale : List Bytes
  rewriteDepth : ℕ
  rewriteLast : ℕ
  rewriteApplied : Mask
  ctl : Phase → Control
  connCtl : Phase → Control
  actions : List Action
  markers : List Bytes
  sessions : List Session
  ovrRequest : AuditOvr
  ovrResponse : AuditOvr

/-- A phase before its first wave: nothing answered yet, whatever earlier phases left in the modes,
the actions, the markers, the sessions and the overrides. -/
structure St.Fresh (s : St) : Prop where
  state : s.state = .nextWave
  waiting : s.waiting = false
  wave : s.wave = 0
  slot : s.slot = none
  replies : ∀ i, (s.replies i).received = false
  fail : s.fail = .none
  score : s.score = 0

end Waves
