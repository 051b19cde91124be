import PlacitumNode.Wave.State

/-!
# Modes, accounting and the verdict (`runtime/ngx_http_waf_verdict.c`)

* `waveOff` … `waveGating`: the effective modes of a wave under the control masks;
* `msgReply`: the last checks of `codec/ngx_http_waf_msg_reply.c`;
* `account`, `actionsMerge` with `controlApply`, `scoreApply`, `auditOvrApply`, `markersAdd`, and
  `sessionsMerge`: what one reply does to the context;
* `pick`, `resolveVerdict`: the decision.
-/

namespace Waves

open Flags Octets Slots

/-! ### Effective modes -/

section Modes

variable (c : Conf) (s : St) (w : Wave)

/-- `ngx_http_waf_wave_off` -/
def waveOff : Mask :=
  let ctl := s.ctl c.phase
  (w.all &&& ctl.off) ||| (w.off &&& ~~~(ctl.active ||| ctl.passive ||| ctl.vote))

/-- `ngx_http_waf_wave_passive` -/
def wavePassive : Mask :=
  let ctl := s.ctl c.phase
  let live := w.all &&& ~~~waveOff c s w
  (ctl.passive ||| (w.passive &&& ~~~(ctl.active ||| ctl.vote))) &&& live

/-- `ngx_http_waf_wave_vote` -/
def waveVote : Mask :=
  let ctl := s.ctl c.phase
  let live := w.all &&& ~~~waveOff c s w
  (ctl.vote ||| (w.vote &&& ~~~(ctl.active ||| ctl.passive))) &&& live

/-- `ngx_http_waf_wave_mandatory` -/
def waveMandatory : Mask :=
  let live := w.all &&& ~~~waveOff c s w
  live &&& ~~~wavePassive c s w

/-- `ngx_http_waf_wave_gating` -/
def waveGating : Mask := waveMandatory c s w &&& ~~~waveVote c s w

end Modes

/-! ### Replies as the codec hands them over -/

/-- The end of `ngx_http_waf_msg_reply`: nobody is left to redirect outside the request phase, only
a score verdict carries a score, and an error keeps only the actions of the node itself. -/
def msgReply (phase : Phase) (r : Reply) : Reply :=
  let verdict := if r.verdict = .redirect ∧ phase ≠ .request then .allow else r.verdict
  if verdict = .error then
    { r with
      verdict := verdict
      score := 0
      rewriteHas := false, rewriteBody := false, rewriteKey := [], rewriteSize := 0
      actions := r.actions.filter fun a => a.verb.module && a.verb != .score }
  else
    { r with verdict := verdict, score := if verdict = .score then r.score else 0 }

/-! ### Accounting -/

/-- Replaces the entry of one inspector. -/
def St.setReply (s : St) (i : Index) (r : Reply) : St :=
  { s with replies := Function.update s.replies i r }

/-- A denial that only votes is worth the highest score. -/
def Reply.votes (r : Reply) : Bool := r.vote && r.verdict = .deny

/-- Adds a positive score to the total of the phase, or to the shadow total of passive replies. -/
def St.addScore (s : St) (r : Reply) : St :=
  if r.score ≤ 0 then s
  else if r.passive then { s with shadow := s.shadow + r.score }
  else { s with score := s.score + r.score }

/-- `ngx_http_waf_account` -/
def account (c : Conf) (s : St) (i : Index) : St :=
  let s : St := { s with order := s.order + 1 }
  let r : Reply := { s.replies i with order := s.order }
  if r.verdict = .redirect ∧ c.phase ≠ .request then s.setReply i { r with verdict := .allow }
  else if r.votes then (s.setReply i { r with score := 100 }).addScore { r with score := 100 }
  else if r.verdict = .score then (s.setReply i r).addScore r
  else s.setReply i r

/-- `ngx_http_waf_control_set` -/
def controlSet (ctl : Control) (verb : Verb) (b : Mask) : Control :=
  let ctl : Control :=
    ⟨ctl.active &&& ~~~b, ctl.passive &&& ~~~b, ctl.off &&& ~~~b, ctl.vote &&& ~~~b⟩
  match verb with
  | .active => { ctl with active := ctl.active ||| b }
  | .passive => { ctl with passive := ctl.passive ||| b }
  | .off => { ctl with off := ctl.off ||| b }
  | .vote => { ctl with vote := ctl.vote ||| b }
  | _ => ctl

def Phase.num : Phase → ℕ
  | .request => 0
  | .response => 1
  | .frameC2s => 2
  | .frameS2c => 3

def Phase.isFrame (p : Phase) : Bool := p = .frameC2s || p = .frameS2c

/-- The action addresses the phase `p`. -/
def Action.addresses (a : Action) (p : Phase) : Bool :=
  a.toPhases = 0 || a.toPhases.getLsbD (Phase.num p)

def phases : List Phase := [.request, .response, .frameC2s, .frameS2c]

/-- `ngx_http_waf_control_apply`; `none` when the action is refused. -/
def controlApply (c : Conf) (s : St) (a : Action) : Option St :=
  match a.addressee with
  | none => none
  | some target =>
    if a.passive then none
    else if a.apply = .conn ∧ !Phase.isFrame c.phase then none
    else if phases.all fun p => !(a.addresses p && (c.bindingFind target p).isSome) then none
    else
      let set (ctl : Phase → Control) : Phase → Control := fun p =>
        if a.addresses p then controlSet (ctl p) a.verb (bit target) else ctl p
      some { s with
        ctl := set s.ctl
        connCtl := if a.apply = .conn then set s.connCtl else s.connCtl }

/-- `ngx_http_waf_audit_ovr_apply`; `none` when the action is refused. -/
def auditOvrApply (c : Conf) (s : St) (a : Action) : Option St :=
  if a.apply = .response ∧ Phase.isFrame c.phase then none
  else
    let set (o : AuditOvr) : AuditOvr :=
      if a.verb = .audit then { o with audit := { a.spec with set := a.set } }
      else { o with archive := { a.spec with set := a.set } }
    some (if a.apply = .response then { s with ovrResponse := set s.ovrResponse }
      else { s with ovrRequest := set s.ovrRequest })

/-- `ngx_http_waf_markers_add` -/
def markersAdd (s : St) (a : Action) : St :=
  if a.marker = [] ∨ a.marker ∈ s.markers ∨ 16 ≤ s.markers.length then s
  else { s with markers := s.markers ++ [a.marker] }

/-- `ngx_http_waf_score_apply`; `none` when the action is refused. -/
def scoreApply (c : Conf) (s : St) (a : Action) : Option St :=
  if a.passive then none
  else if c.ninspectors ≤ a.sender.val then none
  else
    let reply := s.replies a.sender
    let now := max (-100) (min 100 (reply.score + a.value))
    let applied := max (-s.score) (now - reply.score)
    some ({ s with score := s.score + applied }.setReply a.sender
      { reply with score := reply.score + applied })

/-- Two actions share a place in the list. -/
def Action.sameKey (a b : Action) : Bool :=
  a.sender == b.sender && a.addressee == b.addressee && a.toPhases == b.toPhases && a.verb == b.verb
    && a.apply == b.apply && a.code == b.code && a.counter == b.counter && a.group == b.group
    && a.marker == b.marker

/-- What tells two actions of the list apart. -/
structure Key where
  sender : Index
  addressee : Option Index
  toPhases : BitVec 4
  verb : Verb
  apply : Apply
  code : Bytes
  counter : Bytes
  group : Bytes
  marker : Bytes
  deriving DecidableEq

def Action.key (a : Action) : Key :=
  ⟨a.sender, a.addressee, a.toPhases, a.verb, a.apply, a.code, a.counter, a.group, a.marker⟩

theorem sameKey_iff (a b : Action) : a.sameKey b = true ↔ a.key = b.key := by
  simp [Action.sameKey, Action.key, and_assoc]

/-- The effect of an action, `none` when it is refused. -/
def actionApply (c : Conf) (s : St) (a : Action) : Option St :=
  if a.verb.control then controlApply c s a
  else if a.verb.auditing then auditOvrApply c s a
  else if a.verb = .mark then some (markersAdd s a)
  else if a.verb = .score then scoreApply c s a
  else some s

/-- One round of the loop of `ngx_http_waf_actions_merge`. -/
def actionMerge (c : Conf) (s : St) (a : Action) : St :=
  let found := s.actions.findIdx (Action.sameKey a)
  if found = s.actions.length ∧ c.actionsMax ≤ s.actions.length then s
  else match actionApply c s a with
    | none => s
    | some s => { s with
        actions := if found < s.actions.length then s.actions.set found a else s.actions ++ [a] }

/-- `ngx_http_waf_actions_merge` -/
def actionsMerge (c : Conf) (s : St) (i : Index) (wave : ℕ) : St :=
  let r := s.replies i
  if c.actionsMax = 0 then s
  else r.actions.foldl (fun s a => actionMerge c s
    { a with sender := i, phase := c.phase, wave := wave, passive := r.passive }) s

/-- The room `ngx_http_waf_session_copy` has for the texts of a session. -/
def Session.fits (x : Session) : Bool :=
  x.source.length + x.kind.length + x.user.length + x.id.length + x.groups.length
    ≤ 256 + 128 + 64 + 16 + 256

/-- One round of the loop of `ngx_http_waf_sessions_merge`. -/
def sessionMerge (l : List Session) (x : Session) : List Session :=
  let found := l.findIdx fun y => y.owner == x.owner && y.source == x.source && y.id == x.id
  if found < l.length then if x.fits then l.set found x else l
  else if 8 ≤ l.length then l
  else if x.fits then l ++ [x] else l

/-- `ngx_http_waf_sessions_merge` -/
def sessionsMerge (s : St) (i : Index) : St :=
  let r := s.replies i
  let put (l : List Session) (x : Session) : List Session :=
    sessionMerge l { x with owner := i, passive := r.passive }
  { s with sessions := r.sessions.foldl put s.sessions }

/-! ### The decision -/

/-- The entry of `i` can decide for the verdict `v`: neither a passive inspector nor a vote can. -/
def Decides (c : Conf) (s : St) (v : Verdict) (i : Index) : Prop :=
  i.val < c.ninspectors ∧ (s.replies i).received = true ∧ (s.replies i).verdict = v ∧
    (s.replies i).passive = false ∧ (s.replies i).vote = false

instance (c : Conf) (s : St) (v : Verdict) (i : Index) : Decidable (Decides c s v i) := by
  unfold Decides; infer_instance

/-- One round of `ngx_http_waf_pick`: the first entry, or in fast mode the first to arrive. -/
def pickStep (c : Conf) (s : St) (v : Verdict) (best : Option Index) (i : Index) : Option Index :=
  if Decides c s v i then
    match best with
    | none => some i
    | some b => if c.denyMode = .fast ∧ (s.replies i).order < (s.replies b).order then some i else best
  else best

/-- `ngx_http_waf_pick` -/
def pick (c : Conf) (s : St) (v : Verdict) : Option Index :=
  (List.finRange 64).foldl (pickStep c s v) none

/-- The score has reached the threshold of the phase. -/
def scoreDenies (c : Conf) (s : St) : Prop := 0 < c.scoreDeny ∧ c.scoreDeny ≤ s.score

instance (c : Conf) (s : St) : Decidable (scoreDenies c s) := by unfold scoreDenies; infer_instance

/-- `ngx_http_waf_resolve_verdict` -/
def resolveVerdict (c : Conf) (s : St) : St :=
  let s := { s with decisive := none, decisiveIndex := 0, byScore := false, code := .none }
  match pick c s .deny with
  | some i =>
    { s with
      verdict := .deny, decisive := some i, decisiveIndex := i.val, code := .inspector
      state := .deny }
  | none =>
    if scoreDenies c s then
      { s with verdict := .deny, byScore := true, code := .score, state := .deny }
    else match pick c s .redirect with
      | some i =>
        { s with
          verdict := .redirect, decisive := some i, decisiveIndex := i.val, code := .inspector
          state := .redirect }
      | none =>
        { s with verdict := .allow, state := if s.fail ≠ .none then .failed else .allow }

/-- `ngx_http_waf_exc_of` -/
def Code.exc : Code → Exc
  | failAbsent => .absent
  | failBus => .bus
  | failBody => .body
  | failInspector => .inspector
  | failOverload => .overload
  | _ => .timeout

/-- `ngx_http_waf_exception_policy` -/
def exceptionPolicy (c : Conf) (s : St) : Policy :=
  match s.fail.exc, s.bodyPolicy with
  | .body, some p => p
  | e, _ => c.exception e

/-- `ngx_http_waf_fail_pass` -/
def failPass (c : Conf) (s : St) : St :=
  if s.state ≠ .failed ∨ exceptionPolicy c s ≠ .pass then s else { s with state := .allow }

end Waves
