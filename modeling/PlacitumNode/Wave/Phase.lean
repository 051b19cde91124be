import PlacitumNode.Lib.Machine
import PlacitumNode.Lib.Run
import PlacitumNode.Wave.Verdict

/-!
# The waves of one phase (`runtime/ngx_http_waf_handler.c`, `bus/ngx_http_waf_bus.c`)

One wave at a time is published to its inspectors.  Replies, breaker skips, no-responder notices,
the inspectors' own timeouts and the deadline of the phase close the wave; then the next wave
starts or the phase is concluded.

* `publishWave`, `waveStart`: a wave begins;
* `onReply`, `skip`, `busAbsent`, `expire`, `failDeadline`, `onDeadline`: what can close it;
* `settle`, `resume`, `endWave`, `conclude`: what follows;
* `Event`, `step`: any interleaving of these.

A wave that closes on the spot is followed by the next one: where `ngx_http_waf_wave_start` calls
itself, the model goes through `State.nextWave`, as it does after `ngx_http_waf_settle`.
-/

namespace Waves

open Flags Octets Slots Machine

/-! ### The end of a wave -/

/-- `ngx_http_waf_current_wave` -/
def currentWave (c : Conf) (s : St) : Option Wave := c.waves[s.wave]?

/-- `ngx_http_waf_wave_closed` -/
def waveClosed (slot : SlotRec) : Prop := slot.got &&& slot.awaited = slot.awaited

instance (slot : SlotRec) : Decidable (waveClosed slot) := by unfold waveClosed; infer_instance

/-- `ngx_http_waf_wave_advances` -/
def waveAdvances (c : Conf) (s : St) (slot : SlotRec) : Prop :=
  s.wave + 1 < c.waves.length ∧ s.fail = .none ∧ ¬scoreDenies c s ∧
    ∀ w ∈ currentWave c s, slot.denied &&& waveGating c s w = 0#64

instance (c : Conf) (s : St) (slot : SlotRec) : Decidable (waveAdvances c s slot) := by
  unfold waveAdvances; infer_instance

/-- The inspectors whose rewrite of the body counts in this wave. -/
def rewriters (c : Conf) (s : St) (slot : SlotRec) : List Index :=
  (List.finRange 64).filter fun i =>
    let r := s.replies i
    decide (i.val < c.ninspectors) && has slot.got i && r.received && !r.passive && !r.vote
      && r.rewriteHas && r.rewriteBody && r.verdict != .deny

/-- `ngx_http_waf_rewrite_settle` -/
def rewriteSettle (c : Conf) (s : St) (slot : SlotRec) : St :=
  match rewriters c s slot with
  | [] => s
  | [i] =>
    if 8 ≤ s.rewriteDepth then { s with fail := .failBody }
    else match s.live.or s.locator with
      | none => s
      | some loc =>
        let r := s.replies i
        { s with
          live := some { loc with
            key := r.rewriteKey
            size := r.rewriteSize
            truncated := false
            inlineData := none
            sha256 := r.rewriteSha256.getD (List.replicate 32 0) }
          stale := match s.live with
            | some old => s.stale ++ [old.key]
            | none => s.stale
          rewriteLast := i.val
          rewriteDepth := s.rewriteDepth + 1
          rewriteApplied := s.rewriteApplied ||| bit i }
  | _ => { s with fail := .failBody }

/-- `ngx_http_waf_conclude` -/
def conclude (c : Conf) (s : St) : St :=
  failPass c (resolveVerdict c { s with slot := none, waiting := false })

/-- `ngx_http_waf_resume` -/
def resume (c : Conf) (s : St) : St :=
  match s.slot with
  | none => s
  | some slot => conclude c (rewriteSettle c s slot)

/-- A closed wave is followed by the next one or concludes the phase. -/
def endWave (c : Conf) (s : St) (slot : SlotRec) : St :=
  let s := rewriteSettle c s slot
  if waveAdvances c s slot then
    { s with slot := none, wave := s.wave + 1, state := .nextWave, waiting := false }
  else conclude c s

/-- `ngx_http_waf_settle` -/
def settle (c : Conf) (s : St) : St :=
  match s.slot with
  | none => s
  | some slot => if !s.waiting ∨ ¬waveClosed slot then s else endWave c s slot

/-! ### Events of a wave -/

/-- The reply is recorded with the mode its inspector has at this moment. -/
def recorded (c : Conf) (s : St) (slot : SlotRec) (w : Wave) (i : Index) (r : Reply) (now : ℕ) :
    St :=
  { s with slot := some { slot with got := slot.got ||| bit i }, got := s.got ||| bit i }.setReply i
    { r with
      received := true
      state := .answered
      passive := has (wavePassive c s w) i
      vote := has (waveVote c s w) i
      latency := now - slot.published
      wave := slot.wave }

/-- The reply is recorded, accounted, and its actions are carried out. -/
def accept (c : Conf) (s : St) (slot : SlotRec) (w : Wave) (i : Index) (r : Reply) (now : ℕ) : St :=
  sessionsMerge (actionsMerge c (account c (recorded c s slot w i r now) i) i slot.wave) i

/-- How an inspector that could not inspect fails the phase. -/
def Reply.failCode (r : Reply) : Code := if r.overload then .failOverload else .failInspector

/-- `ngx_http_waf_on_reply` in the wave `w` -/
def replyIn (c : Conf) (s : St) (slot : SlotRec) (w : Wave) (i : Index) (r : Reply) (now : ℕ) :
    St :=
  if !has w.all i ∨ has slot.got i then s
  else
    let s := accept c s slot w i r now
    if r.verdict = .error then
      if has (waveGating c s w) i then
        resume c { s with fail := r.failCode }
      else settle c s
    else if r.verdict = .deny ∨ r.verdict = .redirect then
      let s := { s with slot := s.slot.map fun slot =>
        { slot with denied := slot.denied ||| bit i } }
      if c.denyMode = .fast ∧ has (waveGating c s w) i then resume c s else settle c s
    else settle c s

/-- `ngx_http_waf_on_reply` -/
def onReply (c : Conf) (s : St) (i : Index) (r : Reply) (now : ℕ) : St :=
  match s.slot, currentWave c s with
  | some slot, some w => replyIn c s slot w i r now
  | _, _ => s

/-- Sets the state of the entries in a mask. -/
def St.mark (s : St) (mask : Mask) (entry : Entry) : St :=
  { s with replies := fun i =>
      if has mask i then { s.replies i with state := entry } else s.replies i }

/-- `ngx_http_waf_omit` -/
def omitMask (s : St) (mask : Mask) (entry : Entry) : St :=
  let s : St := if entry = .skipped then { s with skipped := s.skipped ||| mask }
    else { s with controlled := s.controlled ||| mask }
  let s : St := { s with slot := s.slot.map fun slot => { slot with got := slot.got ||| mask } }
  s.mark mask entry

/-- The inspectors of a mask are counted as silent; a mandatory one among them fails the phase. -/
def countSilent (c : Conf) (w : Wave) (s : St) (slot : SlotRec) (mask : Mask) (entry : Entry)
    (code : Code) : St :=
  let s : St := { s with slot := some { slot with got := slot.got ||| mask } }
  let s := s.mark mask entry
  if mask &&& waveMandatory c s w ≠ 0#64 then { s with fail := code } else s

/-- `ngx_http_waf_skip` in the wave `w` -/
def skipIn (c : Conf) (s : St) (slot : SlotRec) (w : Wave) (i : Index) (code : Code) : St :=
  if !has w.all i ∨ has slot.got i then s
  else
    let entry := if code = .failAbsent then .absent else .skipped
    settle c (countSilent c w { s with skipped := s.skipped ||| bit i } slot (bit i) entry code)

/-- `ngx_http_waf_skip` -/
def skip (c : Conf) (s : St) (i : Index) (code : Code) : St :=
  match s.slot, currentWave c s with
  | some slot, some w => skipIn c s slot w i code
  | _, _ => s

/-- `ngx_http_waf_fail` -/
def failDeadline (c : Conf) (s : St) (slot : SlotRec) : St :=
  match currentWave c s with
  | some w =>
    if slot.got &&& waveMandatory c s w = waveMandatory c s w then resume c s
    else resume c { s with fail := .failTimeout }
  | none => resume c { s with fail := .failTimeout }

/-- The awaited inspectors whose own timeout has passed. -/
def expired (c : Conf) (slot : SlotRec) (now : ℕ) : Mask :=
  ofPred fun i => has slot.awaited i && !has slot.got i &&
    match c.bindingFind i c.phase with
    | none => false
    | some b => b.timeout != 0 && decide (signed (slot.published + b.timeout - now) ≤ 0)

/-- `ngx_http_waf_expire` -/
def expire (c : Conf) (s : St) (slot : SlotRec) (now : ℕ) : St :=
  match currentWave c s with
  | some w =>
    let mask := expired c slot now
    if mask = 0#64 then s else settle c (countSilent c w s slot mask .timeout .failTimeout)
  | none => failDeadline c s slot

/-- `ngx_http_waf_on_deadline` -/
def onDeadline (c : Conf) (s : St) (now : ℕ) : St :=
  match s.slot with
  | none => s
  | some slot =>
    if !s.waiting then s
    else if 0 < signed ((s.due : ℤ) - now) then expire c s slot now
    else failDeadline c s slot

/-- `ngx_http_waf_bus_absent`; `sent` says whether the question could be sent to the group when
the instance asked by name is gone. -/
def busAbsent (c : Conf) (s : St) (i : Index) (sent : Bool) : St :=
  if c.ninspectors ≤ i.val then s
  else if !has s.personal i ∨ has s.got i then skip c s i .failAbsent
  else
    let s := { s with personal := s.personal &&& ~~~bit i }
    match c.bindingFind i c.phase with
    | some b =>
      if b.resume ≠ .prefer then skip c s i .failAbsent
      else if sent then s else skip c s i .failBus
    | none => skip c s i .failAbsent

/-! ### The start of a wave -/

/-- What `ngx_http_waf_wave_start` meets before it can publish. -/
inductive Prepare
  | ready
  | needBody
  | placingMeta
  | slotBusy
  | placeFailed
  deriving DecidableEq

/-- The outside of one wave start: the clock, the answers of the breakers, whether an inspector's
message is built and published, and whether it goes to a named instance. -/
structure StartIo where
  prepare : Prepare
  now : ℕ
  breaker : Index → Bool
  publish : Index → Bool
  personal : Index → Bool

/-- The loop of `ngx_http_waf_bus_publish_wave`; the number of messages sent, `none` on an error. -/
def publishLoop (c : Conf) (io : StartIo) : List Index → ℕ → St → Option ℕ × St
  | [], n, s => (some n, s)
  | i :: is, n, s =>
    if c.ninspectors ≤ i.val then publishLoop c io is n s
    else
      let s := { s with published := s.published ||| bit i }
      if !io.breaker i then publishLoop c io is n (skip c s i .failTimeout)
      else if !io.publish i then (none, s)
      else publishLoop c io is (n + 1)
        { s with personal := if io.personal i then s.personal ||| bit i else s.personal }

/-- The inspectors of a mask that are still open in the slot are not asked. -/
def omitOpen (s : St) (mask : Mask) (entry : Entry) : St :=
  match s.slot with
  | some slot =>
    if mask &&& ~~~slot.got ≠ 0#64 then omitMask s (mask &&& ~~~slot.got) entry else s
  | none => s

/-- The inspectors that are not asked: their `if` does not hold, or they are switched off. -/
def omitted (c : Conf) (s : St) (w : Wave) : St :=
  let s := omitOpen s (c.condOff &&& w.all) .skipped
  omitOpen s (waveOff c s w) .off

def St.slotGot (s : St) : Mask :=
  match s.slot with
  | some slot => slot.got
  | none => 0#64

/-- The slot of a wave about to be published: who is left to be asked is awaited. -/
def awaiting (c : Conf) (s : St) (w : Wave) (now : ℕ) : St :=
  let s := omitted c { s with slot := some ⟨s.wave, 0#64, 0#64, 0#64, now⟩ } w
  { s with
    wavePublished := now
    slot := s.slot.map fun slot => { slot with
      awaited := (waveMandatory c s w ||| wavePassive c s w) &&& ~~~slot.got } }

/-- `ngx_http_waf_bus_publish_wave`, on a slot just acquired; `false` on an error. -/
def publishWave (c : Conf) (s : St) (io : StartIo) : Bool × St :=
  match currentWave c s with
  | none => (false, s)
  | some w =>
    let s := awaiting c s w io.now
    let pending := (List.finRange 64).filter fun i => has (w.all &&& ~~~s.slotGot) i
    match publishLoop c io pending 0 s with
    | (none, s) => (false, s)
    | (some n, s) => (!(n == 0 && waveMandatory c s w &&& ~~~s.slotGot != 0#64), s)

/-- A wave start that cannot go on. -/
def startFailed (s : St) (code : Code) : St :=
  { s with slot := none, fail := code, state := .failed }

/-- `ngx_http_waf_wave_start` for the wave `s.wave` -/
def waveStart (c : Conf) (s : St) (io : StartIo) : St :=
  match io.prepare with
  | .needBody => { s with state := .needBody }
  | .placingMeta => { s with state := .placingMeta }
  | .slotBusy => startFailed s .failBus
  | .placeFailed => startFailed s .failBody
  | .ready =>
    let s := { s with due := if s.due = 0 then io.now + c.deadline else s.due }
    match publishWave c s io with
    | (false, s) => startFailed s .failBus
    | (true, s) =>
      match s.slot with
      | none => s
      | some slot =>
        if waveClosed slot then endWave c s slot
        else { s with state := .waiting, waiting := true }

/-! ### Runs -/

/-- Something happens to the phase.  Inspectors know the request id of a wave from its publication,
so replies and notices reach a slot only while the phase waits. -/
inductive Event
  | start (io : StartIo)
  | resumed (ok : Bool)
  | reply (i : Index) (r : Reply) (now : ℕ)
  | absent (i : Index) (sent : Bool)
  | timer (now : ℕ)

def step (c : Conf) (s : St) : Event → St
  | .start io => if s.state = .nextWave then waveStart c s io else s
  | .resumed ok =>
    if s.state = .needBody ∨ s.state = .placingMeta then
      if ok then { s with state := .nextWave } else startFailed s .failBody
    else s
  | .reply i r now =>
    if s.waiting ∧ i.val < c.ninspectors then onReply c s i (msgReply c.phase r) now else s
  | .absent i sent => if s.waiting then busAbsent c s i sent else s
  | .timer now => onDeadline c s now

end Waves
