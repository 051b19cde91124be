import PlacitumNode.Wave.Modes
import PlacitumNode.Wave.Score

/-!
# What the outcome of a phase depends on

With `waf_deny_mode deterministic` a phase never reads the order of its replies.  Two states with
the same view stay so under every event, so they end in the same outcome.

* `phaseAll`, `modes_phaseAll`: the modes are a matter of the inspectors that the phase asks;
* `St.core`, `St.view`: what the rest of a phase reads;
* `settle_core`, `waveStart_core`, …: every function of the phase works on the core alone;
* `accept_view`: so does a reply, on the view;
* `step_view`, `run_view`: two states of one view stay of one view.
-/

namespace Waves

open Flags Octets Slots Run

/-! ### The inspectors of the phase -/

/-- The inspectors that some wave of the phase asks. -/
def phaseAll (c : Conf) : Mask := ofPred fun i => c.waves.any fun w => has w.all i

/-- The flags of one inspector in the control masks. -/
def Control.flags (x : Control) (k : Index) : Bool × Bool × Bool × Bool :=
  (has x.active k, has x.passive k, has x.off k, has x.vote k)

/-- The control masks, those of the inspectors of a mask alone. -/
def Control.on (x : Control) (m : Mask) : Control :=
  ⟨x.active &&& m, x.passive &&& m, x.off &&& m, x.vote &&& m⟩

/-- Control masks are told apart by the flags of some inspector. -/
theorem Control.ext_flags {x y : Control} (h : ∀ k, x.flags k = y.flags k) : x = y := by
  simp only [Control.flags, Prod.mk.injEq] at h
  cases x
  cases y
  congr 1
  · exact ext_has fun k => (h k).1
  · exact ext_has fun k => (h k).2.1
  · exact ext_has fun k => (h k).2.2.1
  · exact ext_has fun k => (h k).2.2.2

theorem Control.flags_on (x : Control) (m : Mask) (k : Index) :
    (x.on m).flags k = if has m k then x.flags k else (false, false, false, false) := by
  cases h : has m k <;> simp [Control.flags, Control.on, h]

/-- Masks agree on some inspectors when the flags of these agree. -/
theorem Control.on_eq_iff {x y : Control} {m : Mask} :
    x.on m = y.on m ↔ ∀ k, has m k = true → x.flags k = y.flags k := by
  constructor
  · intro h k hk
    have hflags := congrArg (fun z => Control.flags z k) h
    simp only [Control.flags_on, hk, if_true] at hflags
    exact hflags
  · intro h
    apply Control.ext_flags
    intro k
    rw [Control.flags_on, Control.flags_on]
    split_ifs with hk
    · exact h k hk
    · rfl

theorem has_phaseAll {c : Conf} {w : Wave} {i : Index} (hw : w ∈ c.waves) (h : has w.all i = true) :
    has (phaseAll c) i = true := by
  rw [phaseAll, has_ofPred, List.any_eq_true]
  exact ⟨w, hw, h⟩

theorem wave_mem {c : Conf} {s : St} {w : Wave} (h : currentWave c s = some w) : w ∈ c.waves :=
  List.mem_of_getElem? h

/-- The modes of a wave are a function of the control masks of the inspectors that the phase asks. -/
theorem modes_phaseAll {c : Conf} {s t : St} {w : Wave} (hw : w ∈ c.waves)
    (h : (s.ctl c.phase).on (phaseAll c) = (t.ctl c.phase).on (phaseAll c)) :
    waveOff c s w = waveOff c t w ∧ wavePassive c s w = wavePassive c t w ∧
      waveVote c s w = waveVote c t w ∧ waveMandatory c s w = waveMandatory c t w ∧
      waveGating c s w = waveGating c t w := by
  have hflags : ∀ i, has w.all i = true →
      has (s.ctl c.phase).active i = has (t.ctl c.phase).active i ∧
      has (s.ctl c.phase).passive i = has (t.ctl c.phase).passive i ∧
      has (s.ctl c.phase).off i = has (t.ctl c.phase).off i ∧
      has (s.ctl c.phase).vote i = has (t.ctl c.phase).vote i := by
    intro i hi
    simpa only [Control.flags, Prod.mk.injEq] using Control.on_eq_iff.1 h i (has_phaseAll hw hi)
  have hoff : waveOff c s w = waveOff c t w := by
    refine ext_has fun i => ?_
    cases hi : has w.all i with
    | true =>
      obtain ⟨h₁, h₂, h₃, h₄⟩ := hflags i hi
      simp [waveOff, h₁, h₂, h₃, h₄]
    | false =>
      -- an inspector outside the wave is not configured as off in it
      have hle := congrArg (has · i) (built_formed hw).1.off_le
      simp only [has_and, hi, Bool.and_false] at hle
      simp [waveOff, hi, ← hle]
  have hmode : wavePassive c s w = wavePassive c t w ∧ waveVote c s w = waveVote c t w := by
    constructor <;> refine ext_has fun i => ?_
    all_goals
      cases hi : has w.all i with
      | true =>
        obtain ⟨h₁, h₂, -, h₄⟩ := hflags i hi
        simp [wavePassive, waveVote, hoff, h₁, h₂, h₄]
      | false => simp [wavePassive, waveVote, hi]
  have hmand : waveMandatory c s w = waveMandatory c t w := by
    simp only [waveMandatory, hoff, hmode.1]
  exact ⟨hoff, hmode.1, hmode.2, hmand, by simp only [waveGating, hmand, hmode.2]⟩

/-! ### The view -/

/-- What the phase reads of an entry once it is accounted. -/
def Reply.core (r : Reply) : Reply := { r with score := 0, order := 0, latency := 0 }

/-- What the phase reads of the state, the list of actions apart.  Of the control masks it reads
those of this phase and of the inspectors it asks. -/
def St.core (c : Conf) (s : St) : St :=
  { s with
    replies := fun i => (s.replies i).core
    score := if 0 < c.scoreDeny then s.score else 0
    shadow := 0
    order := 0
    ctl := fun _ => (s.ctl c.phase).on (phaseAll c)
    connCtl := fun _ => ⟨0#64, 0#64, 0#64, 0#64⟩
    actions := []
    markers := []
    sessions := []
    ovrRequest := ⟨.none, .none⟩
    ovrResponse := ⟨.none, .none⟩ }

/-- A state with other control masks and another score. -/
def St.recast (s : St) (ctl : Phase → Control) (score : ℤ) : St :=
  { s with ctl := ctl, score := score }

def keys (l : List Action) : Finset Key := (l.map Action.key).toFinset

/-- The core of a state with the keys of its actions and the number of actions beyond them. -/
structure View where
  core : St
  keys : Finset Key
  extra : ℤ

def St.view (c : Conf) (s : St) : View :=
  ⟨s.core c, keys s.actions, (s.actions.length : ℤ) - (keys s.actions).card⟩

/-- The search for an action by its key succeeds exactly when the key is in the list. -/
theorem found_lt_iff (l : List Action) (a : Action) :
    l.findIdx (Action.sameKey a) < l.length ↔ a.key ∈ keys l := by
  rw [List.findIdx_lt_length]
  simp only [sameKey_iff, keys, List.mem_toFinset, List.mem_map]
  constructor
  · rintro ⟨b, hb, h⟩
    exact ⟨b, hb, h.symm⟩
  · rintro ⟨b, hb, h⟩
    exact ⟨b, hb, h.symm⟩

/-- An action takes the place of the one with its key, or a new one. -/
def put (l : List Action) (a : Action) : List Action :=
  if l.findIdx (Action.sameKey a) < l.length then l.set (l.findIdx (Action.sameKey a)) a
  else l ++ [a]

theorem keys_put (l : List Action) (a : Action) : keys (put l a) = insert a.key (keys l) := by
  unfold put
  split_ifs with h
  · have hk := List.findIdx_getElem (p := Action.sameKey a) (w := h)
    rw [sameKey_iff] at hk
    generalize l.findIdx (Action.sameKey a) = n at h hk ⊢
    have hset : (l.set n a).map Action.key = l.map Action.key := by
      rw [List.map_set, hk]
      apply List.ext_getElem
      · simp
      · intro m h₁ h₂
        rw [List.getElem_set]
        split_ifs with hm
        · subst hm
          simp
        · rfl
    unfold keys
    rw [hset, Finset.insert_eq_of_mem]
    exact List.mem_toFinset.2 (List.mem_map.2 ⟨l[n], List.getElem_mem h, hk.symm⟩)
  · unfold keys
    ext k
    simp

/-- The number of entries beyond one for each key is not changed by an action. -/
theorem put_length (l : List Action) (a : Action) :
    ((put l a).length : ℤ) - (keys (put l a)).card = l.length - (keys l).card := by
  rw [keys_put]
  unfold put
  split_ifs with h
  · rw [Finset.insert_eq_of_mem ((found_lt_iff l a).1 h), List.length_set]
  · rw [Finset.card_insert_of_notMem (fun hk => h ((found_lt_iff l a).2 hk)), List.length_append]
    push_cast
    simp only [List.length_singleton]
    omega

theorem Control.on_on (x : Control) (m : Mask) : (x.on m).on m = x.on m :=
  Control.on_eq_iff.2 fun k hk => by rw [Control.flags_on, if_pos hk]

/-- The modes of a wave are read from the core. -/
theorem modes_core {c : Conf} {w : Wave} (hw : w ∈ c.waves) (s : St) :
    waveOff c (s.core c) w = waveOff c s w ∧ wavePassive c (s.core c) w = wavePassive c s w ∧
      waveVote c (s.core c) w = waveVote c s w ∧ waveMandatory c (s.core c) w = waveMandatory c s w ∧
      waveGating c (s.core c) w = waveGating c s w :=
  modes_phaseAll hw (Control.on_on _ _)

/-! ### Functions of the core -/

/-- A function of the phase reads and changes the core alone. -/
def Through (c : Conf) (f : St → St) : Prop :=
  ∀ s, (f s).core c = f (s.core c) ∧ (f s).actions = s.actions ∧ (f s).score = s.score

section Through

variable {c : Conf}

/-- Such a function keeps states of one view at one view. -/
theorem Through.view {f : St → St} (h : Through c f) {s t : St} (hv : s.view c = t.view c) :
    (f s).view c = (f t).view c := by
  obtain ⟨hs, hsa, -⟩ := h s
  obtain ⟨ht, hta, -⟩ := h t
  have hcore : s.core c = t.core c := congrArg View.core hv
  unfold St.view at hv ⊢
  rw [hs, ht, hsa, hta, hcore]
  rw [hcore] at hv
  injection hv with _ hk he
  rw [hk, ← he, hk]

/-- Functions of the core compose, and so do branches that the core decides. -/
theorem Through.comp {f g : St → St} (hg : Through c g) (hf : Through c f) :
    Through c fun s => g (f s) := by
  intro s
  obtain ⟨h₁, h₂, h₃⟩ := hf s
  obtain ⟨g₁, g₂, g₃⟩ := hg (f s)
  exact ⟨by rw [g₁, h₁], g₂.trans h₂, g₃.trans h₃⟩

theorem through_id : Through c id := fun _ => ⟨rfl, rfl, rfl⟩

theorem through_ite {f g : St → St} (P : St → Prop) [DecidablePred P] (hf : Through c f)
    (hg : Through c g) (hP : ∀ s, P (s.core c) ↔ P s) :
    Through c fun s => if P s then f s else g s := by
  intro s
  by_cases h : P s
  · simp only [if_pos h, if_pos ((hP s).2 h)]
    exact hf s
  · simp only [if_neg h, if_neg (fun h' => h ((hP s).1 h'))]
    exact hg s

/-- A function that branches on an option the core determines. -/
theorem through_option {α : Type} (o : St → Option α) {F g : St → St} {f : α → St → St}
    (hsome : ∀ s x, o s = some x → F s = f x s) (hnone : ∀ s, o s = none → F s = g s)
    (hf : ∀ s x, o s = some x → Through c (f x)) (hg : Through c g)
    (ho : ∀ s, o (s.core c) = o s) :
    Through c F := by
  intro s
  cases h : o s with
  | none =>
    rw [hnone s h, hnone _ ((ho s).trans h)]
    exact hg s
  | some x =>
    rw [hsome s x h, hsome _ x ((ho s).trans h)]
    exact hf s x h s

/-- The slot is part of the core. -/
theorem through_slot {f : SlotRec → St → St} (hf : ∀ slot, Through c (f slot)) :
    Through c fun s => match s.slot with | none => s | some slot => f slot s := by
  intro s
  have hslot : (s.core c).slot = s.slot := rfl
  simp only [hslot]
  cases s.slot with
  | none => exact ⟨rfl, rfl, rfl⟩
  | some slot => exact hf slot s

/-- The score is compared only where a threshold is set, and then the core has it. -/
theorem scoreDenies_core (s : St) : scoreDenies c (s.core c) ↔ scoreDenies c s := by
  unfold scoreDenies St.core
  constructor
  · rintro ⟨h₁, h₂⟩
    rw [if_pos h₁] at h₂
    exact ⟨h₁, h₂⟩
  · rintro ⟨h₁, h₂⟩
    exact ⟨h₁, by simp only [if_pos h₁]; exact h₂⟩

/-- The decisive inspector depends on who can decide alone. -/
theorem pick_congr (hdet : c.denyMode = .deterministic) {s t : St} {v : Verdict}
    (h : ∀ i, Decides c s v i ↔ Decides c t v i) : pick c s v = pick c t v := by
  have hstep : pickStep c s v = pickStep c t v := by
    funext best i
    unfold pickStep
    simp only [h, hdet, reduceCtorEq, false_and, if_false]
  unfold pick
  rw [hstep]

/-- In the deterministic mode the choice among the deciding inspectors does not see the order of
replies. -/
theorem pick_core (hdet : c.denyMode = .deterministic) (s : St) (v : Verdict) :
    pick c (s.core c) v = pick c s v :=
  pick_congr hdet fun _ => Iff.rfl

/-- The verdict when neither a refusal nor the score decides. -/
def redirectOrAllow (c : Conf) (s : St) : St :=
  match pick c s .redirect with
  | some i =>
    { s with
      verdict := .redirect, decisive := some i, decisiveIndex := i.val, code := .inspector
      state := .redirect }
  | none => { s with verdict := .allow, state := if s.fail ≠ .none then .failed else .allow }

theorem through_redirectOrAllow (hdet : c.denyMode = .deterministic) :
    Through c (redirectOrAllow c) :=
  through_option (fun s => pick c s .redirect)
    (f := fun i s => { s with
      verdict := .redirect, decisive := some i, decisiveIndex := i.val, code := .inspector
      state := .redirect })
    (g := fun s => { s with
      verdict := .allow, state := if s.fail ≠ .none then .failed else .allow })
    (fun s i h => by simp only [redirectOrAllow, h]) (fun s h => by simp only [redirectOrAllow, h])
    (fun _ _ _ _ => ⟨rfl, rfl, rfl⟩) (fun _ => ⟨rfl, rfl, rfl⟩) fun s => pick_core hdet s .redirect

/-- The verdict of a phase: failures, refusals, the score, and a redirection or a pass. -/
theorem through_resolveVerdict (hdet : c.denyMode = .deterministic) :
    Through c (resolveVerdict c) := by
  have hscore := through_ite (scoreDenies c)
    (f := fun s => { s with verdict := .deny, byScore := true, code := .score, state := .deny })
    (fun _ => ⟨rfl, rfl, rfl⟩) (through_redirectOrAllow hdet) scoreDenies_core
  refine through_option
    (fun s => pick c
      { s with decisive := none, decisiveIndex := 0, byScore := false, code := .none } .deny)
    (f := fun i s => { s with
      decisive := some i, decisiveIndex := i.val, byScore := false, code := .inspector
      verdict := .deny, state := .deny })
    (fun s i h => by simp only [resolveVerdict, h]) (fun s h => ?_)
    (fun _ _ _ _ => ⟨rfl, rfl, rfl⟩)
    (hscore.comp (f := fun s =>
      { s with decisive := none, decisiveIndex := 0, byScore := false, code := .none })
      fun _ => ⟨rfl, rfl, rfl⟩)
    fun s => pick_core hdet
      { s with decisive := none, decisiveIndex := 0, byScore := false, code := .none } .deny
  simp only [resolveVerdict, h]
  rfl

theorem through_failPass : Through c (failPass c) :=
  through_ite (fun s => s.state ≠ .failed ∨ exceptionPolicy c s ≠ .pass) through_id
    (fun _ => ⟨rfl, rfl, rfl⟩) (fun _ => Iff.rfl)

theorem through_conclude (hdet : c.denyMode = .deterministic) : Through c (conclude c) :=
  through_failPass.comp ((through_resolveVerdict hdet).comp
    (f := fun s => { s with slot := none, waiting := false }) fun _ => ⟨rfl, rfl, rfl⟩)

/-- Who rewrites the object is a matter of the entries, and these are in the core. -/
theorem through_rewriteSettle (slot : SlotRec) : Through c fun s => rewriteSettle c s slot := by
  intro s
  have hrew : rewriters c (s.core c) slot = rewriters c s slot := rfl
  simp only [rewriteSettle, hrew]
  split
  · exact ⟨rfl, rfl, rfl⟩
  · by_cases hd : 8 ≤ s.rewriteDepth
    · rw [if_pos hd, if_pos (show 8 ≤ (s.core c).rewriteDepth from hd)]
      exact ⟨rfl, rfl, rfl⟩
    · rw [if_neg hd, if_neg (show ¬8 ≤ (s.core c).rewriteDepth from hd)]
      have hloc : (s.core c).live.or (s.core c).locator = s.live.or s.locator := rfl
      rw [hloc]
      cases s.live.or s.locator <;> exact ⟨rfl, rfl, rfl⟩
  · exact ⟨rfl, rfl, rfl⟩

theorem waveAdvances_core (s : St) (slot : SlotRec) :
    waveAdvances c (s.core c) slot ↔ waveAdvances c s slot := by
  have hw : currentWave c (s.core c) = currentWave c s := rfl
  unfold waveAdvances
  rw [scoreDenies_core, hw]
  refine and_congr_right' (and_congr_right' (and_congr_right' (forall₂_congr fun w h => ?_)))
  rw [(modes_core (wave_mem h) s).2.2.2.2]

/-- The end of a wave starts the next one or concludes the phase. -/
theorem through_endWave (hdet : c.denyMode = .deterministic) (slot : SlotRec) :
    Through c fun s => endWave c s slot :=
  Through.comp
    (g := fun s => if waveAdvances c s slot then
      { s with slot := none, wave := s.wave + 1, state := .nextWave, waiting := false }
      else conclude c s)
    (through_ite (fun s => waveAdvances c s slot) (fun _ => ⟨rfl, rfl, rfl⟩) (through_conclude hdet)
      fun s => waveAdvances_core s slot)
    (through_rewriteSettle slot)

/-- A wave ends when all awaited inspectors are heard of, and the slot knows these. -/
theorem through_settle (hdet : c.denyMode = .deterministic) : Through c (settle c) :=
  through_slot fun slot => through_ite (fun s => !s.waiting ∨ ¬waveClosed slot) through_id
    (through_endWave hdet slot) fun _ => Iff.rfl

theorem through_resume (hdet : c.denyMode = .deterministic) : Through c (resume c) :=
  through_slot fun slot => (through_conclude hdet).comp (through_rewriteSettle slot)

theorem through_mark (mask : Mask) (e : Entry) : Through c fun s => s.mark mask e := by
  intro s
  refine ⟨?_, rfl, rfl⟩
  have hrep : (fun i => Reply.core (if has mask i then { s.replies i with state := e }
      else s.replies i)) =
      fun i => if has mask i then { (s.replies i).core with state := e }
        else (s.replies i).core := by
    funext i
    split_ifs <;> rfl
  simp only [St.mark, St.core, hrep]

theorem through_countSilent {w : Wave} (hw : w ∈ c.waves) (slot : SlotRec) (mask : Mask) (e : Entry)
    (code : Code) :
    Through c fun s => countSilent c w s slot mask e code :=
  Through.comp
    (g := fun s => if mask &&& waveMandatory c s w ≠ 0#64 then { s with fail := code } else s)
    (through_ite (fun s => mask &&& waveMandatory c s w ≠ 0#64) (fun _ => ⟨rfl, rfl, rfl⟩) through_id
      fun s => by rw [(modes_core hw s).2.2.2.1])
    ((through_mark mask e).comp
      (f := fun s => { s with slot := some { slot with got := slot.got ||| mask } })
      fun _ => ⟨rfl, rfl, rfl⟩)

theorem through_wave {f : SlotRec → Wave → St → St}
    (hf : ∀ slot, ∀ w ∈ c.waves, Through c (f slot w)) :
    Through c fun s => match s.slot, currentWave c s with
      | some slot, some w => f slot w s
      | _, _ => s := by
  intro s
  have hslot : (s.core c).slot = s.slot := rfl
  have hwave : currentWave c (s.core c) = currentWave c s := rfl
  simp only [hslot, hwave]
  cases s.slot with
  | none => exact ⟨rfl, rfl, rfl⟩
  | some slot =>
    cases hw : currentWave c s with
    | none => exact ⟨rfl, rfl, rfl⟩
    | some w => exact hf slot w (wave_mem hw) s

theorem through_skip (hdet : c.denyMode = .deterministic) (i : Index) (code : Code) :
    Through c fun s => skip c s i code :=
  through_wave fun slot w hw => through_ite (fun _ => !has w.all i ∨ has slot.got i) through_id
    ((through_settle hdet).comp ((through_countSilent hw slot (bit i)
        (if code = .failAbsent then .absent else .skipped) code).comp
      (f := fun s => { s with skipped := s.skipped ||| bit i }) fun _ => ⟨rfl, rfl, rfl⟩))
    fun _ => Iff.rfl

theorem through_failDeadline (hdet : c.denyMode = .deterministic) (slot : SlotRec) :
    Through c fun s => failDeadline c s slot := by
  have hfail : Through c fun s => resume c { s with fail := .failTimeout } :=
    (through_resume hdet).comp (f := fun s => { s with fail := .failTimeout }) fun _ => ⟨rfl, rfl, rfl⟩
  exact through_option (currentWave c) (fun s w h => by simp only [failDeadline, h])
    (fun s h => by simp only [failDeadline, h])
    (fun _ w hw => through_ite
      (fun s => slot.got &&& waveMandatory c s w = waveMandatory c s w) (through_resume hdet) hfail
      fun s => by rw [(modes_core (wave_mem hw) s).2.2.2.1])
    hfail fun _ => rfl

/-- The deadline fails the phase or takes the wave as it is. -/
theorem through_onDeadline (hdet : c.denyMode = .deterministic) (now : ℕ) :
    Through c fun s => onDeadline c s now := by
  have hexpire : ∀ slot, Through c fun s => expire c s slot now := fun slot =>
    through_option (currentWave c) (fun s w h => by simp only [expire, h]; rfl)
      (fun s h => by simp only [expire, h])
      (fun _ w hw => through_ite (fun _ => expired c slot now = 0#64) through_id
        ((through_settle hdet).comp
          (through_countSilent (wave_mem hw) slot (expired c slot now) .timeout .failTimeout))
        fun _ => Iff.rfl)
      (through_failDeadline hdet slot) fun _ => rfl
  exact through_slot fun slot => through_ite (fun s => (!s.waiting) = true) through_id
    (through_ite (fun s => 0 < Machine.signed ((s.due : ℤ) - now)) (hexpire slot)
      (through_failDeadline hdet slot) fun _ => Iff.rfl)
    fun _ => Iff.rfl

/-- An inspector that the bus reports absent is skipped, unless its message goes out once more. -/
theorem through_busAbsent (hdet : c.denyMode = .deterministic) (i : Index) (sent : Bool) :
    Through c fun s => busAbsent c s i sent := by
  intro s
  have hskip := fun code => through_skip hdet i code
  have hskip' : ∀ code, Through c fun s =>
      skip c { s with personal := s.personal &&& ~~~bit i } i code := fun code =>
    (hskip code).comp (f := fun s => { s with personal := s.personal &&& ~~~bit i })
      fun _ => ⟨rfl, rfl, rfl⟩
  have hper : (s.core c).personal = s.personal ∧ (s.core c).got = s.got := ⟨rfl, rfl⟩
  unfold busAbsent
  simp only [hper.1, hper.2]
  split
  · exact ⟨rfl, rfl, rfl⟩
  · split
    · exact hskip .failAbsent s
    · split
      · split
        · exact hskip' .failAbsent s
        · split
          · exact ⟨rfl, rfl, rfl⟩
          · exact hskip' .failBus s
      · exact hskip' .failAbsent s

theorem through_omitMask (mask : Mask) (e : Entry) : Through c fun s => omitMask s mask e :=
  (through_mark mask e).comp (Through.comp
    (g := fun s => { s with slot := s.slot.map fun slot => { slot with got := slot.got ||| mask } })
    (fun _ => ⟨rfl, rfl, rfl⟩)
    (through_ite (fun _ => e = .skipped) (f := fun s => { s with skipped := s.skipped ||| mask })
      (g := fun s => { s with controlled := s.controlled ||| mask })
      (fun _ => ⟨rfl, rfl, rfl⟩) (fun _ => ⟨rfl, rfl, rfl⟩) fun _ => Iff.rfl))

theorem through_omitOpen (mask : Mask) (e : Entry) : Through c fun s => omitOpen s mask e :=
  through_option St.slot (fun s slot h => by simp only [omitOpen, h, id])
    (fun s h => by simp only [omitOpen, h, id])
    (fun _ slot _ => through_ite (fun _ => mask &&& ~~~slot.got ≠ 0#64)
      (through_omitMask (mask &&& ~~~slot.got) e) through_id fun _ => Iff.rfl)
    through_id fun _ => rfl

theorem through_omitted {w : Wave} (hw : w ∈ c.waves) : Through c fun s => omitted c s w := by
  intro s
  obtain ⟨h₁, h₂, h₃⟩ := through_omitOpen (c := c) (c.condOff &&& w.all) .skipped s
  have hoff : waveOff c (omitOpen (s.core c) (c.condOff &&& w.all) .skipped) w =
      waveOff c (omitOpen s (c.condOff &&& w.all) .skipped) w := by
    simp only [← h₁]
    exact (modes_core hw _).1
  obtain ⟨g₁, g₂, g₃⟩ := through_omitOpen (c := c)
    (waveOff c (omitOpen s (c.condOff &&& w.all) .skipped) w) .off
    (omitOpen s (c.condOff &&& w.all) .skipped)
  simp only [omitted]
  rw [hoff]
  exact ⟨g₁.trans (by rw [h₁]), g₂.trans h₂, g₃.trans h₃⟩

theorem through_awaiting {w : Wave} (hw : w ∈ c.waves) (now : ℕ) :
    Through c fun s => awaiting c s w now :=
  Through.comp
    (g := fun s => { s with
      wavePublished := now
      slot := s.slot.map fun slot => { slot with
        awaited := (waveMandatory c s w ||| wavePassive c s w) &&& ~~~slot.got } })
    (fun s => ⟨by simp only [(modes_core hw s).2.2.2.1, (modes_core hw s).2.1]; rfl, rfl, rfl⟩)
    ((through_omitted hw).comp
      (f := fun s => { s with slot := some ⟨s.wave, 0#64, 0#64, 0#64, now⟩ }) fun _ => ⟨rfl, rfl, rfl⟩)

/-- The loop of a publication sends, omits and counts by the modes of the inspectors alone. -/
theorem publishLoop_core (hdet : c.denyMode = .deterministic) (io : StartIo) (is : List Index) :
    ∀ n s, publishLoop c io is n (s.core c) =
        ((publishLoop c io is n s).1, (publishLoop c io is n s).2.core c) ∧
      (publishLoop c io is n s).2.actions = s.actions ∧
      (publishLoop c io is n s).2.score = s.score := by
  induction is with
  | nil => intro n s; exact ⟨rfl, rfl, rfl⟩
  | cons i is ih =>
    intro n s
    simp only [publishLoop]
    split
    · exact ih n s
    split
    · obtain ⟨h₁, h₂, h₃⟩ := through_skip hdet i .failTimeout
        { s with published := s.published ||| bit i }
      obtain ⟨g₁, g₂, g₃⟩ :=
        ih n (skip c { s with published := s.published ||| bit i } i .failTimeout)
      refine ⟨?_, g₂.trans h₂, g₃.trans h₃⟩
      rw [h₁] at g₁
      exact g₁
    split
    · exact ⟨rfl, rfl, rfl⟩
    · exact ih (n + 1) { s with
        published := s.published ||| bit i
        personal := if io.personal i then s.personal ||| bit i else s.personal }

/-- So does the publication as a whole, and its answer is the same. -/
theorem publishWave_core (hdet : c.denyMode = .deterministic) (io : StartIo) (s : St) :
    publishWave c (s.core c) io =
        ((publishWave c s io).1, (publishWave c s io).2.core c) ∧
      (publishWave c s io).2.actions = s.actions ∧ (publishWave c s io).2.score = s.score := by
  have hwave : currentWave c (s.core c) = currentWave c s := rfl
  unfold publishWave
  rw [hwave]
  cases hcur : currentWave c s with
  | none => exact ⟨rfl, rfl, rfl⟩
  | some w =>
    have hw := wave_mem hcur
    obtain ⟨h₁, h₂, h₃⟩ := through_awaiting (c := c) hw io.now s
    simp only at h₁ h₂ h₃
    simp only
    rw [← h₁]
    have hgot : ((awaiting c s w io.now).core c).slotGot = (awaiting c s w io.now).slotGot := rfl
    rw [hgot]
    obtain ⟨g₁, g₂, g₃⟩ := publishLoop_core hdet io ((List.finRange 64).filter fun i =>
      has (w.all &&& ~~~(awaiting c s w io.now).slotGot) i) 0 (awaiting c s w io.now)
    rw [g₁]
    generalize publishLoop c io _ 0 (awaiting c s w io.now) = x at g₂ g₃ ⊢
    obtain ⟨_ | n, t⟩ := x
    · exact ⟨rfl, g₂.trans h₂, g₃.trans h₃⟩
    · have hmand : waveMandatory c (t.core c) w = waveMandatory c t w :=
        (modes_core hw t).2.2.2.1
      refine ⟨?_, g₂.trans h₂, g₃.trans h₃⟩
      simp only [hmand]
      rfl

/-- What `waveStart` does with the result of the publication. -/
def afterPublish (c : Conf) (sent : Bool) (s : St) : St :=
  if sent then
    match s.slot with
    | none => s
    | some slot =>
      if waveClosed slot then endWave c s slot else { s with state := .waiting, waiting := true }
  else startFailed s .failBus

theorem through_afterPublish (hdet : c.denyMode = .deterministic) (sent : Bool) :
    Through c (afterPublish c sent) :=
  through_ite (fun _ => sent = true)
    (through_slot fun slot => through_ite (fun _ => waveClosed slot) (through_endWave hdet slot)
      (g := fun s => { s with state := .waiting, waiting := true })
      (fun _ => ⟨rfl, rfl, rfl⟩) fun _ => Iff.rfl)
    (g := fun s => startFailed s .failBus) (fun _ => ⟨rfl, rfl, rfl⟩) fun _ => Iff.rfl

/-- The start of a wave whose body is at hand publishes it and goes on from there. -/
theorem waveStart_ready {s : St} {io : StartIo} (h : io.prepare = .ready) :
    waveStart c s io = afterPublish c
      (publishWave c { s with due := if s.due = 0 then io.now + c.deadline else s.due } io).1
      (publishWave c { s with due := if s.due = 0 then io.now + c.deadline else s.due } io).2 := by
  simp only [waveStart, h]
  generalize publishWave c _ io = x
  obtain ⟨_ | _, t⟩ := x
  · rfl
  · rfl

theorem through_waveStart (hdet : c.denyMode = .deterministic) (io : StartIo) :
    Through c fun s => waveStart c s io := by
  intro s
  cases h : io.prepare with
  | needBody => unfold waveStart; rw [h]; exact ⟨rfl, rfl, rfl⟩
  | placingMeta => unfold waveStart; rw [h]; exact ⟨rfl, rfl, rfl⟩
  | slotBusy => unfold waveStart; rw [h]; exact ⟨rfl, rfl, rfl⟩
  | placeFailed => unfold waveStart; rw [h]; exact ⟨rfl, rfl, rfl⟩
  | ready =>
    obtain ⟨h₁, h₂, h₃⟩ := publishWave_core hdet io
      { s with due := if s.due = 0 then io.now + c.deadline else s.due }
    simp only [waveStart_ready h]
    obtain ⟨g₁, g₂, g₃⟩ := through_afterPublish hdet
      (publishWave c { s with due := if s.due = 0 then io.now + c.deadline else s.due } io).1
      (publishWave c { s with due := if s.due = 0 then io.now + c.deadline else s.due } io).2
    refine ⟨g₁.trans ?_, g₂.trans h₂, g₃.trans h₃⟩
    exact (congrArg (fun x => afterPublish c x.1 x.2) h₁).symm

/-- Every event but a reply works on the core alone. -/
theorem through_step (hdet : c.denyMode = .deterministic) {e : Event}
    (he : ∀ i r now, e ≠ .reply i r now) : Through c fun s => step c s e := by
  cases e with
  | start io =>
    exact through_ite (fun s => s.state = .nextWave) (through_waveStart hdet io) through_id
      fun _ => Iff.rfl
  | resumed ok =>
    exact through_ite (fun s => s.state = .needBody ∨ s.state = .placingMeta)
      (through_ite (fun _ => ok = true) (f := fun s => { s with state := .nextWave })
        (g := fun s => startFailed s .failBody) (fun _ => ⟨rfl, rfl, rfl⟩) (fun _ => ⟨rfl, rfl, rfl⟩)
        fun _ => Iff.rfl)
      through_id fun _ => Iff.rfl
  | reply i r now => exact absurd rfl (he i r now)
  | absent i sent =>
    exact through_ite (fun s => s.waiting = true) (through_busAbsent hdet i sent) through_id
      fun _ => Iff.rfl
  | timer now => exact through_onDeadline hdet now

end Through

/-! ### Replies -/

/-- Two states of one view in which the entry of `i` has one score as far as scores count. -/
structure Close (c : Conf) (i : Index) (s t : St) : Prop where
  core : s.core c = t.core c
  keys : keys s.actions = keys t.actions
  length : s.actions.length = t.actions.length
  own : 0 < c.scoreDeny → (s.replies i).score = (t.replies i).score

section Close

variable {c : Conf} {i : Index} {s t : St}

/-- With the keys, the surplus of a view gives the length of the list. -/
theorem view_eq_iff : s.view c = t.view c ↔ s.core c = t.core c ∧
    keys s.actions = keys t.actions ∧ s.actions.length = t.actions.length := by
  unfold St.view
  constructor
  · intro h
    injection h with h₁ h₂ h₃
    rw [h₂] at h₃
    exact ⟨h₁, h₂, by omega⟩
  · rintro ⟨h₁, h₂, h₃⟩
    rw [h₁, h₂, h₃]

/-- States that are close are of one view. -/
theorem Close.view (h : Close c i s t) : s.view c = t.view c :=
  view_eq_iff.2 ⟨h.core, h.keys, h.length⟩

theorem Close.entry (h : Close c i s t) : (s.replies i).core = (t.replies i).core :=
  congrFun (congrArg St.replies h.core) i

theorem core_setReply (s : St) (i : Index) (r : Reply) :
    (s.setReply i r).core c = (s.core c).setReply i r.core := by
  have hrep : (fun j => (Function.update s.replies i r j).core) =
      Function.update (fun j => (s.replies j).core) i r.core := by
    funext j
    by_cases hj : j = i
    · subst hj
      simp
    · simp [Function.update_of_ne hj]
  simp only [St.setReply, St.core, hrep]

/-- Where no threshold is set the core has no score to change. -/
theorem core_addScore (s : St) (r : Reply) : (s.addScore r).core c =
    (s.core c).recast (s.core c).ctl (if 0 < c.scoreDeny then (s.addScore r).score else 0) := by
  unfold St.addScore
  by_cases h₁ : r.score ≤ 0
  · simp only [if_pos h₁]
    rfl
  · cases r.passive <;> simp only [if_neg h₁, Bool.false_eq_true, if_true, if_false] <;> rfl

/-- Recording one reply in two states of one view makes their entries of it equal. -/
theorem close_recorded {slot : SlotRec} {w : Wave} {r : Reply} {now : ℕ}
    (hw : w ∈ c.waves) (h : s.view c = t.view c) :
    Close c i (recorded c s slot w i r now) (recorded c t slot w i r now) := by
  obtain ⟨hcore, hkeys, hlen⟩ := view_eq_iff.1 h
  obtain ⟨-, hpass, hvote, -⟩ := modes_phaseAll hw (congrFun (congrArg St.ctl hcore) c.phase)
  refine ⟨?_, hkeys, hlen, fun _ => by simp [recorded, St.setReply]⟩
  unfold recorded
  rw [core_setReply, core_setReply, hpass, hvote]
  have hgot : ({ s with slot := some { slot with got := slot.got ||| bit i }, got := s.got ||| bit i }
      : St).core c = { t with slot := some { slot with got := slot.got ||| bit i }
                              got := t.got ||| bit i }.core c := by
    change ({ s.core c with slot := some { slot with got := slot.got ||| bit i }
                            got := (s.core c).got ||| bit i } : St) =
      { t.core c with slot := some { slot with got := slot.got ||| bit i }
                      got := (t.core c).got ||| bit i }
    rw [hcore]
  rw [hgot]

/-- Accounting adds the same to the scores of both. -/
theorem close_account (h : Close c i s t) : Close c i (account c s i) (account c t i) := by
  have hverd : (s.replies i).verdict = (t.replies i).verdict :=
    (congrArg Reply.verdict h.entry :)
  have hvote : (s.replies i).votes = (t.replies i).votes := (congrArg Reply.votes h.entry :)
  have hpass : (s.replies i).passive = (t.replies i).passive :=
    (congrArg Reply.passive h.entry :)
  have hset : ∀ (r r' : Reply) (m n : ℕ), r.core = r'.core →
      ({ s with order := m }.setReply i r).core c = ({ t with order := n }.setReply i r').core c := by
    intro r r' m n hr
    rw [core_setReply, core_setReply, hr]
    exact congrArg (fun x => St.setReply x i r'.core) h.core
  have hvotes : ∀ (x : St) o, Reply.votes { x.replies i with order := o } = (x.replies i).votes :=
    fun _ _ => rfl
  have hrest : ∀ x : St, (account c x i).actions = x.actions := by
    intro x
    unfold account
    simp only
    split_ifs <;> first | rfl | exact (addScore_frame _ _).2.2
  have hadd : ∀ (x y : St) (r r' : Reply), x.core c = y.core c → r.passive = r'.passive →
      (0 < c.scoreDeny → r.score = r'.score) → (x.addScore r).core c = (y.addScore r').core c := by
    intro x y r r' hxy hp hsc
    rw [core_addScore, core_addScore, addScore_score, addScore_score, hxy, hp]
    by_cases hd : 0 < c.scoreDeny
    · have hscore : x.score = y.score := by simpa [St.core, hd] using congrArg St.score hxy
      rw [hsc hd, hscore]
    · simp only [hd, if_false]
  suffices hmain : (account c s i).core c = (account c t i).core c ∧ (0 < c.scoreDeny →
      ((account c s i).replies i).score = ((account c t i).replies i).score) by
    refine ⟨hmain.1, ?_, ?_, hmain.2⟩
    · rw [hrest, hrest]
      exact h.keys
    · rw [hrest, hrest]
      exact h.length
  unfold account
  simp only [hvotes]
  by_cases hA : (t.replies i).verdict = .redirect ∧ c.phase ≠ .request
  · rw [if_pos (by rwa [hverd]), if_pos hA]
    refine ⟨hset _ _ _ _ (congrArg (fun r : Reply => { r with verdict := .allow }) h.entry), ?_⟩
    simpa [St.setReply] using h.own
  rw [if_neg (by rwa [hverd]), if_neg hA]
  by_cases hB : (t.replies i).votes = true
  · rw [if_pos (by rwa [hvote]), if_pos hB]
    refine ⟨hadd _ _ _ _ (hset _ _ _ _ h.entry) hpass fun _ => rfl, ?_⟩
    simp [St.setReply, (addScore_frame _ _).2.1]
  rw [if_neg (by rwa [hvote]), if_neg hB]
  by_cases hC : (t.replies i).verdict = .score
  · rw [if_pos (by rwa [hverd]), if_pos hC]
    refine ⟨hadd _ _ _ _ (hset _ _ _ _ h.entry) hpass h.own, ?_⟩
    simpa [St.setReply, (addScore_frame _ _).2.1] using h.own
  · rw [if_neg (by rwa [hverd]), if_neg hC]
    refine ⟨hset _ _ _ _ h.entry, ?_⟩
    simpa [St.setReply] using h.own

/-- An action needs a key that is there or a free place, and its effect must not be refused. -/
theorem actionMerge_eq (c : Conf) (s : St) (a : Action) : actionMerge c s a =
    if a.key ∉ keys s.actions ∧ c.actionsMax ≤ s.actions.length then s
    else match actionApply c s a with
      | none => s
      | some s' => { s' with actions := put s.actions a } := by
  have hfound : s.actions.findIdx (Action.sameKey a) = s.actions.length ↔
      a.key ∉ keys s.actions := by
    rw [← found_lt_iff]
    have := @List.findIdx_le_length _ (Action.sameKey a) s.actions
    omega
  unfold actionMerge
  simp only [hfound]
  split
  · rfl
  · cases happ : actionApply c s a with
    | none => rfl
    | some s' =>
      simp only [actionApply_actions happ]
      rfl

theorem core_auditOvrApply {s' : St} {a : Action} (h : auditOvrApply c s a = some s') :
    s'.core c = s.core c ∧ s'.replies = s.replies := by
  unfold auditOvrApply at h
  simp only at h
  split at h
  · cases h
  · cases h
    split <;> exact ⟨rfl, rfl⟩

theorem core_markersAdd (s : St) (a : Action) :
    (markersAdd s a).core c = s.core c ∧ (markersAdd s a).replies = s.replies := by
  unfold markersAdd
  split <;> exact ⟨rfl, rfl⟩

/-- A score action of the inspector itself is bounded by its own score, which both states have. -/
theorem close_scoreApply {a : Action} (h : Close c i s t) (hi : a.sender = i) :
    scoreApply c s a = none ∧ scoreApply c t a = none ∨
      ∃ s' t', scoreApply c s a = some s' ∧ scoreApply c t a = some t' ∧
        s'.core c = t'.core c ∧
        (0 < c.scoreDeny → (s'.replies i).score = (t'.replies i).score) := by
  subst hi
  unfold scoreApply
  split
  · exact Or.inl ⟨rfl, rfl⟩
  split
  · exact Or.inl ⟨rfl, rfl⟩
  simp only
  refine Or.inr ⟨_, _, rfl, rfl, ?_, fun hd => ?_⟩
  · rw [core_setReply, core_setReply]
    have hscore : ∀ x y : ℤ, (0 < c.scoreDeny → x = y) →
        ({ s with score := x } : St).core c = { t with score := y }.core c := by
      intro x y hxy
      change ({ s.core c with score := if 0 < c.scoreDeny then x else 0 } : St) =
        { t.core c with score := if 0 < c.scoreDeny then y else 0 }
      rw [h.core]
      by_cases hd : 0 < c.scoreDeny
      · rw [hxy hd]
      · simp only [if_neg hd]
    rw [hscore _ _ fun hd => ?_]
    · exact congrArg (St.setReply _ a.sender) h.entry
    · have hs : s.score = t.score := by
        simpa [St.core, hd] using congrArg St.score h.core
      rw [h.own hd, hs]
  · have hs : s.score = t.score := by
      simpa [St.core, hd] using congrArg St.score h.core
    simp only [St.setReply, Function.update_self]
    rw [h.own hd, hs]

theorem controlSet_flags (x : Control) (v : Verb) (i k : Index) :
    (controlSet x v (bit i)).flags k = if i = k then
      (decide (v = .active), decide (v = .passive), decide (v = .off), decide (v = .vote))
      else x.flags k := by
  unfold Control.flags
  split_ifs with h
  · subst h
    obtain ⟨h₁, h₂, h₃, h₄⟩ := controlSet_self x v i
    rw [h₁, h₂, h₃, h₄]
  · obtain ⟨h₁, h₂, h₃, h₄⟩ := controlSet_other x v h
    rw [h₁, h₂, h₃, h₄]

theorem controlSet_on {x y : Control} {m : Mask} (v : Verb) (i : Index) (h : x.on m = y.on m) :
    (controlSet x v (bit i)).on m = (controlSet y v (bit i)).on m := by
  refine Control.on_eq_iff.2 fun k hk => ?_
  rw [controlSet_flags, controlSet_flags, Control.on_eq_iff.1 h k hk]

/-- Whether an action is refused does not depend on the state. -/
theorem close_actionApply {a : Action} (h : Close c i s t) (hi : a.sender = i) :
    actionApply c s a = none ∧ actionApply c t a = none ∨
      ∃ s' t', actionApply c s a = some s' ∧ actionApply c t a = some t' ∧
        s'.core c = t'.core c ∧
        (0 < c.scoreDeny → (s'.replies i).score = (t'.replies i).score) := by
  unfold actionApply
  split
  · unfold controlApply
    split
    · exact Or.inl ⟨rfl, rfl⟩
    rename_i target htarget
    split
    · exact Or.inl ⟨rfl, rfl⟩
    split
    · exact Or.inl ⟨rfl, rfl⟩
    split
    · exact Or.inl ⟨rfl, rfl⟩
    · refine Or.inr ⟨_, _, rfl, rfl, ?_, h.own⟩
      have hctl : (if a.addresses c.phase then controlSet (s.ctl c.phase) a.verb (bit target)
            else s.ctl c.phase).on (phaseAll c) =
          (if a.addresses c.phase then controlSet (t.ctl c.phase) a.verb (bit target)
            else t.ctl c.phase).on (phaseAll c) := by
        have hon : (s.ctl c.phase).on (phaseAll c) = (t.ctl c.phase).on (phaseAll c) :=
          congrFun (congrArg St.ctl h.core) c.phase
        split_ifs
        · exact controlSet_on _ _ hon
        · exact hon
      exact (congrArg₂ (fun (x : St) (ctl : Control) => { x with ctl := fun _ => ctl }) h.core hctl :)
  split
  · cases hs : auditOvrApply c s a with
    | none =>
      have ht : auditOvrApply c t a = none := by
        unfold auditOvrApply at hs ⊢
        simp only at hs ⊢
        split_ifs at hs
        rw [if_pos ‹_›]
      exact Or.inl ⟨rfl, ht⟩
    | some s' =>
      obtain ⟨t', ht⟩ : ∃ t', auditOvrApply c t a = some t' := by
        unfold auditOvrApply at hs ⊢
        simp only at hs ⊢
        split at hs
        · cases hs
        · rw [if_neg ‹_›]
          exact ⟨_, rfl⟩
      obtain ⟨h₁, h₂⟩ := core_auditOvrApply hs
      obtain ⟨h₃, h₄⟩ := core_auditOvrApply ht
      exact Or.inr ⟨s', t', rfl, ht, by rw [h₁, h₃, h.core], by rw [h₂, h₄]; exact h.own⟩
  split
  · obtain ⟨h₁, h₂⟩ := core_markersAdd (c := c) s a
    obtain ⟨h₃, h₄⟩ := core_markersAdd (c := c) t a
    exact Or.inr ⟨_, _, rfl, rfl, by rw [h₁, h₃, h.core], by rw [h₂, h₄]; exact h.own⟩
  split
  · exact close_scoreApply h hi
  · exact Or.inr ⟨s, t, rfl, rfl, h.core, h.own⟩

/-- Merging one action keeps states close. -/
theorem close_actionMerge {a : Action} (h : Close c i s t) (hi : a.sender = i) :
    Close c i (actionMerge c s a) (actionMerge c t a) := by
  rw [actionMerge_eq, actionMerge_eq, h.keys, h.length]
  split
  · exact h
  rcases close_actionApply h hi with ⟨hs, ht⟩ | ⟨s', t', hs, ht, hcore, hown⟩
  · rw [hs, ht]
    exact h
  · rw [hs, ht]
    have hkeys : keys (put s.actions a) = keys (put t.actions a) := by
      rw [keys_put, keys_put, h.keys]
    refine ⟨hcore, hkeys, ?_, hown⟩
    have hs := put_length s.actions a
    have ht := put_length t.actions a
    rw [hkeys, h.length, h.keys] at hs
    simp only
    omega

/-- **A reply** to two states of one view leaves them at one view. -/
theorem accept_view {slot : SlotRec} {w : Wave} {r : Reply} {now : ℕ} (hw : w ∈ c.waves)
    (h : s.view c = t.view c) :
    (accept c s slot w i r now).view c = (accept c t slot w i r now).view c := by
  have hacc := close_account (@close_recorded _ i _ _ slot w r now hw h)
  have hmerge : ∀ (l : List Action) (p : Bool) (x y : St), Close c i x y → Close c i
      (l.foldl (fun s a => actionMerge c s
        { a with sender := i, phase := c.phase, wave := slot.wave, passive := p }) x)
      (l.foldl (fun s a => actionMerge c s
        { a with sender := i, phase := c.phase, wave := slot.wave, passive := p }) y) := by
    intro l p
    induction l with
    | nil => exact fun x y hxy => hxy
    | cons a l ih =>
      intro x y hxy
      rw [List.foldl_cons, List.foldl_cons]
      exact ih _ _ (close_actionMerge hxy rfl)
  have hall : Close c i (actionsMerge c (account c (recorded c s slot w i r now) i) i slot.wave)
      (actionsMerge c (account c (recorded c t slot w i r now) i) i slot.wave) := by
    unfold actionsMerge
    simp only
    split
    · exact hacc
    · have hlist : ((account c (recorded c s slot w i r now) i).replies i).actions =
          ((account c (recorded c t slot w i r now) i).replies i).actions :=
        (congrArg Reply.actions hacc.entry :)
      have hpass : ((account c (recorded c s slot w i r now) i).replies i).passive =
          ((account c (recorded c t slot w i r now) i).replies i).passive :=
        (congrArg Reply.passive hacc.entry :)
      rw [hlist, hpass]
      exact hmerge _ _ _ _ hacc
  exact (Close.view (s := actionsMerge c (account c (recorded c s slot w i r now) i) i slot.wave)
    (t := actionsMerge c (account c (recorded c t slot w i r now) i) i slot.wave) hall :)

theorem view_gating (h : s.view c = t.view c) {w : Wave} (hw : w ∈ c.waves) :
    waveGating c s w = waveGating c t w :=
  (modes_phaseAll hw (congrFun (congrArg (fun v => v.core.ctl) h) c.phase)).2.2.2.2

/-- The part of `ngx_http_waf_on_reply` that follows the accounting. -/
theorem replyIn_view (hdet : c.denyMode = .deterministic) {slot : SlotRec} {w : Wave} {r : Reply}
    {now : ℕ} (hw : w ∈ c.waves) (h : s.view c = t.view c) :
    (replyIn c s slot w i r now).view c = (replyIn c t slot w i r now).view c := by
  unfold replyIn
  simp only [hdet, reduceCtorEq, false_and, if_false]
  split
  · exact h
  have hacc := @accept_view _ i _ _ slot w r now hw h
  rw [view_gating hacc hw]
  split
  · split
    · exact ((through_resume hdet).comp (f := fun s => { s with fail := r.failCode })
        fun _ => ⟨rfl, rfl, rfl⟩).view hacc
    · exact (through_settle hdet).view hacc
  split
  · exact ((through_settle hdet).comp (f := fun s => { s with
        slot := s.slot.map fun slot => { slot with denied := slot.denied ||| bit i } })
      fun _ => ⟨rfl, rfl, rfl⟩).view hacc
  · exact (through_settle hdet).view hacc

end Close

/-! ### Runs -/

section Runs

variable {c : Conf} {s t : St}

/-- **One step.** Two states of one view stay of one view under every event. -/
theorem step_view (hdet : c.denyMode = .deterministic) (h : s.view c = t.view c) (e : Event) :
    (step c s e).view c = (step c t e).view c := by
  by_cases he : ∃ i r now, e = .reply i r now
  · obtain ⟨i, r, now, rfl⟩ := he
    have hwait : s.waiting = t.waiting := congrArg (fun v => v.core.waiting) h
    have hslot : s.slot = t.slot := congrArg (fun v => v.core.slot) h
    have hwave : currentWave c s = currentWave c t :=
      congrArg (fun v => currentWave c v.core) h
    simp only [step, hwait]
    split
    · unfold onReply
      rw [hslot, hwave]
      split
      · next hw => exact replyIn_view hdet (wave_mem hw) h
      · exact h
    · exact h
  · push Not at he
    exact (through_step hdet he).view h

theorem run_view (hdet : c.denyMode = .deterministic) (h : s.view c = t.view c)
    (es : List Event) : (runFrom (step c) s es).view c = (runFrom (step c) t es).view c := by
  induction es generalizing s t with
  | nil => exact h
  | cons e es ih => exact ih (step_view hdet h e)

end Runs

end Waves
