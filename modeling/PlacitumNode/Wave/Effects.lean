import PlacitumNode.Wave.Phase

/-!
# What the steps of a phase can change

Each function of the phase gets one lemma that says what it leaves alone, so that the invariants
of the phase never unfold it.

* `Frame i`: the state outside the modes and the accounts, and every entry but that of `i`, stay;
* `waveGating_actionMerge`, `waveMandatory_…`: only a control action changes a mode;
* `pick_eq_none_iff`, `pick_some`: what the decision finds;
* `conclude_*`, `rewriteSettle_*`, `endWave_cases`, `settle_cases`: the end of a wave.
-/

namespace Waves

open Flags Octets Slots

/-! ### Accounting a reply -/

/-- From `s` to `s'` only modes, accounts and lists change, and of the entries only the score and
the order of `i`'s. -/
structure Frame (i : Index) (s s' : St) : Prop where
  state : s'.state = s.state
  waiting : s'.waiting = s.waiting
  wave : s'.wave = s.wave
  slot : s'.slot = s.slot
  fail : s'.fail = s.fail
  live : s'.live = s.live
  locator : s'.locator = s.locator
  rewriteDepth : s'.rewriteDepth = s.rewriteDepth
  other : ∀ j, j ≠ i → s'.replies j = s.replies j
  own : ∃ x o, s'.replies i = { s.replies i with score := x, order := o }

theorem Frame.refl (i : Index) (s : St) : Frame i s s :=
  ⟨rfl, rfl, rfl, rfl, rfl, rfl, rfl, rfl, fun _ _ => rfl, _, _, rfl⟩

theorem Frame.trans {i : Index} {s₁ s₂ s₃ : St} (h : Frame i s₁ s₂) (h' : Frame i s₂ s₃) :
    Frame i s₁ s₃ := by
  obtain ⟨x, o, hown⟩ := h.own
  obtain ⟨x', o', hown'⟩ := h'.own
  refine ⟨h'.state.trans h.state, h'.waiting.trans h.waiting, h'.wave.trans h.wave,
    h'.slot.trans h.slot, h'.fail.trans h.fail, h'.live.trans h.live,
    h'.locator.trans h.locator, h'.rewriteDepth.trans h.rewriteDepth,
    fun j hj => (h'.other j hj).trans (h.other j hj), x', o', ?_⟩
  rw [hown', hown]

theorem frame_setReply {i : Index} {s : St} {x : ℤ} {o : ℕ} :
    Frame i s (s.setReply i { s.replies i with score := x, order := o }) := by
  refine ⟨rfl, rfl, rfl, rfl, rfl, rfl, rfl, rfl, fun j hj => ?_, x, o, ?_⟩
  · exact Function.update_of_ne hj _ _
  · exact Function.update_self _ _ _

/-- Changes of the accounts, the modes and the lists alone. -/
theorem frame_lists {i : Index} {s s' : St} (h : Frame i s s') (order : ℕ) (score shadow : ℤ)
    (ctl connCtl : Phase → Control) (actions : List Action) (markers : List Bytes)
    (sessions : List Session) (ovrRequest ovrResponse : AuditOvr) :
    Frame i s { s' with
      order := order, score := score, shadow := shadow, ctl := ctl, connCtl := connCtl
      actions := actions, markers := markers, sessions := sessions
      ovrRequest := ovrRequest, ovrResponse := ovrResponse } :=
  ⟨h.state, h.waiting, h.wave, h.slot, h.fail, h.live, h.locator, h.rewriteDepth, h.other, h.own⟩

theorem frame_controlApply {c : Conf} {i : Index} {s s' : St} {a : Action}
    (h : controlApply c s a = some s') : Frame i s s' := by
  unfold controlApply at h
  split at h
  · cases h
  · split_ifs at h <;> cases h
    all_goals exact frame_lists (Frame.refl i s) _ _ _ _ _ _ _ _ _ _

theorem frame_auditOvrApply {c : Conf} {i : Index} {s s' : St} {a : Action}
    (h : auditOvrApply c s a = some s') : Frame i s s' := by
  unfold auditOvrApply at h
  simp only at h
  split_ifs at h <;> cases h
  all_goals exact frame_lists (Frame.refl i s) _ _ _ _ _ _ _ _ _ _

theorem frame_markersAdd {i : Index} {s : St} {a : Action} : Frame i s (markersAdd s a) := by
  unfold markersAdd
  split_ifs
  · exact Frame.refl i s
  · exact frame_lists (Frame.refl i s) _ _ _ _ _ _ _ _ _ _

theorem frame_scoreApply {c : Conf} {s s' : St} {a : Action} (h : scoreApply c s a = some s') :
    Frame a.sender s s' := by
  unfold scoreApply at h
  simp only at h
  split_ifs at h
  cases h
  exact (frame_lists (Frame.refl a.sender s) _ _ _ _ _ _ _ _ _ _).trans frame_setReply

theorem frame_actionApply {c : Conf} {s s' : St} {a : Action} (h : actionApply c s a = some s') :
    Frame a.sender s s' := by
  unfold actionApply at h
  split_ifs at h
  · exact frame_controlApply h
  · exact frame_auditOvrApply h
  · cases h
    exact frame_markersAdd
  · exact frame_scoreApply h
  · cases h
    exact Frame.refl _ _

theorem frame_actionMerge (c : Conf) (s : St) (a : Action) :
    Frame a.sender s (actionMerge c s a) := by
  unfold actionMerge
  simp only
  split
  · exact Frame.refl _ _
  · split
    · exact Frame.refl _ _
    · rename_i s' h
      exact frame_lists (frame_actionApply h) _ _ _ _ _ _ _ _ _ _

theorem frame_actionsMerge (c : Conf) (s : St) (i : Index) (wave : ℕ) :
    Frame i s (actionsMerge c s i wave) := by
  unfold actionsMerge
  simp only
  split_ifs
  · exact Frame.refl i s
  · generalize (s.replies i).actions = l
    generalize (s.replies i).passive = p
    induction l generalizing s with
    | nil => exact Frame.refl i s
    | cons a l ih =>
      rw [List.foldl_cons]
      exact (frame_actionMerge c s { a with
        sender := i, phase := c.phase, wave := wave, passive := p }).trans (ih _)

theorem frame_sessionsMerge (s : St) (i : Index) : Frame i s (sessionsMerge s i) :=
  frame_lists (Frame.refl i s) _ _ _ _ _ _ _ _ _ _

theorem frame_addScore {i : Index} {s s' : St} (h : Frame i s s') (r : Reply) :
    Frame i s (s'.addScore r) := by
  unfold St.addScore
  split_ifs
  · exact h
  · exact frame_lists h _ _ _ _ _ _ _ _ _ _
  · exact frame_lists h _ _ _ _ _ _ _ _ _ _

/-- Accounting changes the entry of the inspector only in its score and order, redirects outside
the request phase apart. -/
theorem frame_account {c : Conf} {s : St} {i : Index}
    (h : (s.replies i).verdict = .redirect → c.phase = .request) : Frame i s (account c s i) := by
  unfold account
  simp only
  have hred : ¬((s.replies i).verdict = .redirect ∧ c.phase ≠ .request) := fun hx => hx.2 (h hx.1)
  rw [if_neg hred]
  have hset : ∀ x : ℤ, Frame i s
      ({ s with order := s.order + 1 }.setReply i
        { s.replies i with order := s.order + 1, score := x }) := fun x =>
    (frame_lists (Frame.refl i s) _ _ _ _ _ _ _ _ _ _).trans frame_setReply
  split_ifs
  · exact frame_addScore (hset 100) _
  · exact frame_addScore (hset (s.replies i).score) _
  · exact hset (s.replies i).score

/-! ### Modes -/

section Modes

variable {c : Conf} {s s' : St} {w : Wave} {i : Index}

/-- The modes are a function of the control masks of the phase. -/
theorem modes_congr (h : s'.ctl c.phase = s.ctl c.phase) :
    wavePassive c s' w = wavePassive c s w ∧ waveVote c s' w = waveVote c s w ∧
      waveMandatory c s' w = waveMandatory c s w ∧ waveGating c s' w = waveGating c s w := by
  simp [waveGating, waveMandatory, wavePassive, waveVote, waveOff, h]

/-- The modes of an inspector are a function of its flags in the control masks. -/
theorem modes_congr_flag (ha : has (s'.ctl c.phase).active i = has (s.ctl c.phase).active i)
    (hp : has (s'.ctl c.phase).passive i = has (s.ctl c.phase).passive i)
    (ho : has (s'.ctl c.phase).off i = has (s.ctl c.phase).off i)
    (hv : has (s'.ctl c.phase).vote i = has (s.ctl c.phase).vote i) :
    has (wavePassive c s' w) i = has (wavePassive c s w) i ∧
      has (waveVote c s' w) i = has (waveVote c s w) i ∧
      has (waveMandatory c s' w) i = has (waveMandatory c s w) i ∧
      has (waveGating c s' w) i = has (waveGating c s w) i := by
  simp [waveGating, waveMandatory, wavePassive, waveVote, waveOff, ha, hp, ho, hv]

theorem gating_iff : has (waveGating c s w) i = true ↔
    has (waveMandatory c s w) i = true ∧ has (wavePassive c s w) i = false ∧
      has (waveVote c s w) i = false := by
  simp only [waveGating, waveMandatory, has_and, has_not, Bool.and_eq_true, Bool.not_eq_true']
  tauto

theorem controlSet_other (ctl : Control) (v : Verb) {j : Index} (h : i ≠ j) :
    has (controlSet ctl v (bit i)).active j = has ctl.active j ∧
      has (controlSet ctl v (bit i)).passive j = has ctl.passive j ∧
      has (controlSet ctl v (bit i)).off j = has ctl.off j ∧
      has (controlSet ctl v (bit i)).vote j = has ctl.vote j := by
  cases v <;> simp [controlSet, h]

/-- A control action leaves its addressee in exactly the mode it names. -/
theorem controlSet_self (ctl : Control) (v : Verb) (i : Index) :
    has (controlSet ctl v (bit i)).active i = decide (v = .active) ∧
      has (controlSet ctl v (bit i)).passive i = decide (v = .passive) ∧
      has (controlSet ctl v (bit i)).off i = decide (v = .off) ∧
      has (controlSet ctl v (bit i)).vote i = decide (v = .vote) := by
  cases v <;> simp [controlSet]

/-- The action is a control action on the inspector `i` in the phase `p`. -/
def Action.controls (a : Action) (p : Phase) (i : Index) : Prop :=
  a.verb.control = true ∧ a.addressee = some i ∧ a.addresses p = true

instance (a : Action) (p : Phase) (i : Index) : Decidable (a.controls p i) := by
  unfold Action.controls; infer_instance

/-- Merging an action changes the control masks of a phase only as a control action does. -/
theorem actionMerge_ctl (c : Conf) (s : St) (a : Action) (p : Phase) :
    (actionMerge c s a).ctl p = s.ctl p ∨
      ∃ i, a.controls p i ∧ (actionMerge c s a).ctl p = controlSet (s.ctl p) a.verb (bit i) := by
  unfold actionMerge
  simp only
  split
  · exact Or.inl rfl
  split
  · exact Or.inl rfl
  rename_i s' happ
  simp only
  unfold actionApply at happ
  split_ifs at happ with hctl
  · unfold controlApply at happ
    split at happ
    · cases happ
    rename_i target htarget
    split_ifs at happ <;> cases happ <;>
    · simp only
      by_cases hp : a.addresses p = true
      · exact Or.inr ⟨target, ⟨hctl, htarget, hp⟩, if_pos hp⟩
      · exact Or.inl (if_neg hp)
  · unfold auditOvrApply at happ
    simp only at happ
    split_ifs at happ <;> cases happ <;> exact Or.inl rfl
  · cases happ
    unfold markersAdd
    split_ifs <;> exact Or.inl rfl
  · unfold scoreApply at happ
    simp only at happ
    split_ifs at happ
    cases happ
    exact Or.inl rfl
  · cases happ
    exact Or.inl rfl

/-- The modes of an inspector no action controls stay. -/
theorem modes_actionMerge {a : Action} (h : ¬a.controls c.phase i) :
    has (wavePassive c (actionMerge c s a) w) i = has (wavePassive c s w) i ∧
      has (waveVote c (actionMerge c s a) w) i = has (waveVote c s w) i ∧
      has (waveMandatory c (actionMerge c s a) w) i = has (waveMandatory c s w) i ∧
      has (waveGating c (actionMerge c s a) w) i = has (waveGating c s w) i := by
  rcases actionMerge_ctl c s a c.phase with hc | ⟨j, hj, hc⟩
  · obtain ⟨h₁, h₂, h₃, h₄⟩ := modes_congr (w := w) hc
    exact ⟨by rw [h₁], by rw [h₂], by rw [h₃], by rw [h₄]⟩
  · have hji : j ≠ i := fun hx => h (hx ▸ hj)
    obtain ⟨h₁, h₂, h₃, h₄⟩ := controlSet_other (s.ctl c.phase) a.verb hji
    rw [← hc] at h₁ h₂ h₃ h₄
    exact modes_congr_flag h₁ h₂ h₃ h₄

/-- An inspector comes to gate the wave only by a control action that makes it active. -/
theorem gating_actionMerge {a : Action}
    (h : has (waveGating c (actionMerge c s a) w) i = true) :
    has (waveGating c s w) i = true ∨ a.controls c.phase i ∧ a.verb = .active := by
  by_cases ha : a.controls c.phase i
  · rcases actionMerge_ctl c s a c.phase with hc | ⟨j, hj, hc⟩
    · rw [(modes_congr hc).2.2.2] at h
      exact Or.inl h
    · obtain rfl : j = i := Option.some.inj (hj.2.1.symm.trans ha.2.1)
      refine Or.inr ⟨ha, ?_⟩
      have hv := ha.1
      obtain ⟨-, h₂, h₃, h₄⟩ := controlSet_self (s.ctl c.phase) a.verb j
      rw [← hc] at h₂ h₃ h₄
      simp only [waveGating, waveMandatory, wavePassive, waveVote, waveOff, has_and, has_or,
        has_not, h₂, h₃, h₄] at h
      cases hall : has w.all j <;> cases hverb : a.verb <;> simp_all [Verb.control]
  · rw [(modes_actionMerge ha).2.2.2] at h
    exact Or.inl h

/-- The actions of a reply that control the inspector `i` in the phase. -/
def Reply.controls (c : Conf) (r : Reply) (i : Index) : Prop :=
  ∃ a ∈ r.actions, a.controls c.phase i

instance (c : Conf) (r : Reply) (i : Index) : Decidable (r.controls c i) := by
  unfold Reply.controls; infer_instance

/-- A reply makes the inspector `i` active in the phase. -/
def Reply.activates (c : Conf) (r : Reply) (i : Index) : Prop :=
  ∃ a ∈ r.actions, a.controls c.phase i ∧ a.verb = .active

instance (c : Conf) (r : Reply) (i : Index) : Decidable (r.activates c i) := by
  unfold Reply.activates; infer_instance

theorem gating_actionsMerge {j : Index} {wave : ℕ}
    (h : has (waveGating c (actionsMerge c s j wave) w) i = true) :
    has (waveGating c s w) i = true ∨ (s.replies j).activates c i := by
  unfold actionsMerge at h
  simp only at h
  split_ifs at h
  · exact Or.inl h
  · unfold Reply.activates
    generalize (s.replies j).actions = l at h ⊢
    generalize (s.replies j).passive = p at h
    induction l generalizing s with
    | nil => exact Or.inl h
    | cons a l ih =>
      rcases ih h with hg | ⟨b, hb, hc⟩
      · rcases gating_actionMerge hg with hg | hc
        · exact Or.inl hg
        · exact Or.inr ⟨a, List.mem_cons_self, hc⟩
      · exact Or.inr ⟨b, List.mem_cons_of_mem a hb, hc⟩

theorem modes_actionsMerge {j : Index} {wave : ℕ} (h : ¬(s.replies j).controls c i) :
    has (wavePassive c (actionsMerge c s j wave) w) i = has (wavePassive c s w) i ∧
      has (waveVote c (actionsMerge c s j wave) w) i = has (waveVote c s w) i ∧
      has (waveMandatory c (actionsMerge c s j wave) w) i = has (waveMandatory c s w) i ∧
      has (waveGating c (actionsMerge c s j wave) w) i = has (waveGating c s w) i := by
  unfold actionsMerge
  simp only
  split_ifs
  · exact ⟨rfl, rfl, rfl, rfl⟩
  · unfold Reply.controls at h
    generalize (s.replies j).actions = l at h ⊢
    generalize (s.replies j).passive = p
    induction l generalizing s with
    | nil => exact ⟨rfl, rfl, rfl, rfl⟩
    | cons a l ih =>
      rw [List.foldl_cons]
      have ha : ¬a.controls c.phase i := fun hx => h ⟨a, List.mem_cons_self, hx⟩
      have hl : ¬∃ b ∈ l, b.controls c.phase i :=
        fun ⟨b, hb, hx⟩ => h ⟨b, List.mem_cons_of_mem a hb, hx⟩
      obtain ⟨h₁, h₂, h₃, h₄⟩ := ih (s := actionMerge c s { a with
        sender := j, phase := c.phase, wave := wave, passive := p }) hl
      obtain ⟨g₁, g₂, g₃, g₄⟩ := modes_actionMerge (c := c) (s := s) (w := w) (i := i)
        (a := { a with sender := j, phase := c.phase, wave := wave, passive := p }) ha
      exact ⟨h₁.trans g₁, h₂.trans g₂, h₃.trans g₃, h₄.trans g₄⟩

end Modes

/-! ### A reply is accepted -/

section Accept

variable {c : Conf} {s : St} {slot : SlotRec} {w : Wave} {i : Index} {r : Reply} {now : ℕ}

theorem addScore_frame (s : St) (r : Reply) :
    (s.addScore r).ctl = s.ctl ∧ (s.addScore r).replies = s.replies ∧
      (s.addScore r).actions = s.actions := by
  unfold St.addScore
  split_ifs <;> exact ⟨rfl, rfl, rfl⟩

theorem account_ctl (c : Conf) (s : St) (i : Index) : (account c s i).ctl = s.ctl := by
  unfold account
  simp only
  split_ifs <;> first | rfl | exact (addScore_frame _ _).1

theorem account_actions {c : Conf} {s : St} {i : Index} :
    ((account c s i).replies i).actions = (s.replies i).actions := by
  unfold account
  simp only
  split_ifs <;> simp [St.setReply, (addScore_frame _ _).2.1]

/-- Once the reply is recorded, accepting it changes only modes, accounts and lists. -/
theorem frame_accept (h : r.verdict = .redirect → c.phase = .request) :
    Frame i (recorded c s slot w i r now) (accept c s slot w i r now) := by
  unfold accept
  have hacc : Frame i (recorded c s slot w i r now) (account c (recorded c s slot w i r now) i) := by
    apply frame_account
    simpa [recorded, St.setReply] using h
  exact (hacc.trans (frame_actionsMerge _ _ _ _)).trans (frame_sessionsMerge _ _)

/-- The state between accounting and merging: the modes are still those before the reply. -/
theorem accounted_ctl :
    (account c (recorded c s slot w i r now) i).ctl c.phase = s.ctl c.phase := by
  rw [account_ctl]
  rfl

theorem accounted_actions :
    ((account c (recorded c s slot w i r now) i).replies i).actions = r.actions := by
  rw [account_actions]
  simp [recorded, St.setReply]

variable {j : Index}

/-- A reply makes an inspector gate the wave only by an action that makes it active. -/
theorem gating_accept (h : has (waveGating c (accept c s slot w i r now) w) j = true) :
    has (waveGating c s w) j = true ∨ r.activates c j := by
  have h' : has (waveGating c (actionsMerge c (account c (recorded c s slot w i r now) i) i
      slot.wave) w) j = true := h
  rcases gating_actionsMerge h' with hg | ha
  · rw [(modes_congr accounted_ctl).2.2.2] at hg
    exact Or.inl hg
  · unfold Reply.activates at ha
    rw [accounted_actions] at ha
    exact Or.inr ha

/-- A reply leaves the modes of the inspectors its actions do not control. -/
theorem modes_accept (h : ¬r.controls c j) :
    has (wavePassive c (accept c s slot w i r now) w) j = has (wavePassive c s w) j ∧
      has (waveVote c (accept c s slot w i r now) w) j = has (waveVote c s w) j ∧
      has (waveMandatory c (accept c s slot w i r now) w) j = has (waveMandatory c s w) j ∧
      has (waveGating c (accept c s slot w i r now) w) j = has (waveGating c s w) j := by
  have h' : ¬((account c (recorded c s slot w i r now) i).replies i).controls c j := by
    unfold Reply.controls
    rw [accounted_actions]
    exact h
  obtain ⟨h₁, h₂, h₃, h₄⟩ := @modes_actionsMerge _ _ w _ _ slot.wave h'
  obtain ⟨g₁, g₂, g₃, g₄⟩ :=
    modes_congr (w := w) (@accounted_ctl c s slot w i r now)
  rw [g₁] at h₁
  rw [g₂] at h₂
  rw [g₃] at h₃
  rw [g₄] at h₄
  exact ⟨h₁, h₂, h₃, h₄⟩

end Accept

/-! ### The decision -/

section Decision

variable {c : Conf} {s : St} {v : Verdict}

theorem foldl_pickStep (l : List Index) (best : Option Index)
    (hb : ∀ b ∈ best, Decides c s v b) :
    (∀ b ∈ l.foldl (pickStep c s v) best, Decides c s v b) ∧
      (l.foldl (pickStep c s v) best = none → best = none ∧ ∀ i ∈ l, ¬Decides c s v i) := by
  induction l generalizing best with
  | nil => exact ⟨hb, fun h => ⟨h, fun i hi => absurd hi List.not_mem_nil⟩⟩
  | cons i l ih =>
    rw [List.foldl_cons]
    by_cases hi : Decides c s v i
    · have hsome : ∃ b, pickStep c s v best i = some b ∧ Decides c s v b := by
        unfold pickStep
        rw [if_pos hi]
        cases best with
        | none => exact ⟨i, rfl, hi⟩
        | some b =>
          simp only
          split_ifs
          · exact ⟨i, rfl, hi⟩
          · exact ⟨b, rfl, hb b rfl⟩
      obtain ⟨b, hstep, hdec⟩ := hsome
      rw [hstep]
      obtain ⟨h₁, h₂⟩ := ih (some b) (by rintro _ ⟨⟩; exact hdec)
      exact ⟨h₁, fun h => absurd (h₂ h).1 (by simp)⟩
    · have hstep : pickStep c s v best i = best := if_neg hi
      rw [hstep]
      obtain ⟨h₁, h₂⟩ := ih best hb
      refine ⟨h₁, fun h => ⟨(h₂ h).1, fun j hj => ?_⟩⟩
      rcases List.mem_cons.1 hj with rfl | hj
      · exact hi
      · exact (h₂ h).2 j hj

theorem pick_some {i : Index} (h : pick c s v = some i) : Decides c s v i := by
  exact (foldl_pickStep _ none (by rintro _ ⟨⟩)).1 i h

theorem pick_eq_none_iff : pick c s v = none ↔ ∀ i, ¬Decides c s v i := by
  constructor
  · intro h i
    exact ((foldl_pickStep _ none (by rintro _ ⟨⟩)).2 h).2 i (List.mem_finRange i)
  · intro h
    by_contra hne
    obtain ⟨i, hi⟩ := Option.ne_none_iff_exists'.1 hne
    exact h i (pick_some hi)

/-- Everything a conclusion leaves as it was. -/
theorem conclude_frame (c : Conf) (s : St) :
    (conclude c s).slot = none ∧ (conclude c s).waiting = false ∧ (conclude c s).wave = s.wave ∧
      (conclude c s).replies = s.replies ∧ (conclude c s).fail = s.fail ∧
      (conclude c s).score = s.score ∧ (conclude c s).ctl = s.ctl := by
  unfold conclude failPass resolveVerdict
  simp only
  split
  · split_ifs <;> exact ⟨rfl, rfl, rfl, rfl, rfl, rfl, rfl⟩
  · split
    · split_ifs <;> exact ⟨rfl, rfl, rfl, rfl, rfl, rfl, rfl⟩
    · split <;> split_ifs <;> exact ⟨rfl, rfl, rfl, rfl, rfl, rfl, rfl⟩

/-- A phase is concluded in one of four states. -/
theorem conclude_state (c : Conf) (s : St) :
    (conclude c s).state = .allow ∨ (conclude c s).state = .deny ∨
      (conclude c s).state = .redirect ∨ (conclude c s).state = .failed := by
  unfold conclude failPass resolveVerdict
  simp only
  split
  · split_ifs <;> simp
  · split
    · split_ifs <;> simp
    · split <;> split_ifs <;> simp_all

/-- A phase concluded without a failure allows only what nobody denies or redirects. -/
theorem conclude_allow (h : (conclude c s).state = .allow) (hf : s.fail = .none) :
    (∀ i, ¬Decides c s .deny i) ∧ (∀ i, ¬Decides c s .redirect i) ∧ ¬scoreDenies c s := by
  unfold conclude failPass resolveVerdict at h
  simp only at h
  split at h
  · split_ifs at h
    simp_all
  · rename_i hdeny
    split at h
    · split_ifs at h
      simp_all
    · rename_i hscore
      split at h
      · split_ifs at h
        simp_all
      · rename_i hred
        exact ⟨pick_eq_none_iff.1 hdeny, pick_eq_none_iff.1 hred, hscore⟩

end Decision

/-! ### The end of a wave -/

section End

variable {c : Conf} {s : St} {slot : SlotRec}

/-- Settling the rewrites of a wave touches the body's locator and may fail the phase. -/
theorem rewriteSettle_frame (c : Conf) (s : St) (slot : SlotRec) :
    (rewriteSettle c s slot).slot = s.slot ∧ (rewriteSettle c s slot).waiting = s.waiting ∧
      (rewriteSettle c s slot).state = s.state ∧ (rewriteSettle c s slot).wave = s.wave ∧
      (rewriteSettle c s slot).replies = s.replies ∧ (rewriteSettle c s slot).score = s.score ∧
      (rewriteSettle c s slot).ctl = s.ctl ∧
      ((rewriteSettle c s slot).fail = s.fail ∨ (rewriteSettle c s slot).fail = .failBody) := by
  unfold rewriteSettle
  split
  · exact ⟨rfl, rfl, rfl, rfl, rfl, rfl, rfl, Or.inl rfl⟩
  · split_ifs
    · exact ⟨rfl, rfl, rfl, rfl, rfl, rfl, rfl, Or.inr rfl⟩
    · split
      · exact ⟨rfl, rfl, rfl, rfl, rfl, rfl, rfl, Or.inl rfl⟩
      · exact ⟨rfl, rfl, rfl, rfl, rfl, rfl, rfl, Or.inl rfl⟩
  · exact ⟨rfl, rfl, rfl, rfl, rfl, rfl, rfl, Or.inr rfl⟩

theorem decides_congr {s' : St} {v : Verdict} {i : Index} (h : s'.replies = s.replies) :
    Decides c s' v i ↔ Decides c s v i := by
  unfold Decides
  rw [h]

theorem settle_of_slot (hslot : s.slot = some slot) :
    settle c s = if !s.waiting ∨ ¬waveClosed slot then s else endWave c s slot := by
  unfold settle
  rw [hslot]

theorem resume_of_slot (hslot : s.slot = some slot) :
    resume c s = conclude c (rewriteSettle c s slot) := by
  unfold resume
  rw [hslot]

end End

end Waves
