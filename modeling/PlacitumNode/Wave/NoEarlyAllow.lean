import PlacitumNode.Wave.Inversion

/-!
# No early allow

When a phase is concluded with the state `allow` and without a failure, it has been through all of
its waves, and every inspector that was mandatory when its wave was published has replied, unless
a control action of another reply took its mandate away in the meantime (`no_early_allow`).  Modes
are read when an inspector is found silent, so an inspector made passive or switched off during its
wave is not missed (`allow_without_reply`).

Two situations end a phase before its last wave all the same and are left out of the statement:
the deadline of the phase with all mandatory inspectors heard (`NoDeadlineSkip`), and an inspector
made active after its refusal was accounted as a passive one's or as a vote (`NoPromotion`).

* `Clean`, `Inv`: the refusals of the wave can still decide;
* `Track`: what becomes of one mandatory inspector;
* `Switched`: a reply takes an inspector's mandate away.
-/

namespace Waves

open Flags Octets Slots Run

variable {c : Conf} {w : Wave} {s t : St} {slot slot' : SlotRec} {i : Index}

/-! ### The end of a wave -/

theorem conclude_idle (c : Conf) (s : St) : Idle (conclude c s) := by
  obtain ⟨hslot, hwait, -⟩ := conclude_frame c s
  refine ⟨hwait, hslot, ?_⟩
  rcases conclude_state c s with h | h | h | h <;> rw [h] <;> decide

/-- A refusal that can decide is decided on. -/
theorem conclude_refused (h : Decides c s .deny i ∨ Decides c s .redirect i) :
    (conclude c s).state = .deny ∨ (conclude c s).state = .redirect := by
  unfold conclude failPass resolveVerdict
  simp only
  split
  · simp
  · rename_i hdeny
    split
    · simp
    · split
      · simp
      · rename_i hred
        rcases h with h | h
        · exact absurd h (pick_eq_none_iff.1 hdeny i)
        · exact absurd h (pick_eq_none_iff.1 hred i)

theorem endWave_cases (c : Conf) (t : St) (slot : SlotRec) :
    (waveAdvances c (rewriteSettle c t slot) slot ∧
      endWave c t slot = { rewriteSettle c t slot with
        slot := none, wave := (rewriteSettle c t slot).wave + 1, state := .nextWave
        waiting := false }) ∨
    (¬waveAdvances c (rewriteSettle c t slot) slot ∧
      endWave c t slot = conclude c (rewriteSettle c t slot)) := by
  unfold endWave
  simp only
  split_ifs with h
  · exact Or.inl ⟨h, rfl⟩
  · exact Or.inr ⟨h, rfl⟩

theorem rewriteSettle_fail_ne (h : t.fail ≠ .none) : (rewriteSettle c t slot).fail ≠ .none := by
  obtain ⟨-, -, -, -, -, -, -, hf | hf⟩ := rewriteSettle_frame c t slot
  · rwa [hf]
  · rw [hf]
    decide

/-- What the end of a wave leaves alone: the entries and the modes stay, a failure stays one. -/
theorem endWave_frame (c : Conf) (t : St) (slot : SlotRec) :
    (endWave c t slot).replies = t.replies ∧ (endWave c t slot).ctl = t.ctl ∧
      (t.fail ≠ .none → (endWave c t slot).fail ≠ .none) ∧ Idle (endWave c t slot) := by
  obtain ⟨-, -, -, -, hr, -, hc, -⟩ := rewriteSettle_frame c t slot
  rcases endWave_cases c t slot with ⟨-, h⟩ | ⟨-, h⟩
  · rw [h]
    exact ⟨hr, hc, rewriteSettle_fail_ne, rfl, rfl, by simp⟩
  · obtain ⟨-, -, -, hr', hf', -, hc'⟩ := conclude_frame c (rewriteSettle c t slot)
    rw [h]
    exact ⟨hr'.trans hr, hc'.trans hc, fun hf => by rw [hf']; exact rewriteSettle_fail_ne hf,
      conclude_idle _ _⟩

theorem resume_frame (hslot : t.slot = some slot) :
    (resume c t).replies = t.replies ∧ (resume c t).ctl = t.ctl ∧
      (t.fail ≠ .none → (resume c t).fail ≠ .none) ∧ Idle (resume c t) ∧
      (resume c t).wave = t.wave := by
  obtain ⟨-, -, -, hw, hr, -, hc, -⟩ := rewriteSettle_frame c t slot
  obtain ⟨-, -, hw', hr', hf', -, hc'⟩ := conclude_frame c (rewriteSettle c t slot)
  rw [resume_of_slot hslot]
  exact ⟨hr'.trans hr, hc'.trans hc, fun hf => by rw [hf']; exact rewriteSettle_fail_ne hf,
    conclude_idle _ _, hw'.trans hw⟩

theorem settle_cases (hslot : t.slot = some slot) :
    settle c t = t ∧ (t.waiting = false ∨ ¬waveClosed slot) ∨
      settle c t = endWave c t slot ∧ t.waiting = true ∧ waveClosed slot := by
  rw [settle_of_slot hslot]
  split_ifs with h
  · refine Or.inl ⟨rfl, ?_⟩
    simpa using h
  · push Not at h
    exact Or.inr ⟨rfl, by simpa using h.1, h.2⟩

theorem settle_frame (hslot : t.slot = some slot) :
    (settle c t).replies = t.replies ∧ (settle c t).ctl = t.ctl ∧
      (t.fail ≠ .none → (settle c t).fail ≠ .none) := by
  rcases settle_cases (c := c) hslot with ⟨h, -⟩ | ⟨h, -⟩
  · rw [h]
    exact ⟨rfl, rfl, id⟩
  · rw [h]
    obtain ⟨h₁, h₂, h₃, -⟩ := endWave_frame c t slot
    exact ⟨h₁, h₂, h₃⟩

/-! ### Refusals -/

/-- The refusals recorded in the slot are those of received entries, and those that gate the wave
can decide. -/
structure Clean (c : Conf) (s : St) (slot : SlotRec) (w : Wave) : Prop where
  heard : ∀ i, has slot.denied i = true → has slot.got i = true
  refused : ∀ i, has slot.denied i = true → i.val < c.ninspectors ∧
    (s.replies i).received = true ∧
    ((s.replies i).verdict = .deny ∨ (s.replies i).verdict = .redirect)
  gates : ∀ i, has slot.denied i = true → has (waveGating c s w) i = true →
    (s.replies i).passive = false ∧ (s.replies i).vote = false

theorem Clean.decides (h : Clean c s slot w) (hd : has slot.denied i = true)
    (hg : has (waveGating c s w) i = true) : Decides c s .deny i ∨ Decides c s .redirect i := by
  obtain ⟨hn, hr, hv⟩ := h.refused i hd
  obtain ⟨hp, ht⟩ := h.gates i hd hg
  rcases hv with hv | hv
  · exact Or.inl ⟨hn, hr, hv, hp, ht⟩
  · exact Or.inr ⟨hn, hr, hv, hp, ht⟩

/-- A phase that is over and allows without a failure is past its last wave. -/
def AllowLast (c : Conf) (s : St) : Prop :=
  s.state = .allow → s.fail = .none → s.wave + 1 = c.waves.length

/-- The invariant of a phase. -/
def Inv (c : Conf) (s : St) : Prop :=
  Idle s ∧ AllowLast c s ∨ ∃ slot w, Awaits c s slot w ∧ Clean c s slot w

theorem wave_lt (h : currentWave c s = some w) : s.wave < c.waves.length := by
  unfold currentWave at h
  exact (List.getElem?_eq_some_iff.1 h).1

theorem endWave_inv (hw : currentWave c t = some w) (h : Clean c t slot w) :
    Inv c (endWave c t slot) := by
  refine Or.inl ⟨(endWave_frame c t slot).2.2.2, ?_⟩
  intro hst hf
  obtain ⟨-, -, -, hwave, hrep, -, hctl, -⟩ := rewriteSettle_frame c t slot
  rcases endWave_cases c t slot with ⟨-, heq⟩ | ⟨hadv, heq⟩
  · rw [heq] at hst
    cases hst
  · obtain ⟨-, -, hwave', -, hf', -⟩ := conclude_frame c (rewriteSettle c t slot)
    rw [heq] at hst hf
    rw [heq, hwave', hwave]
    have hfail : (rewriteSettle c t slot).fail = .none := hf'.symm.trans hf
    obtain ⟨hdeny, hred, hscore⟩ := conclude_allow hst hfail
    have hlt := wave_lt hw
    by_contra hlast
    apply hadv
    refine ⟨by rw [hwave]; omega, hfail, hscore, ?_⟩
    intro w' hw'
    have hww : w' = w := by
      unfold currentWave at hw hw'
      rw [hwave, hw] at hw'
      exact (Option.some.inj hw').symm
    subst hww
    by_contra hne
    obtain ⟨i, hd, hg⟩ := and_ne_zero_iff.1 hne
    rw [(modes_congr (congrFun hctl c.phase)).2.2.2] at hg
    rcases h.decides hd hg with hdec | hdec
    · exact hdeny i ((decides_congr hrep).2 hdec)
    · exact hred i ((decides_congr hrep).2 hdec)

/-- A wave that goes on being awaited, or ends. -/
theorem settle_inv (ha : Awaits c t slot w) (h : Clean c t slot w) : Inv c (settle c t) := by
  rcases settle_cases (c := c) ha.slot with ⟨heq, -⟩ | ⟨heq, -⟩
  · rw [heq]
    exact Or.inr ⟨slot, w, ha, h⟩
  · rw [heq]
    exact endWave_inv ha.wave h

/-- A phase resumed at once does not allow before its last wave. -/
theorem resume_inv (hslot : t.slot = some slot) (h : Clean c t slot w)
    (hwhy : t.fail ≠ .none ∨ t.wave + 1 = c.waves.length ∨
      ∃ i, has slot.denied i = true ∧ has (waveGating c t w) i = true) :
    Inv c (resume c t) := by
  obtain ⟨-, -, hfail, hidle, hwave⟩ := resume_frame (c := c) hslot
  refine Or.inl ⟨hidle, fun hst hf => ?_⟩
  rcases hwhy with hne | hlast | ⟨i, hd, hg⟩
  · exact absurd hf (hfail hne)
  · rw [hwave]
    exact hlast
  · exfalso
    obtain ⟨-, -, -, -, hrep, -⟩ := rewriteSettle_frame c t slot
    rw [resume_of_slot hslot] at hst
    have := conclude_refused (c := c) (s := rewriteSettle c t slot) (i := i)
      ((h.decides hd hg).imp (decides_congr hrep).2 (decides_congr hrep).2)
    rw [hst] at this
    simp at this

/-! ### One step -/

/-- The deadline of the phase does not fire in a wave before the last one when all its mandatory
inspectors have been heard. -/
def NoDeadlineSkip (c : Conf) (s : St) (e : Event) : Prop :=
  match e, s.slot, currentWave c s with
  | .timer now, some slot, some w =>
    DeadlineFires s now → slot.got &&& waveMandatory c s w = waveMandatory c s w →
      s.wave + 1 = c.waves.length
  | _, _, _ => True

instance (c : Conf) (s : St) (e : Event) : Decidable (NoDeadlineSkip c s e) := by
  unfold NoDeadlineSkip; split <;> infer_instance

/-- The reply makes no inspector active whose refusal is accounted as passive or as a vote in this
wave: one that has refused before, or the sender itself. -/
def NoPromotion (c : Conf) (s : St) (e : Event) : Prop :=
  match e, s.slot, currentWave c s with
  | .reply i r _, some slot, some w =>
    ∀ j, (msgReply c.phase r).activates c j →
      (has slot.denied j = true → (s.replies j).passive = false ∧ (s.replies j).vote = false) ∧
      (j = i → (msgReply c.phase r).verdict = .deny ∨ (msgReply c.phase r).verdict = .redirect →
        has (wavePassive c s w) i = false ∧ has (waveVote c s w) i = false)
  | _, _, _ => True

instance (c : Conf) (s : St) (e : Event) : Decidable (NoPromotion c s e) := by
  unfold NoPromotion; split <;> infer_instance

/-- Counting inspectors as silent keeps the refusals. -/
theorem Clean.silent (h : Clean c s slot w) (hs : Silent c w s slot t slot') :
    Clean c t slot' w := by
  have hgat := (modes_congr (c := c) (w := w) (congrFun hs.ctl c.phase)).2.2.2
  refine ⟨fun i hi => hs.got i (h.heard i (by rwa [hs.denied] at hi)), fun i hi => ?_,
    fun i hi hg => ?_⟩
  · rw [hs.denied] at hi
    obtain ⟨e, he⟩ := hs.replies i
    rw [he]
    exact h.refused i hi
  · rw [hs.denied] at hi
    rw [hgat] at hg
    obtain ⟨e, he⟩ := hs.replies i
    rw [he]
    exact h.gates i hi hg

/-- Recording a reply keeps the refusals, its own included. -/
theorem Clean.reply {i : Index} {r : Reply} (h : Clean c s slot w)
    (hr : Heard c w i r s slot t slot') (hacc : Accounts c slot w i)
    (hpro : ∀ j, r.activates c j →
      (has slot.denied j = true → (s.replies j).passive = false ∧ (s.replies j).vote = false) ∧
      (j = i → r.verdict = .deny ∨ r.verdict = .redirect →
        has (wavePassive c s w) i = false ∧ has (waveVote c s w) i = false)) :
    Clean c t slot' w := by
  obtain ⟨hn, -, hopen⟩ := hacc
  have hgot : ∀ j, has slot.denied j = true → j ≠ i := by
    rintro j hj rfl
    have := h.heard j hj
    rw [hopen] at this
    cases this
  obtain ⟨x, o, l, hown⟩ := hr.own
  -- a recorded refusal is an old one or the sender's
  have hden : ∀ j, has slot'.denied j = true →
      has slot.denied j = true ∨ j = i ∧ (r.verdict = .deny ∨ r.verdict = .redirect) := by
    intro j hj
    rw [hr.denied] at hj
    split_ifs at hj with hv
    · simp only [has_or, has_bit, Bool.or_eq_true, decide_eq_true_eq] at hj
      rcases hj with hj | hj
      · exact Or.inl hj
      · exact Or.inr ⟨hj.symm, hv⟩
    · exact Or.inl hj
  refine ⟨fun j hj => ?_, fun j hj => ?_, fun j hj hg => ?_⟩
  · rw [hr.got]
    rcases hden j hj with hold | ⟨rfl, -⟩
    · simp [h.heard j hold]
    · simp
  · rcases hden j hj with hold | ⟨rfl, hv⟩
    · rw [hr.other j (hgot j hold)]
      exact h.refused j hold
    · rw [hown]
      exact ⟨hn, rfl, hv⟩
  · rcases hden j hj with hold | ⟨rfl, hv⟩
    · rw [hr.other j (hgot j hold)]
      rcases hr.gating j hg with hg' | hact
      · exact h.gates j hold hg'
      · exact (hpro j hact).1 hold
    · rw [hown]
      rcases hr.gating j hg with hg' | hact
      · exact (gating_iff.1 hg').2
      · exact (hpro j hact).2 rfl hv

theorem Silent.awaits (h : Awaits c s slot w) (hs : Silent c w s slot t slot') :
    Awaits c t slot' w := by
  refine ⟨hs.waiting.trans h.waiting, hs.held, hs.state.trans h.state, ?_⟩
  have := h.wave
  unfold currentWave at this ⊢
  rw [hs.wave, this]

theorem Heard.awaits {i : Index} {r : Reply} (h : Awaits c s slot w)
    (hs : Heard c w i r s slot t slot') : Awaits c t slot' w := by
  refine ⟨hs.waiting.trans h.waiting, hs.held, hs.state.trans h.state, ?_⟩
  have := h.wave
  unfold currentWave at this ⊢
  rw [hs.wave, this]

theorem Published.clean (h : Published c w s t slot) : Clean c t slot w := by
  refine ⟨fun i hi => ?_, fun i hi => ?_, fun i hi _ => ?_⟩ <;>
  · rw [h.denied, has_zero] at hi
    cases hi

theorem Published.wave_eq (h : Published c w s t slot) (hw : currentWave c s = some w) :
    currentWave c t = some w := by
  unfold currentWave at hw ⊢
  rw [h.wave, hw]

theorem noPromotion_reply {i : Index} {r : Reply} {now : ℕ} (ha : Awaits c s slot w)
    (h : NoPromotion c s (.reply i r now)) :
    ∀ j, (msgReply c.phase r).activates c j →
      (has slot.denied j = true → (s.replies j).passive = false ∧ (s.replies j).vote = false) ∧
      (j = i → (msgReply c.phase r).verdict = .deny ∨ (msgReply c.phase r).verdict = .redirect →
        has (wavePassive c s w) i = false ∧ has (waveVote c s w) i = false) := by
  unfold NoPromotion at h
  rw [ha.slot, ha.wave] at h
  exact h

/-- **One step** keeps the invariant. -/
theorem inv_step {e : Event} (h : Inv c s) (hA : NoDeadlineSkip c s e) (hB : NoPromotion c s e) :
    Inv c (step c s e) := by
  rcases h with ⟨hidle, hallow⟩ | ⟨slot, w, ha, hclean⟩
  · have hstep := step_idle (c := c) hidle e
    generalize step c s e = s' at hstep ⊢
    cases hstep with
    | stay _ => exact Or.inl ⟨hidle, hallow⟩
    | state st _ hst _ =>
      refine Or.inl ⟨⟨hidle.waiting, hidle.slot, ?_⟩, fun h => ?_⟩
      · rcases hst with rfl | rfl | rfl <;> simp
      · rcases hst with rfl | rfl | rfl <;> cases h
    | failed t code hcode _ _ hwait _ =>
      refine Or.inl ⟨⟨hwait.trans hidle.waiting, rfl, by simp [startFailed]⟩, fun h => ?_⟩
      cases h
    | closed io w t slot _ _ hw hpub _ => exact endWave_inv (hpub.wave_eq hw) hpub.clean
    | awaits io w t slot _ _ hw hpub _ =>
      have hcl := hpub.clean
      exact Or.inr ⟨slot, w, ⟨rfl, hpub.held, rfl, hpub.wave_eq hw⟩,
        ⟨hcl.heard, hcl.refused, hcl.gates⟩⟩
  · have hstep := step_await ha e
    generalize step c s e = s' at hstep ⊢
    cases hstep with
    | stay _ => exact Or.inr ⟨slot, w, ha, hclean⟩
    | reply i r now t slot' _ he hacc hheard hgo =>
      subst he
      have hcl := hclean.reply hheard hacc (noPromotion_reply ha hB)
      rcases hgo with rfl | ⟨rfl, hwhy⟩
      · exact settle_inv (hheard.awaits ha) hcl
      · refine resume_inv hheard.held hcl ?_
        rcases hwhy with hf | hd
        · exact Or.inl hf
        · exact Or.inr (Or.inr ⟨i, hd⟩)
    | silent t slot' _ _ hs hor =>
      have hcl := hclean.silent hs
      rcases hor with rfl | rfl
      · exact Or.inr ⟨slot', w, hs.awaits ha, hcl⟩
      · exact settle_inv (hs.awaits ha) hcl
    | deadline now he hd hm =>
      subst he
      refine resume_inv ha.slot hclean (Or.inr (Or.inl ?_))
      unfold NoDeadlineSkip at hA
      rw [ha.slot, ha.wave] at hA
      exact hA hd hm
    | late now _ _ =>
      exact resume_inv (t := { s with fail := .failTimeout }) (w := w) ha.slot
        ⟨hclean.heard, hclean.refused, hclean.gates⟩ (Or.inl (by simp))

/-! ### One mandatory inspector -/

/-- The inspector is awaited in the wave `k`, which is `w`, and still mandatory. -/
def Pending (c : Conf) (k : ℕ) (w : Wave) (i : Index) (s : St) : Prop :=
  ∃ slot, Awaits c s slot w ∧ s.wave = k ∧ has slot.awaited i = true ∧ has slot.got i = false ∧
    has (waveMandatory c s w) i = true

/-- What becomes of an inspector that was mandatory when its wave was published. -/
def Track (c : Conf) (k : ℕ) (w : Wave) (i : Index) (s : St) : Prop :=
  (s.replies i).received = true ∨ s.fail ≠ .none ∨ (s.state = .deny ∨ s.state = .redirect) ∨
    Pending c k w i s

/-- The step from `s` is a reply that takes the mandate of `i` away: an accepted control action
makes it passive or switches it off. -/
def Switched (c : Conf) (w : Wave) (i : Index) (s : St) (e : Event) : Prop :=
  (∃ j r now, e = .reply j r now ∧ (msgReply c.phase r).controls c i) ∧
    has (waveMandatory c s w) i = true ∧ has (waveMandatory c (step c s e) w) i = false

variable {k : ℕ}

/-- No wave is awaited, or one is. -/
def Shape (c : Conf) (s : St) : Prop := Idle s ∨ ∃ slot w, Awaits c s slot w

theorem Inv.shape (h : Inv c s) : Shape c s := by
  rcases h with ⟨hidle, -⟩ | ⟨slot, w, ha, -⟩
  · exact Or.inl hidle
  · exact Or.inr ⟨slot, w, ha⟩

/-- From `s` to `s'` replies stay received and a failure stays one. -/
structure Lasts (s s' : St) : Prop where
  received : ∀ i, (s.replies i).received = true → (s'.replies i).received = true
  fail : s.fail ≠ .none → s'.fail ≠ .none

theorem lasts_of_replies {s' : St} (hr : s'.replies = t.replies)
    (hf : t.fail ≠ .none → s'.fail ≠ .none) (h : Lasts s t) : Lasts s s' :=
  ⟨fun i hi => by rw [hr]; exact h.received i hi, fun hne => hf (h.fail hne)⟩

theorem Silent.lasts (h : Silent c w s slot t slot') : Lasts s t := by
  refine ⟨fun i hi => ?_, h.fail_ne⟩
  obtain ⟨e, he⟩ := h.replies i
  rw [he]
  exact hi

theorem Heard.lasts {i : Index} {r : Reply} (h : Heard c w i r s slot t slot') : Lasts s t := by
  refine ⟨fun j hj => ?_, fun hne => ?_⟩
  · by_cases hji : j = i
    · obtain ⟨x, o, l, hown⟩ := h.own
      rw [hji, hown]
    · rw [h.other j hji]
      exact hj
  · rcases h.fail with hf | hf
    · rwa [hf]
    · exact hf

theorem Published.lasts (h : Published c w s t slot) : Lasts s t := by
  refine ⟨fun i hi => ?_, fun hne => ?_⟩
  · obtain ⟨e, he⟩ := h.replies i
    rw [he]
    exact hi
  · rcases h.fail with hf | hf
    · rwa [hf]
    · exact hf

theorem lasts_settle (hslot : t.slot = some slot) (h : Lasts s t) : Lasts s (settle c t) :=
  lasts_of_replies (settle_frame hslot).1 (settle_frame hslot).2.2 h

theorem lasts_resume (hslot : t.slot = some slot) (h : Lasts s t) : Lasts s (resume c t) :=
  lasts_of_replies (resume_frame hslot).1 (resume_frame hslot).2.2.1 h

theorem lasts_endWave (h : Lasts s t) : Lasts s (endWave c t slot) :=
  lasts_of_replies (endWave_frame c t slot).1 (endWave_frame c t slot).2.2.1 h

/-- Replies and failures last. -/
theorem lasts_step {e : Event} (h : Shape c s) : Lasts s (step c s e) := by
  rcases h with hidle | ⟨slot, w, ha⟩
  · have hstep := step_idle (c := c) hidle e
    generalize step c s e = s' at hstep ⊢
    cases hstep with
    | stay _ => exact ⟨fun _ h => h, id⟩
    | state st _ _ _ => exact ⟨fun _ h => h, id⟩
    | failed t code hcode _ hrep _ _ =>
      refine ⟨fun i hi => ?_, fun _ => hcode⟩
      obtain ⟨e', he⟩ := hrep i
      simp only [startFailed, he]
      exact hi
    | closed io w t slot _ _ _ hpub _ => exact lasts_endWave hpub.lasts
    | awaits io w t slot _ _ _ hpub _ => exact ⟨hpub.lasts.received, hpub.lasts.fail⟩
  · have hstep := step_await ha e
    generalize step c s e = s' at hstep ⊢
    cases hstep with
    | stay _ => exact ⟨fun _ h => h, id⟩
    | reply i r now t slot' _ _ _ hheard hgo =>
      rcases hgo with rfl | ⟨rfl, -⟩
      · exact lasts_settle hheard.held hheard.lasts
      · exact lasts_resume hheard.held hheard.lasts
    | silent t slot' _ _ hs hor =>
      rcases hor with rfl | rfl
      · exact hs.lasts
      · exact lasts_settle hs.held hs.lasts
    | deadline now _ _ _ => exact lasts_resume ha.slot ⟨fun _ h => h, id⟩
    | late now _ _ =>
      exact lasts_resume (t := { s with fail := .failTimeout }) ha.slot
        ⟨fun _ h => h, fun _ => by simp⟩

/-- A phase that is over stays as it is. -/
theorem step_over {e : Event} (h : Idle s)
    (hst : s.state ≠ .nextWave ∧ s.state ≠ .needBody ∧ s.state ≠ .placingMeta) :
    step c s e = s := by
  cases e with
  | start io => exact if_neg hst.1
  | resumed ok => exact if_neg (by rintro (h | h) <;> simp_all)
  | reply i r now => exact if_neg (by simp [h.waiting])
  | absent i sent => exact if_neg (by simp [h.waiting])
  | timer now => simp only [step, onDeadline, h.slot]

theorem refused_step {e : Event} (h : Shape c s) (hst : s.state = .deny ∨ s.state = .redirect) :
    step c s e = s := by
  rcases h with hidle | ⟨slot, w, ha⟩
  · exact step_over hidle (by rcases hst with h | h <;> rw [h] <;> decide)
  · rw [ha.state] at hst
    simp at hst

/-- While an inspector is awaited its wave is not closed, and settling it does nothing. -/
theorem settle_awaited (hslot : t.slot = some slot) (hawait : has slot.awaited i = true)
    (hopen : has slot.got i = false) : settle c t = t := by
  rcases settle_cases (c := c) hslot with ⟨heq, -⟩ | ⟨-, -, hclosed⟩
  · exact heq
  · have hgot := and_eq_right_iff.1 hclosed i hawait
    rw [hopen] at hgot
    cases hgot

theorem Inv.clean (h : Inv c s) (ha : Awaits c s slot w) : Clean c s slot w := by
  rcases h with ⟨hidle, -⟩ | ⟨slot₁, w₁, ha₁, hclean⟩
  · have hnone := ha.slot
    rw [hidle.slot] at hnone
    cases hnone
  · obtain rfl : slot₁ = slot := Option.some.inj (ha₁.slot.symm.trans ha.slot)
    obtain rfl : w₁ = w := Option.some.inj (ha₁.wave.symm.trans ha.wave)
    exact hclean

theorem Goes.frame {j : Index} {s' : St} (hslot : t.slot = some slot) (h : Goes c w j t slot s') :
    s'.replies = t.replies ∧ s'.ctl = t.ctl := by
  rcases h with rfl | ⟨rfl, -⟩
  · exact ⟨(settle_frame hslot).1, (settle_frame hslot).2.1⟩
  · exact ⟨(resume_frame hslot).1, (resume_frame hslot).2.1⟩

/-- The reply of another inspector leaves a mandatory one awaited, ends the phase by a failure or a
refusal, or takes the mandate away. -/
theorem track_heard {j : Index} {r : Reply} {now : ℕ} {s' : St} (hclean : Clean c s slot w)
    (ha : Awaits c s slot w) (hk : s.wave = k) (hawait : has slot.awaited i = true)
    (hopen : has slot.got i = false) (hmand : has (waveMandatory c s w) i = true)
    (hB : NoPromotion c s (.reply j r now)) (hacc : Accounts c slot w j)
    (hheard : Heard c w j (msgReply c.phase r) s slot t slot') (hgo : Goes c w j t slot' s') :
    Track c k w i s' ∨
      (msgReply c.phase r).controls c i ∧ has (waveMandatory c s' w) i = false := by
  obtain ⟨hrep, hctl⟩ := hgo.frame hheard.held
  by_cases hji : j = i
  · obtain ⟨x, o, l, hown⟩ := hheard.own
    exact Or.inl (Or.inl (by rw [← hji, hrep, hown]))
  by_cases hm : has (waveMandatory c t w) i = true
  · left
    have hawait' : has slot'.awaited i = true := by rw [hheard.awaited]; exact hawait
    have hopen' : has slot'.got i = false := by
      rw [hheard.got, has_or, has_bit, hopen]
      simpa using hji
    -- The wave goes on, or an error or a refusal has ended the phase.
    rcases hgo with rfl | ⟨rfl, hwhy⟩
    · rw [settle_awaited hheard.held hawait' hopen']
      exact Or.inr (Or.inr (Or.inr
        ⟨slot', hheard.awaits ha, hheard.wave.trans hk, hawait', hopen', hm⟩))
    · rcases hwhy with hf | ⟨hd, hg⟩
      · exact Or.inr (Or.inl ((resume_frame hheard.held).2.2.1 hf))
      · refine Or.inr (Or.inr (Or.inl ?_))
        obtain ⟨-, -, -, -, hsame, -⟩ := rewriteSettle_frame c t slot'
        have hclean' := hclean.reply hheard hacc (noPromotion_reply ha hB)
        rw [resume_of_slot hheard.held]
        exact conclude_refused
          ((hclean'.decides hd hg).imp (decides_congr hsame).2 (decides_congr hsame).2)
  · right
    constructor
    · by_contra hnc
      rw [hheard.modes i hnc] at hm
      exact hm hmand
    · rw [(modes_congr (congrFun hctl c.phase)).2.2.1]
      simpa using hm

/-- Where no reply is heard a mandatory inspector stays awaited, or its silence fails the phase. -/
theorem track_silent {s' : St} (ha : Awaits c s slot w) (hk : s.wave = k)
    (hawait : has slot.awaited i = true) (hopen : has slot.got i = false)
    (hmand : has (waveMandatory c s w) i = true) (hs : Silent c w s slot t slot')
    (hgo : s' = t ∨ s' = settle c t) : Track c k w i s' := by
  by_cases hgot : has slot'.got i = true
  · have hfail := hs.missed i hopen hgot hmand
    rcases hgo with rfl | rfl
    · exact Or.inr (Or.inl hfail)
    · exact Or.inr (Or.inl ((settle_frame hs.held).2.2 hfail))
  · have hawait' : has slot'.awaited i = true := by rw [hs.awaited]; exact hawait
    have hopen' : has slot'.got i = false := by simpa using hgot
    have hmand' : has (waveMandatory c t w) i = true := by
      rw [(modes_congr (congrFun hs.ctl c.phase)).2.2.1]
      exact hmand
    have hsame : s' = t := hgo.elim id fun h => h.trans (settle_awaited hs.held hawait' hopen')
    rw [hsame]
    exact Or.inr (Or.inr (Or.inr
      ⟨slot', hs.awaits ha, hs.wave.trans hk, hawait', hopen', hmand'⟩))

/-- **A mandatory inspector** replies, is missed, or loses its mandate by a control action. -/
theorem track_step {e : Event} (hinv : Inv c s) (hB : NoPromotion c s e)
    (h : Track c k w i s) : Track c k w i (step c s e) ∨ Switched c w i s e := by
  have hlast := lasts_step (e := e) hinv.shape
  rcases h with hr | hf | hst | ⟨slot, ha, hk, hawait, hopen, hmand⟩
  · exact Or.inl (Or.inl (hlast.received i hr))
  · exact Or.inl (Or.inr (Or.inl (hlast.fail hf)))
  · refine Or.inl (Or.inr (Or.inr (Or.inl ?_)))
    rwa [refused_step hinv.shape hst]
  -- From here on the inspector is awaited, and the cases are those of the step.
  have hstep := step_await ha e
  unfold Switched
  generalize step c s e = s' at hstep ⊢
  cases hstep with
  | stay _ => exact Or.inl (Or.inr (Or.inr (Or.inr ⟨slot, ha, hk, hawait, hopen, hmand⟩)))
  | reply j r now t slot' _ he hacc hheard hgo =>
    subst he
    rcases track_heard (hinv.clean ha) ha hk hawait hopen hmand hB hacc hheard hgo with
      htrack | ⟨hctl, hm⟩
    · exact Or.inl htrack
    · exact Or.inr ⟨⟨j, r, now, rfl, hctl⟩, hmand, hm⟩
  | silent t slot' _ _ hs hgo => exact Or.inl (track_silent ha hk hawait hopen hmand hs hgo)
  | deadline now _ _ hm =>
    have hgot := and_eq_right_iff.1 hm i hmand
    rw [hopen] at hgot
    cases hgot
  | late now _ _ =>
    refine Or.inl (Or.inr (Or.inl ?_))
    exact (resume_frame (t := { s with fail := .failTimeout }) ha.slot).2.2.1 (by simp)

/-- The publication of a wave awaits its mandatory inspectors or has failed the phase. -/
theorem track_publish {io : StartIo} (hidle : Idle s) (hpub : Publishes c s io)
    (hw : currentWave c s = some w) (hm : has (waveMandatory c s w) i = true)
    (hc : has c.condOff i = false) : Track c s.wave w i (step c s (.start io)) := by
  have hstep := step_idle (c := c) hidle (.start io)
  generalize step c s (.start io) = s' at hstep ⊢
  have hfail : ∀ {t : St} {slot : SlotRec}, Published c w s t slot → has slot.got i = true →
      t.fail ≠ .none := fun h => (h.awaited i hm hc).2
  cases hstep with
  | stay h =>
    rcases h io rfl with h | h
    · exact absurd hpub.1 h
    · exact absurd hpub.2.1 h
  | state st _ _ h => exact absurd hpub (h io rfl)
  | failed t code _ _ _ _ h => exact absurd hpub (h io rfl)
  | closed io' w' t slot _ _ hw' h hclosed =>
    obtain rfl : w' = w := Option.some.inj (hw'.symm.trans hw)
    have hgot := and_eq_right_iff.1 hclosed i (h.awaited i hm hc).1
    exact Or.inr (Or.inl ((endWave_frame c t slot).2.2.1 (hfail h hgot)))
  | awaits io' w' t slot _ _ hw' h _ =>
    obtain rfl : w' = w := Option.some.inj (hw'.symm.trans hw)
    by_cases hgot : has slot.got i = true
    · have hne : t.fail ≠ .none := hfail h hgot
      exact Or.inr (Or.inl hne)
    · refine Or.inr (Or.inr (Or.inr ⟨slot, ⟨rfl, h.held, rfl, h.wave_eq hw⟩, h.wave,
        (h.awaited i hm hc).1, by simpa using hgot, ?_⟩))
      have := (modes_congr (c := c) (w := w') (congrFun h.ctl c.phase)).2.2.1
      exact (congrArg (has · i) this).trans hm

/-! ### Runs -/

/-- Both situations that end a phase early are ruled out along the run. -/
def Regular (c : Conf) (s : St) (e : Event) : Prop := NoDeadlineSkip c s e ∧ NoPromotion c s e

instance (c : Conf) (s : St) (e : Event) : Decidable (Regular c s e) := by
  unfold Regular; infer_instance

theorem fresh_inv (h : s.Fresh) : Inv c s := by
  refine Or.inl ⟨⟨h.waiting, h.slot, by rw [h.state]; decide⟩, fun hst => ?_⟩
  rw [h.state] at hst
  cases hst

theorem inv_run {es : List Event} (h : Inv c s) (hreg : Along (step c) (Regular c) s es) :
    Inv c (runFrom (step c) s es) :=
  invariant_run (fun _ _ hi hr => inv_step hi hr.1 hr.2) h hreg

/-- From the publication of its wave on, a mandatory inspector is tracked until a control action
takes its mandate away. -/
theorem track_run {es : List Event} (hinv : Inv c s) (hreg : Along (step c) (Regular c) s es)
    (h : Track c k w i s) :
    Track c k w i (runFrom (step c) s es) ∨
      ∃ fs e gs, es = fs ++ e :: gs ∧ Switched c w i (runFrom (step c) s fs) e := by
  induction es generalizing s with
  | nil => exact Or.inl h
  | cons e es ih =>
    obtain ⟨⟨hA, hB⟩, hrest⟩ := hreg
    rcases track_step hinv hB h with ht | hsw
    · rcases ih (inv_step hinv hA hB) hrest ht with h' | ⟨fs, e', gs, rfl, hsw⟩
      · exact Or.inl h'
      · exact Or.inr ⟨e :: fs, e', gs, rfl, hsw⟩
    · exact Or.inr ⟨[], e, es, rfl, hsw⟩

/-- The current wave has been published. -/
def Begun (s : St) : Prop := s.waiting = true ∨ s.state = .allow ∧ s.fail = .none

theorem endWave_wave (c : Conf) (t : St) (slot : SlotRec) :
    (endWave c t slot).wave = t.wave ∨
      (endWave c t slot).wave = t.wave + 1 ∧ ¬Begun (endWave c t slot) := by
  obtain ⟨-, -, -, hw, -⟩ := rewriteSettle_frame c t slot
  rcases endWave_cases c t slot with ⟨-, h⟩ | ⟨-, h⟩
  · rw [h]
    refine Or.inr ⟨by rw [hw], ?_⟩
    rintro (h' | ⟨h', -⟩) <;> cases h'
  · rw [h]
    exact Or.inl ((conclude_frame c _).2.2.1.trans hw)

/-- Waves follow one another, each from its publication on. -/
theorem wave_step {e : Event} (hinv : Inv c s) :
    ((step c s e).wave = s.wave ∧
        (Begun (step c s e) → Begun s ∨ ∃ io, e = .start io ∧ Publishes c s io)) ∨
      ((step c s e).wave = s.wave + 1 ∧ ¬Begun (step c s e) ∧
        (Begun s ∨ ∃ io, e = .start io ∧ Publishes c s io)) := by
  rcases hinv.shape with hidle | ⟨slot, w, ha⟩
  · have hstep := step_idle (c := c) hidle e
    generalize step c s e = s' at hstep ⊢
    cases hstep with
    | stay _ => exact Or.inl ⟨rfl, Or.inl⟩
    | state st _ hst _ =>
      refine Or.inl ⟨rfl, ?_⟩
      rintro (h | ⟨h, -⟩)
      · exact Or.inl (Or.inl h)
      · rcases hst with rfl | rfl | rfl <;> cases h
    | failed t code _ hwave _ hwait _ =>
      refine Or.inl ⟨hwave, ?_⟩
      rintro (h | ⟨h, -⟩)
      · exact Or.inl (Or.inl (hwait.symm.trans h))
      · cases h
    | closed io w t slot he hpub _ h _ =>
      rcases endWave_wave c t slot with hw | ⟨hw, hnb⟩
      · exact Or.inl ⟨hw.trans h.wave, fun _ => Or.inr ⟨io, he, hpub⟩⟩
      · exact Or.inr ⟨by rw [hw, h.wave], hnb, Or.inr ⟨io, he, hpub⟩⟩
    | awaits io w t slot he hpub _ h _ => exact Or.inl ⟨h.wave, fun _ => Or.inr ⟨io, he, hpub⟩⟩
  · have hbegun : Begun s := Or.inl ha.waiting
    have hset : ∀ {t : St} {slot' : SlotRec}, t.slot = some slot' → t.wave = s.wave →
        (settle c t).wave = s.wave ∨
          (settle c t).wave = s.wave + 1 ∧ ¬Begun (settle c t) := by
      intro t slot' hslot hwave
      rcases settle_cases (c := c) hslot with ⟨heq, -⟩ | ⟨heq, -⟩
      · rw [heq]
        exact Or.inl hwave
      · rw [heq, ← hwave]
        exact endWave_wave c t slot'
    have hgo : (step c s e).wave = s.wave ∨
        (step c s e).wave = s.wave + 1 ∧ ¬Begun (step c s e) := by
      have hstep := step_await ha e
      generalize step c s e = s' at hstep ⊢
      cases hstep with
      | stay _ => exact Or.inl rfl
      | reply i r now t slot' _ _ _ hheard hgo =>
        rcases hgo with rfl | ⟨rfl, -⟩
        · exact hset hheard.held hheard.wave
        · exact Or.inl ((resume_frame hheard.held).2.2.2.2.trans hheard.wave)
      | silent t slot' _ _ hs hor =>
        rcases hor with rfl | rfl
        · exact Or.inl hs.wave
        · exact hset hs.held hs.wave
      | deadline now _ _ _ => exact Or.inl (resume_frame ha.slot).2.2.2.2
      | late now _ _ =>
        exact Or.inl (resume_frame (t := { s with fail := .failTimeout }) ha.slot).2.2.2.2
    rcases hgo with h | ⟨h, hnb⟩
    · exact Or.inl ⟨h, fun _ => Or.inl hbegun⟩
    · exact Or.inr ⟨h, hnb, Or.inl hbegun⟩

/-- Every wave a run has got to was published in it. -/
theorem published_run {es : List Event} (hfresh : s.Fresh)
    (hreg : Along (step c) (Regular c) s es) :
    ∀ k, k < (runFrom (step c) s es).wave ∨
        k = (runFrom (step c) s es).wave ∧ Begun (runFrom (step c) s es) →
      ∃ fs io gs, es = fs ++ .start io :: gs ∧ Publishes c (runFrom (step c) s fs) io ∧
        (runFrom (step c) s fs).wave = k := by
  induction es using List.reverseRecOn with
  | nil =>
    rintro k (hk | ⟨-, hb | ⟨hb, -⟩⟩)
    · rw [runFrom_nil, hfresh.wave] at hk
      omega
    · rw [runFrom_nil, hfresh.waiting] at hb
      cases hb
    · rw [runFrom_nil, hfresh.state] at hb
      cases hb
  | append_singleton es e ih =>
    obtain ⟨hes, he, -⟩ := along_append.1 hreg
    have hinv := inv_run (fresh_inv hfresh) hes
    rw [runFrom_append, runFrom_cons, runFrom_nil]
    -- an earlier publication is one of the longer run
    have hold : ∀ {k}, (∃ fs io gs, es = fs ++ .start io :: gs ∧
        Publishes c (runFrom (step c) s fs) io ∧ (runFrom (step c) s fs).wave = k) →
        ∃ fs io gs, es ++ [e] = fs ++ .start io :: gs ∧
          Publishes c (runFrom (step c) s fs) io ∧ (runFrom (step c) s fs).wave = k := by
      rintro k ⟨fs, io, gs, rfl, hp⟩
      exact ⟨fs, io, gs ++ [e], by simp, hp⟩
    have hnow : Begun (runFrom (step c) s es) ∨
        (∃ io, e = .start io ∧ Publishes c (runFrom (step c) s es) io) →
        ∃ fs io gs, es ++ [e] = fs ++ .start io :: gs ∧
          Publishes c (runFrom (step c) s fs) io ∧
          (runFrom (step c) s fs).wave = (runFrom (step c) s es).wave := by
      rintro (hb | ⟨io, rfl, hp⟩)
      · exact hold (ih hes _ (Or.inr ⟨rfl, hb⟩))
      · exact ⟨es, io, [], rfl, hp, rfl⟩
    intro k hk
    rcases wave_step (e := e) hinv with ⟨hw, hb⟩ | ⟨hw, hnb, hb⟩
    · rw [hw] at hk
      rcases hk with hk | ⟨rfl, hbegun⟩
      · exact hold (ih hes k (Or.inl hk))
      · exact hnow (hb hbegun)
    · rw [hw] at hk
      rcases hk with hk | ⟨-, hbegun⟩
      · by_cases hlt : k < (runFrom (step c) s es).wave
        · exact hold (ih hes k (Or.inl hlt))
        · obtain rfl : k = (runFrom (step c) s es).wave := by omega
          exact hnow hb
      · exact absurd hbegun hnb

/-- **No early allow.** When a run from a fresh phase allows without a failure, the current wave is
the last one, and every wave was published at a point of the run from which on each inspector then
mandatory (and not skipped by its condition) has replied, or an accepted control action has taken
its mandate away. -/
theorem no_early_allow (c : Conf) (s : St) (es : List Event) (hfresh : s.Fresh)
    (hreg : Along (step c) (Regular c) s es) (hstate : (runFrom (step c) s es).state = .allow)
    (hfail : (runFrom (step c) s es).fail = .none) :
    (runFrom (step c) s es).wave + 1 = c.waves.length ∧
      ∀ k w, c.waves[k]? = some w → ∃ fs io gs, es = fs ++ .start io :: gs ∧
        Publishes c (runFrom (step c) s fs) io ∧ (runFrom (step c) s fs).wave = k ∧
        ∀ i, has (waveMandatory c (runFrom (step c) s fs) w) i = true → has c.condOff i = false →
          ((runFrom (step c) s es).replies i).received = true ∨
          ∃ gs₁ e gs₂, gs = gs₁ ++ e :: gs₂ ∧
            Switched c w i (runFrom (step c) s (fs ++ .start io :: gs₁)) e := by
  have hinv := inv_run (fresh_inv (c := c) hfresh) hreg
  have hlast : (runFrom (step c) s es).wave + 1 = c.waves.length := by
    rcases hinv with ⟨-, hallow⟩ | ⟨slot, w, ha, -⟩
    · exact hallow hstate hfail
    · rw [ha.state] at hstate
      cases hstate
  refine ⟨hlast, fun k w hw => ?_⟩
  have hk : k < c.waves.length := (List.getElem?_eq_some_iff.1 hw).1
  obtain ⟨fs, io, gs, rfl, hpub, hwave⟩ := published_run hfresh hreg k (by
    by_cases hlt : k < (runFrom (step c) s es).wave
    · exact Or.inl hlt
    · exact Or.inr ⟨by omega, Or.inr ⟨hstate, hfail⟩⟩)
  refine ⟨fs, io, gs, rfl, hpub, hwave, fun i hm hc => ?_⟩
  obtain ⟨hfs, hstart, hgs⟩ := along_append.1 hreg
  have hinv₁ := inv_run (fresh_inv (c := c) hfresh) hfs
  have hidle : Idle (runFrom (step c) s fs) := by
    rcases hinv₁.shape with h | ⟨slot, w, ha⟩
    · exact h
    · have := hpub.1
      rw [ha.state] at this
      cases this
  have htrack : Track c k w i (step c (runFrom (step c) s fs) (.start io)) := by
    rw [← hwave]
    exact track_publish hidle hpub (by unfold currentWave; rw [hwave, hw]) hm hc
  rw [runFrom_append, runFrom_cons] at hstate hfail ⊢
  rcases track_run (inv_step hinv₁ hstart.1 hstart.2) hgs htrack with hend | ⟨g₁, e, g₂, rfl, hsw⟩
  · rcases hend with h | h | h | ⟨slot, ha, -⟩
    · exact Or.inl h
    · exact absurd hfail h
    · rw [hstate] at h
      simp at h
    · rw [ha.state] at hstate
      cases hstate
  · refine Or.inr ⟨g₁, e, g₂, rfl, ?_⟩
    rw [runFrom_append, runFrom_cons]
    exact hsw

/-! ### Two inspectors in one wave -/

instance (c : Conf) (s : St) (io : StartIo) : Decidable (Publishes c s io) := by
  unfold Publishes; infer_instance

/-- Two active inspectors, both asked in the first wave of the request phase. -/
def pair : Conf where
  phase := .request
  ninspectors := 2
  inspects := fun p => if p = .request then [⟨0, 0, .active, 100, .off⟩, ⟨1, 0, .active, 100, .off⟩]
    else []
  once := by intro p; cases p <;> decide
  condOff := 0#64
  denyMode := .fast
  scoreDeny := 0
  actionsMax := 8
  deadline := 1000
  exception := fun _ => .block

/-- A phase before its first wave in which no control action has been given yet. -/
def blank : St where
  state := .nextWave
  waiting := false
  wave := 0
  wavePublished := 0
  due := 0
  slot := none
  replies := fun _ => .zero
  got := 0#64
  published := 0#64
  personal := 0#64
  skipped := 0#64
  controlled := 0#64
  score := 0
  shadow := 0
  order := 0
  verdict := .allow
  decisive := none
  decisiveIndex := 0
  fail := .none
  code := .none
  byScore := false
  bodyPolicy := none
  locator := none
  live := none
  stale := []
  rewriteDepth := 0
  rewriteLast := 0
  rewriteApplied := 0#64
  ctl := fun _ => ⟨0#64, 0#64, 0#64, 0#64⟩
  connCtl := fun _ => ⟨0#64, 0#64, 0#64, 0#64⟩
  actions := []
  markers := []
  sessions := []
  ovrRequest := ⟨.none, .none⟩
  ovrResponse := ⟨.none, .none⟩

theorem blank_fresh : blank.Fresh := ⟨rfl, rfl, rfl, rfl, fun _ => rfl, rfl, rfl⟩

/-- Every message of the wave goes out. -/
def goesOut : StartIo := ⟨.ready, 1, fun _ => true, fun _ => true, fun _ => false⟩

/-- A control action on one inspector, in all phases. -/
def controlAction (verb : Verb) (i : Index) : Action where
  verb := verb
  addressee := some i
  toPhases := 0
  code := []
  apply := .request
  value := 0
  counter := []
  group := []
  set := 0
  marker := []
  spec := .none
  sender := 0
  phase := .request
  wave := 0
  passive := false

/-- A reply with a verdict and actions. -/
def answer (verdict : Verdict) (actions : List Action) : Reply :=
  { Reply.zero with verdict := verdict, actions := actions }

/-- Both inspectors allow. -/
theorem no_early_allow_pair :
    (runFrom (step pair) blank [.start goesOut, .reply 0 (answer .allow []) 5,
      .reply 1 (answer .allow []) 7]).wave + 1 = pair.waves.length :=
  (no_early_allow pair blank
    [.start goesOut, .reply 0 (answer .allow []) 5, .reply 1 (answer .allow []) 7] blank_fresh
    (by decide +kernel) (by decide +kernel) (by decide +kernel)).1

/-- Inspector 0 allows and makes inspector 1 passive, then inspector 1 turns out to have no
responders: the phase allows without a failure, and inspector 1, mandatory when its wave was
published, has not replied. -/
theorem allow_without_reply :
    ∃ fs io gs, Publishes pair (runFrom (step pair) blank fs) io ∧
      has (waveMandatory pair (runFrom (step pair) blank fs)
        ⟨bit 0 ||| bit 1, 0#64, 0#64, 0#64⟩) 1 = true ∧
      pair.waves[(runFrom (step pair) blank fs).wave]? =
        some ⟨bit 0 ||| bit 1, 0#64, 0#64, 0#64⟩ ∧
      has pair.condOff 1 = false ∧
      (runFrom (step pair) blank (fs ++ .start io :: gs)).state = .allow ∧
      (runFrom (step pair) blank (fs ++ .start io :: gs)).fail = .none ∧
      ((runFrom (step pair) blank (fs ++ .start io :: gs)).replies 1).received = false :=
  ⟨[], goesOut, [.reply 0 (answer .allow [controlAction .passive 1]) 5, .absent 1 true],
    by decide +kernel, by decide +kernel, by decide +kernel, by decide +kernel, by decide +kernel,
    by decide +kernel, by decide +kernel⟩

end Waves
