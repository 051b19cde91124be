import PlacitumNode.Wave.NoEarlyAllow

/-!
# Who can deny

The passive and the vote flag of an entry are those of the moment its reply is accounted, and the
decision reads them.  A third mode, off, leaves no flag: a refusal that arrives after its inspector
was switched off decides the phase (`off_inspector_denies`).  In every run without such a refusal
(`NoOffDeny`) a concluded phase denies exactly when an active inspector denied or the score has
reached its threshold (`deny_decided`).

* `waves_disjoint`: an inspector is asked in one wave only;
* `Once`: no inspector is accounted twice;
* `DeniedActive`: a refusal accounted from an active inspector.
-/

namespace Waves

open Flags Octets Slots Run

/-! ### Waves are disjoint -/

theorem has_foldl_add (bs : List Binding) (w : Wave) (i : Index) :
    has (bs.foldl Wave.add w).all i = true ↔ has w.all i = true ∨ ∃ b ∈ bs, b.index = i := by
  induction bs generalizing w with
  | nil => simp
  | cons b bs ih =>
    rw [List.foldl_cons, ih]
    simp only [Wave.add, has_or, has_bit, Bool.or_eq_true, decide_eq_true_eq, List.mem_cons,
      exists_eq_or_imp]
    tauto

/-- A wave holds the inspectors bound under its number. -/
theorem exists_binding_of_has {bs : List Binding} {n : ℕ} {w : Wave} {i : Index}
    (h : (match bs.filter (fun b => b.wave == n) with
      | [] => none
      | b :: bs => some ((b :: bs).foldl Wave.add .empty)) = some w)
    (hi : has w.all i = true) : ∃ b ∈ bs, b.index = i ∧ b.wave = n := by
  split at h
  · cases h
  · rename_i b l hl
    cases h
    rcases (has_foldl_add (b :: l) .empty i).1 hi with h0 | ⟨b', hb', hidx⟩
    · have : has Wave.empty.all i = false := by simp [Wave.empty, has]
      rw [this] at h0
      cases h0
    · rw [← hl] at hb'
      obtain ⟨hmem, hwave⟩ := List.mem_filter.1 hb'
      exact ⟨b', hmem, hidx, by simpa using hwave⟩

theorem wavesBuild_pairwise {bs : List Binding} (h : (bs.map Binding.index).Nodup) :
    (wavesBuild bs).Pairwise fun w w' => ∀ i, has w.all i = true → has w'.all i = false := by
  unfold wavesBuild
  rw [List.pairwise_filterMap]
  refine List.Pairwise.imp ?_ (List.nodup_range (n := 65))
  intro n n' hne w hw w' hw' i hi
  by_contra hcon
  rw [Bool.not_eq_false] at hcon
  obtain ⟨b, hb, hidx, hn⟩ := exists_binding_of_has hw hi
  obtain ⟨b', hb', hidx', hn'⟩ := exists_binding_of_has hw' hcon
  have hbb : b = b' := List.inj_on_of_nodup_map h hb hb' (hidx.trans hidx'.symm)
  apply hne
  rw [← hn, ← hn', hbb]

/-- An inspector is asked in one wave only. -/
theorem waves_disjoint {c : Conf} {k k' : ℕ} {w w' : Wave} {i : Index}
    (hk : c.waves[k]? = some w) (hk' : c.waves[k']? = some w') (hi : has w.all i = true)
    (hi' : has w'.all i = true) : k = k' := by
  have hpair := List.pairwise_iff_getElem.1 (wavesBuild_pairwise (c.once c.phase))
  obtain ⟨hlt, rfl⟩ := List.getElem?_eq_some_iff.1 hk
  obtain ⟨hlt', rfl⟩ := List.getElem?_eq_some_iff.1 hk'
  rcases lt_trichotomy k k' with h | h | h
  · have hf : has c.waves[k'].all i = false := hpair k k' hlt hlt' h i hi
    rw [hf] at hi'
    cases hi'
  · exact h
  · have hf : has c.waves[k].all i = false := hpair k' k hlt' hlt h i hi'
    rw [hf] at hi
    cases hi

variable {c : Conf} {w : Wave} {s t : St} {slot slot' : SlotRec} {i : Index}

/-! ### No inspector is accounted twice -/

/-- The inspector has been asked in an earlier wave. -/
def Earlier (c : Conf) (s : St) (i : Index) : Prop :=
  ∃ k w, k < s.wave ∧ c.waves[k]? = some w ∧ has w.all i = true

/-- Whoever has replied did so in an earlier wave or is counted as heard in the current one. -/
def Once (c : Conf) (s : St) : Prop :=
  (Idle s ∧ (s.state = .nextWave ∨ s.state = .needBody ∨ s.state = .placingMeta →
      ∀ i, (s.replies i).received = true → Earlier c s i)) ∨
    ∃ slot w, Awaits c s slot w ∧ ∀ i, (s.replies i).received = true →
      Earlier c s i ∨ has w.all i = true ∧ has slot.got i = true

theorem Once.shape (h : Once c s) : Shape c s := by
  rcases h with ⟨hidle, -⟩ | ⟨slot, w, ha, -⟩
  · exact Or.inl hidle
  · exact Or.inr ⟨slot, w, ha⟩

/-- Only inspectors that have not replied are accounted. -/
theorem Once.not_received (h : Once c s) (ha : Awaits c s slot w) (hacc : Accounts c slot w i) :
    (s.replies i).received = false := by
  obtain ⟨-, hall, hgot⟩ := hacc
  rw [Bool.eq_false_iff]
  intro hr
  rcases h with ⟨hidle, -⟩ | ⟨slot₁, w₁, ha₁, h₁⟩
  · have := ha.waiting
    rw [hidle.waiting] at this
    cases this
  · obtain rfl : slot₁ = slot := Option.some.inj (ha₁.slot.symm.trans ha.slot)
    rcases h₁ i hr with ⟨k, w', hk, hw', hall'⟩ | ⟨-, hg⟩
    · exact absurd (waves_disjoint hw' ha.wave hall' hall) (Nat.ne_of_lt hk)
    · rw [hgot] at hg
      cases hg

/-- The end of a wave all of whose replies are counted. -/
theorem once_endWave (hw : currentWave c t = some w)
    (h : ∀ i, (t.replies i).received = true → Earlier c t i ∨ has w.all i = true) :
    Once c (endWave c t slot) := by
  obtain ⟨-, -, -, hwave, hrep, -⟩ := rewriteSettle_frame c t slot
  refine Or.inl ⟨(endWave_frame c t slot).2.2.2, fun hst i hr => ?_⟩
  rw [(endWave_frame c t slot).1] at hr
  rcases endWave_cases c t slot with ⟨-, heq⟩ | ⟨-, heq⟩
  · unfold Earlier
    rw [heq]
    simp only [hwave]
    rcases h i hr with ⟨k, w', hk, hw', hall⟩ | hall
    · exact ⟨k, w', Nat.lt_succ_of_lt hk, hw', hall⟩
    · exact ⟨t.wave, w, Nat.lt_succ_self _, hw, hall⟩
  · exfalso
    rw [heq] at hst
    rcases conclude_state c (rewriteSettle c t slot) with h' | h' | h' | h' <;>
      rw [h'] at hst <;> simp at hst

theorem once_settle (ha : Awaits c t slot w)
    (h : ∀ i, (t.replies i).received = true →
      Earlier c t i ∨ has w.all i = true ∧ has slot.got i = true) : Once c (settle c t) := by
  rcases settle_cases (c := c) ha.slot with ⟨heq, -⟩ | ⟨heq, -⟩
  · rw [heq]
    exact Or.inr ⟨slot, w, ha, h⟩
  · rw [heq]
    exact once_endWave ha.wave fun i hi => (h i hi).imp id And.left

theorem once_resume (hslot : t.slot = some slot) : Once c (resume c t) := by
  refine Or.inl ⟨(resume_frame hslot).2.2.2.1, fun hst => ?_⟩
  exfalso
  rw [resume_of_slot hslot] at hst
  rcases conclude_state c (rewriteSettle c t slot) with h' | h' | h' | h' <;>
    rw [h'] at hst <;> simp at hst

theorem earlier_congr (h : t.wave = s.wave) : Earlier c t i ↔ Earlier c s i := by
  unfold Earlier
  rw [h]

theorem once_step {e : Event} (h : Once c s) : Once c (step c s e) := by
  rcases h with ⟨hidle, hrest⟩ | ⟨slot, w, ha, hgot⟩
  · have hstep := step_idle (c := c) hidle e
    generalize step c s e = s' at hstep ⊢
    have hpub : ∀ {w t slot}, s.state = .nextWave → Published c w s t slot →
        ∀ i, (t.replies i).received = true → Earlier c t i := by
      intro w t slot hst hp i hi
      obtain ⟨e', he⟩ := hp.replies i
      rw [he] at hi
      exact (earlier_congr hp.wave).2 (hrest (Or.inl hst) i hi)
    cases hstep with
    | stay _ => exact Or.inl ⟨hidle, hrest⟩
    | state st hold hst _ =>
      refine Or.inl ⟨⟨hidle.waiting, hidle.slot, ?_⟩, fun _ => hrest hold⟩
      rcases hst with rfl | rfl | rfl <;> simp
    | failed t code _ _ _ hwait _ =>
      refine Or.inl ⟨⟨hwait.trans hidle.waiting, rfl, by simp [startFailed]⟩, fun hst => ?_⟩
      simp [startFailed] at hst
    | closed io w t slot _ hp hw h _ =>
      exact once_endWave (h.wave_eq hw) fun i hi => Or.inl (hpub hp.1 h i hi)
    | awaits io w t slot _ hp hw h _ =>
      exact Or.inr ⟨slot, w, ⟨rfl, h.held, rfl, h.wave_eq hw⟩,
        fun i hi => Or.inl (hpub hp.1 h i hi)⟩
  · have hstep := step_await ha e
    generalize step c s e = s' at hstep ⊢
    cases hstep with
    | stay _ => exact Or.inr ⟨slot, w, ha, hgot⟩
    | reply j r now t slot' _ _ hacc hheard hgo =>
      have hnext : ∀ i, (t.replies i).received = true →
          Earlier c t i ∨ has w.all i = true ∧ has slot'.got i = true := by
        intro i hi
        rw [earlier_congr hheard.wave, hheard.got]
        by_cases hij : i = j
        · subst hij
          exact Or.inr ⟨hacc.2.1, by simp⟩
        · rw [hheard.other i hij] at hi
          refine (hgot i hi).imp id fun h => ⟨h.1, ?_⟩
          simp [h.2]
      rcases hgo with rfl | ⟨rfl, -⟩
      · exact once_settle (hheard.awaits ha) hnext
      · exact once_resume hheard.held
    | silent t slot' _ _ hs hor =>
      have hnext : ∀ i, (t.replies i).received = true →
          Earlier c t i ∨ has w.all i = true ∧ has slot'.got i = true := by
        intro i hi
        obtain ⟨e', he⟩ := hs.replies i
        rw [he] at hi
        rw [earlier_congr hs.wave]
        exact (hgot i hi).imp id fun h => ⟨h.1, hs.got i h.2⟩
      rcases hor with rfl | rfl
      · exact Or.inr ⟨slot', w, hs.awaits ha, hnext⟩
      · exact once_settle (hs.awaits ha) hnext
    | deadline now _ _ _ => exact once_resume ha.slot
    | late now _ _ => exact once_resume (t := { s with fail := .failTimeout }) ha.slot

theorem fresh_once (h : s.Fresh) : Once c s := by
  refine Or.inl ⟨⟨h.waiting, h.slot, by rw [h.state]; decide⟩, fun _ i hi => ?_⟩
  rw [h.replies i] at hi
  cases hi

/-! ### Refusals -/

/-- No refusal is accounted from an inspector that is switched off. -/
def NoOffDeny (c : Conf) (s : St) (e : Event) : Prop :=
  match e, s.slot, currentWave c s with
  | .reply i r _, some slot, some w =>
    s.waiting = true → i.val < c.ninspectors → has w.all i = true → has slot.got i = false →
      (msgReply c.phase r).verdict = .deny → has (waveOff c s w) i = false
  | _, _, _ => True

theorem noOffDeny_reply (c : Conf) (s : St) (i : Index) (r : Reply) (now : ℕ) :
    (∀ slot ∈ s.slot, ∀ w ∈ currentWave c s,
      s.waiting = true → i.val < c.ninspectors → has w.all i = true → has slot.got i = false →
        (msgReply c.phase r).verdict = .deny → has (waveOff c s w) i = false) ↔
      NoOffDeny c s (.reply i r now) := by
  unfold NoOffDeny
  cases s.slot with
  | none => simp
  | some slot =>
    cases currentWave c s with
    | none => simp
    | some w => simp

instance (c : Conf) (s : St) : (e : Event) → Decidable (NoOffDeny c s e)
  | .start _ => isTrue trivial
  | .resumed _ => isTrue trivial
  | .reply i r now => decidable_of_iff _ (noOffDeny_reply c s i r now)
  | .absent _ _ => isTrue trivial
  | .timer _ => isTrue trivial

/-- In the run a refusal of `i` was accounted while `i` was active: neither passive, nor a vote,
nor off. -/
def DeniedActive (c : Conf) (s : St) (es : List Event) (i : Index) : Prop :=
  ∃ fs r now gs slot w, es = fs ++ .reply i r now :: gs ∧
    Awaits c (runFrom (step c) s fs) slot w ∧ Accounts c slot w i ∧
    (msgReply c.phase r).verdict = .deny ∧
    has (wavePassive c (runFrom (step c) s fs) w) i = false ∧
    has (waveVote c (runFrom (step c) s fs) w) i = false ∧
    has (waveOff c (runFrom (step c) s fs) w) i = false

/-- A longer run adds the refusal of its last event. -/
theorem deniedActive_append {es : List Event} {e : Event} :
    DeniedActive c s (es ++ [e]) i ↔ DeniedActive c s es i ∨
      ∃ r now slot w, e = .reply i r now ∧ Awaits c (runFrom (step c) s es) slot w ∧
        Accounts c slot w i ∧ (msgReply c.phase r).verdict = .deny ∧
        has (wavePassive c (runFrom (step c) s es) w) i = false ∧
        has (waveVote c (runFrom (step c) s es) w) i = false ∧
        has (waveOff c (runFrom (step c) s es) w) i = false := by
  constructor
  · rintro ⟨fs, r, now, gs, slot, w, heq, h⟩
    rcases List.eq_nil_or_concat gs with rfl | ⟨gs', e', rfl⟩
    · obtain ⟨rfl, he⟩ := List.append_inj' heq rfl
      obtain rfl : e = .reply i r now := (List.cons.inj he).1
      exact Or.inr ⟨r, now, slot, w, rfl, h⟩
    · rw [List.concat_eq_append, ← List.cons_append, ← List.append_assoc] at heq
      obtain ⟨rfl, -⟩ := List.append_inj' heq rfl
      exact Or.inl ⟨fs, r, now, gs', slot, w, rfl, h⟩
  · rintro (⟨fs, r, now, gs, slot, w, rfl, h⟩ | ⟨r, now, slot, w, rfl, h⟩)
    · exact ⟨fs, r, now, gs ++ [e], slot, w, by simp, h⟩
    · exact ⟨es, r, now, [], slot, w, rfl, h⟩

theorem decides_of_state {v : Verdict} (h : ∃ e, t.replies i = { s.replies i with state := e }) :
    Decides c t v i ↔ Decides c s v i := by
  obtain ⟨e, he⟩ := h
  unfold Decides
  rw [he]

/-- A step that accounts no reply leaves the decision as it was. -/
theorem decides_step_of_no_reply {e : Event} {v : Verdict} (h : Shape c s)
    (hno : ∀ r now slot w, e = .reply i r now → Awaits c s slot w → ¬Accounts c slot w i) :
    Decides c (step c s e) v i ↔ Decides c s v i := by
  have hcongr : ∀ {s' t : St}, s'.replies = t.replies →
      (∃ e, t.replies i = { s.replies i with state := e }) →
      (Decides c s' v i ↔ Decides c s v i) := fun hr ht =>
    (decides_congr hr).trans (decides_of_state ht)
  rcases h with hidle | ⟨slot, w, ha⟩
  · have hstep := step_idle (c := c) hidle e
    generalize step c s e = s' at hstep ⊢
    cases hstep with
    | stay _ => exact Iff.rfl
    | state st _ _ _ => exact Iff.rfl
    | failed t code _ _ hrep _ _ => exact hcongr (t := t) rfl (hrep i)
    | closed io w t slot _ _ _ hp _ => exact hcongr (endWave_frame c t slot).1 (hp.replies i)
    | awaits io w t slot _ _ _ hp _ => exact hcongr (t := t) rfl (hp.replies i)
  · have hstep := step_await ha e
    generalize step c s e = s' at hstep ⊢
    cases hstep with
    | stay _ => exact Iff.rfl
    | reply j r now t slot' _ he hacc hheard hgo =>
      have hij : i ≠ j := by
        rintro rfl
        exact hno r now slot w he ha hacc
      have hrep : s'.replies = t.replies := by
        rcases hgo with rfl | ⟨rfl, -⟩
        · exact (settle_frame hheard.held).1
        · exact (resume_frame hheard.held).1
      exact hcongr hrep ⟨_, by rw [hheard.other i hij]⟩
    | silent t slot' _ _ hs hor =>
      rcases hor with rfl | rfl
      · exact hcongr rfl (hs.replies i)
      · exact hcongr (settle_frame hs.held).1 (hs.replies i)
    | deadline now _ _ _ => exact hcongr (resume_frame ha.slot).1 ⟨_, rfl⟩
    | late now _ _ =>
      exact hcongr (resume_frame (t := { s with fail := .failTimeout }) ha.slot).1 ⟨_, rfl⟩

/-- A step that accounts the reply of `i` lets it decide by the flags of this moment. -/
theorem decides_step_of_reply {r : Reply} {now : ℕ} {v : Verdict} (ha : Awaits c s slot w)
    (hacc : Accounts c slot w i) :
    Decides c (step c s (.reply i r now)) v i ↔ (msgReply c.phase r).verdict = v ∧
      has (wavePassive c s w) i = false ∧ has (waveVote c s w) i = false := by
  have hstep := step_await ha (.reply i r now)
  generalize step c s (.reply i r now) = s' at hstep ⊢
  cases hstep with
  | stay h => exact absurd hacc (h i r now rfl)
  | reply j r' now' t slot' _ he hacc' hheard hgo =>
    cases he
    have hrep : s'.replies = t.replies := by
      rcases hgo with rfl | ⟨rfl, -⟩
      · exact (settle_frame hheard.held).1
      · exact (resume_frame hheard.held).1
    obtain ⟨x, o, l, hown⟩ := hheard.own
    unfold Decides
    rw [hrep, hown]
    simp [hacc.1]
  | silent t slot' _ hne _ _ => exact absurd rfl (hne i r now)
  | deadline now' he _ _ => cases he
  | late now' he _ => cases he

/-- The entries that can decide for a denial are those of accounted active refusals. -/
theorem decides_deny_iff {es : List Event} (hfresh : s.Fresh)
    (hno : Along (step c) (NoOffDeny c) s es) :
    ∀ i, Decides c (runFrom (step c) s es) .deny i ↔ DeniedActive c s es i := by
  induction es using List.reverseRecOn with
  | nil =>
    intro i
    constructor
    · intro h
      have := h.2.1
      rw [runFrom_nil, hfresh.replies i] at this
      cases this
    · rintro ⟨fs, r, now, gs, slot, w, h, -⟩
      simp at h
  | append_singleton es e ih =>
    obtain ⟨hes, he, -⟩ := along_append.1 hno
    have honce : Once c (runFrom (step c) s es) :=
      invariant_always (fun _ _ => once_step) es (fresh_once hfresh)
    intro i
    rw [deniedActive_append, runFrom_append, runFrom_cons, runFrom_nil]
    by_cases hacc : ∃ r now slot w, e = .reply i r now ∧
        Awaits c (runFrom (step c) s es) slot w ∧ Accounts c slot w i
    · obtain ⟨r, now, slot, w, rfl, ha, hacc⟩ := hacc
      -- the inspector has not been heard before, so only this reply counts
      have hnot : ¬DeniedActive c s es i := by
        rw [← ih hes i]
        intro h
        have := h.2.1
        rw [honce.not_received ha hacc] at this
        cases this
      rw [decides_step_of_reply ha hacc, or_iff_right hnot]
      constructor
      · rintro ⟨hv, hp, hvote⟩
        refine ⟨r, now, slot, w, rfl, ha, hacc, hv, hp, hvote, ?_⟩
        unfold NoOffDeny at he
        rw [ha.slot, ha.wave] at he
        exact he ha.waiting hacc.1 hacc.2.1 hacc.2.2 hv
      · rintro ⟨r', now', slot', w', heq, ha', -, hv, hp, hvote, -⟩
        cases heq
        obtain rfl : w' = w := Option.some.inj (ha'.wave.symm.trans ha.wave)
        exact ⟨hv, hp, hvote⟩
    · rw [decides_step_of_no_reply honce.shape, ih hes i, or_iff_left]
      · rintro ⟨r, now, slot, w, heq, ha, hac, -⟩
        exact hacc ⟨r, now, slot, w, heq, ha, hac⟩
      · intro r now slot w heq ha hac
        exact hacc ⟨r, now, slot, w, heq, ha, hac⟩

/-- The state is the outcome of `ngx_http_waf_resolve_verdict` at the end of the phase. -/
def Concluded (c : Conf) (s : St) : Prop := ∃ t, s = conclude c t

theorem concluded_endWave (h : (endWave c t slot).state ≠ .nextWave) :
    Concluded c (endWave c t slot) := by
  rcases endWave_cases c t slot with ⟨-, heq⟩ | ⟨-, heq⟩
  · rw [heq] at h
    exact absurd rfl h
  · exact ⟨_, heq⟩

/-- A phase that allows, denies or redirects has been concluded. -/
theorem concluded_of_state {es : List Event} (hfresh : s.Fresh)
    (hst : (runFrom (step c) s es).state = .allow ∨ (runFrom (step c) s es).state = .deny ∨
      (runFrom (step c) s es).state = .redirect) : Concluded c (runFrom (step c) s es) := by
  induction es using List.reverseRecOn with
  | nil =>
    rw [runFrom_nil, hfresh.state] at hst
    simp at hst
  | append_singleton es e ih =>
    have honce : Once c (runFrom (step c) s es) :=
      invariant_always (fun _ _ => once_step) es (fresh_once hfresh)
    rw [runFrom_append, runFrom_cons, runFrom_nil] at hst ⊢
    generalize runFrom (step c) s es = s₁ at *
    have hsettle : ∀ {t : St} {slot : SlotRec} {w : Wave}, Awaits c t slot w →
        (settle c t).state = .waiting ∨ Concluded c (settle c t) ∨
          (settle c t).state = .nextWave := by
      intro t slot w ha
      rcases settle_cases (c := c) ha.slot with ⟨heq, -⟩ | ⟨heq, -⟩
      · exact Or.inl (by rw [heq, ha.state])
      · rw [heq]
        by_cases hn : (endWave c t slot).state = .nextWave
        · exact Or.inr (Or.inr hn)
        · exact Or.inr (Or.inl (concluded_endWave hn))
    rcases honce.shape with hidle | ⟨slot, w, ha⟩
    · have hstep := step_idle (c := c) hidle e
      generalize step c s₁ e = s' at hstep hst ⊢
      cases hstep with
      | stay _ => exact ih hst
      | state st _ hst' _ => rcases hst' with rfl | rfl | rfl <;> simp at hst
      | failed t code _ _ _ _ _ => simp [startFailed] at hst
      | closed io w t slot _ _ _ _ _ =>
        exact concluded_endWave (by rintro h; rw [h] at hst; simp at hst)
      | awaits io w t slot _ _ _ _ _ => simp at hst
    · have hstep := step_await ha e
      generalize step c s₁ e = s' at hstep hst ⊢
      cases hstep with
      | stay _ => rw [ha.state] at hst; simp at hst
      | reply i r now t slot' _ _ _ hheard hgo =>
        rcases hgo with rfl | ⟨rfl, -⟩
        · rcases hsettle (hheard.awaits ha) with h | h | h
          · rw [h] at hst; simp at hst
          · exact h
          · rw [h] at hst; simp at hst
        · exact ⟨_, resume_of_slot hheard.held⟩
      | silent t slot' _ _ hs hor =>
        rcases hor with rfl | rfl
        · rw [(hs.awaits ha).state] at hst; simp at hst
        · rcases hsettle (hs.awaits ha) with h | h | h
          · rw [h] at hst; simp at hst
          · exact h
          · rw [h] at hst; simp at hst
      | deadline now _ _ _ => exact ⟨_, resume_of_slot ha.slot⟩
      | late now _ _ =>
        exact ⟨_, resume_of_slot (s := { s₁ with fail := .failTimeout }) ha.slot⟩

/-- What a conclusion decides, read off the entries and the score. -/
theorem conclude_deny_iff (c : Conf) (t : St) :
    ((conclude c t).verdict = .deny ↔
      (∃ i, Decides c (conclude c t) .deny i) ∨ scoreDenies c (conclude c t)) ∧
    ((∃ i, Decides c (conclude c t) .deny i) →
      ∃ i, (conclude c t).decisive = some i ∧ (conclude c t).decisiveIndex = i.val ∧
        Decides c (conclude c t) .deny i) := by
  obtain ⟨-, -, -, hrep, -, hscore, -⟩ := conclude_frame c t
  have hdec : ∀ i, Decides c (conclude c t) .deny i ↔ Decides c t .deny i :=
    fun i => decides_congr hrep
  have hsc : scoreDenies c (conclude c t) ↔ scoreDenies c t := by unfold scoreDenies; rw [hscore]
  simp only [hdec, hsc]
  unfold conclude failPass resolveVerdict
  simp only
  split
  · rename_i i hi
    have hi' : Decides c t .deny i := pick_some hi
    refine ⟨iff_of_true rfl (Or.inl ⟨i, hi'⟩), fun _ => ⟨i, rfl, rfl, hi'⟩⟩
  · rename_i hdeny
    have hnone : ¬∃ i, Decides c t .deny i := fun ⟨i, hi⟩ => pick_eq_none_iff.1 hdeny i hi
    refine ⟨?_, fun h => absurd h hnone⟩
    rw [or_iff_right hnone]
    split
    · rename_i hs
      exact iff_of_true rfl hs
    · rename_i hs
      refine iff_of_false ?_ hs
      split <;> split_ifs <;> simp

/-- **Deny is decided by active inspectors or by the score.** In every run from a fresh phase that
accounts no refusal of an inspector switched off, a concluded phase denies if and only if a refusal
of an active inspector was accounted or the score has reached its threshold, and in the first case
the decisive inspector is one of them. -/
theorem deny_decided (c : Conf) (s : St) (es : List Event) (hfresh : s.Fresh)
    (hno : Along (step c) (NoOffDeny c) s es) (hconcl : Concluded c (runFrom (step c) s es)) :
    ((runFrom (step c) s es).verdict = .deny ↔
      (∃ i, DeniedActive c s es i) ∨
        0 < c.scoreDeny ∧ c.scoreDeny ≤ (runFrom (step c) s es).score) ∧
    ((∃ i, DeniedActive c s es i) →
      ∃ i, (runFrom (step c) s es).decisive = some i ∧
        (runFrom (step c) s es).decisiveIndex = i.val ∧ DeniedActive c s es i) := by
  have hiff := decides_deny_iff hfresh hno
  obtain ⟨t, ht⟩ := hconcl
  obtain ⟨h₁, h₂⟩ := conclude_deny_iff c t
  rw [← ht] at h₁ h₂
  simp only [hiff] at h₁ h₂
  exact ⟨h₁, h₂⟩

/-- Inspector 1 denies while it is active. -/
theorem deny_decided_pair :
    ((runFrom (step pair) blank [.start goesOut, .reply 1 (answer .deny []) 5]).verdict = .deny ↔
      (∃ i, DeniedActive pair blank [.start goesOut, .reply 1 (answer .deny []) 5] i) ∨
        0 < pair.scoreDeny ∧ pair.scoreDeny ≤
          (runFrom (step pair) blank [.start goesOut, .reply 1 (answer .deny []) 5]).score) :=
  (deny_decided pair blank [.start goesOut, .reply 1 (answer .deny []) 5] blank_fresh
    (by decide +kernel) (concluded_of_state blank_fresh (by decide +kernel))).1

/-- Inspector 0 allows and switches inspector 1 off, then inspector 1 denies. -/
def denyAfterOff : List Event :=
  [.start goesOut, .reply 0 (answer .allow [controlAction .off 1]) 5, .reply 1 (answer .deny []) 7]

/-- A refusal that arrives after its inspector was switched off denies the request, although no
active inspector denied and there is no score. -/
theorem off_inspector_denies :
    (runFrom (step pair) blank denyAfterOff).verdict = .deny ∧
      (runFrom (step pair) blank denyAfterOff).state = .deny ∧
      (¬∃ i, DeniedActive pair blank denyAfterOff i) ∧
      ¬(0 < pair.scoreDeny ∧ pair.scoreDeny ≤ (runFrom (step pair) blank denyAfterOff).score) := by
  refine ⟨by decide +kernel, by decide +kernel, ?_, by decide +kernel⟩
  rintro ⟨i, fs, r, now, gs, slot, w, heq, ha, hacc, hv, -, -, hoff⟩
  rcases fs with _ | ⟨e₁, _ | ⟨e₂, _ | ⟨e₃, fs⟩⟩⟩
  · simp [denyAfterOff] at heq
  · simp only [denyAfterOff, List.cons_append, List.nil_append, List.cons.injEq,
      Event.reply.injEq] at heq
    obtain ⟨-, ⟨-, rfl, -⟩, -⟩ := heq
    exact absurd hv (by decide)
  · simp only [denyAfterOff, List.cons_append, List.nil_append, List.cons.injEq,
      Event.reply.injEq] at heq
    obtain ⟨rfl, rfl, ⟨rfl, -, -⟩, -⟩ := heq
    have hw := ha.wave
    rw [show currentWave pair (runFrom (step pair) blank
      [.start goesOut, .reply 0 (answer .allow [controlAction .off 1]) 5]) =
        some ⟨bit 0 ||| bit 1, 0#64, 0#64, 0#64⟩ by decide +kernel] at hw
    cases hw
    exact absurd hoff (by decide +kernel)
  · simp [denyAfterOff] at heq

end Waves
