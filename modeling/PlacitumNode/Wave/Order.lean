import PlacitumNode.Wave.Blend
import PlacitumNode.Wave.Ledger

/-!
# The order of the replies of a wave

With `waf_deny_mode deterministic` the outcome of a phase does not depend on the order in which
the replies of a wave arrive, as long as they do not interfere.

* `Separate`, `Independent`: the replies do not interfere;
* `Separate.tail`, `step_reply`, `step_ends`: one of the replies;
* `arrivals_view`, `arrivals_end`: all of them, up to the first that ends the phase;
* `St.outcome`, `outcome_of_end`: the outcome, before the exception policy;
* `order_independent`: it is the same for every order.
-/

namespace Waves

open Flags Octets Slots Run

/-! ### Replies that do not interfere -/

/-- Inspectors that are awaited and have not answered. -/
def Open (c : Conf) (slot : SlotRec) (w : Wave) (is : List Index) : Prop :=
  is.Nodup ∧ ∀ i ∈ is, Accounts c slot w i ∧ has slot.awaited i = true

/-- The control verb names the mode of the inspector `j`, as far as its reply `r` depends on it. -/
structure Suits (c : Conf) (s : St) (w : Wave) (j : Index) (r : Reply) (v : Verb) : Prop where
  passive : has (wavePassive c s w) j = decide (v = .passive)
  vote : has (waveVote c s w) j = decide (v = .vote)
  gating : r.verdict = .error → has (waveGating c s w) j = decide (v = .active)

/-- The reply of `i` is an error that ends the phase at once: its inspector gates the wave, its own
actions taken into account. -/
def Ends (c : Conf) (s : St) (slot : SlotRec) (w : Wave) (rs : Index → Reply) (i : Index) : Prop :=
  (rs i).verdict = .error ∧
    ((lastSwitch c i ((entry c s slot w rs i).merged c i)).elim (has (waveGating c s w) i)
      fun v => decide (v = .active)) = true

/-- An entry that refuses and can decide. -/
def Reply.rules (e : Reply) : Prop := e.refuses ∧ e.passive = false ∧ e.vote = false

/-- The score of the phase once the replies of `js` are in and nothing is cut off. -/
def total (c : Conf) (s : St) (slot : SlotRec) (w : Wave) (rs : Index → Reply) (js : List Index) :
    ℤ :=
  s.score + (js.map fun i => (entry c s slot w rs i).gain).sum

/-- The replies of the inspectors `is` leave each other alone: none switches the mode of another of
these inspectors, the list has room for all their actions, and, where scores count, no score action
is cut off at zero, whichever of the other replies came before. -/
structure Separate (c : Conf) (s : St) (slot : SlotRec) (w : Wave) (rs : Index → Reply)
    (is : List Index) : Prop where
  leaves : ∀ i ∈ is, ∀ j ∈ is, i ≠ j →
    ∀ v ∈ lastSwitch c j ((entry c s slot w rs i).merged c i), Suits c s w j (rs j) v
  room : HasRoom c s (is.flatMap fun i => (entry c s slot w rs i).merged c i)
  floor : 0 < c.scoreDeny → ∀ js i, (js ++ [i]).Subperm is →
    0 ≤ total c s slot w rs js + (entry c s slot w rs i).low

/-- The replies leave each other alone, and so they do what comes after them: if one ends the phase,
none refuses and their scores do not reach the threshold; otherwise no two of them leave an inspector
of the phase in different modes. -/
structure Independent (c : Conf) (s : St) (slot : SlotRec) (w : Wave) (rs : Index → Reply)
    (is : List Index) : Prop extends Separate c s slot w rs is where
  alone : ∀ i ∈ is, Ends c s slot w rs i → (∀ j ∈ is, ¬(entry c s slot w rs j).rules) ∧
    (0 < c.scoreDeny → ∀ js : List Index, js.Subperm is → total c s slot w rs js < c.scoreDeny)
  agree : (∀ i ∈ is, ¬Ends c s slot w rs i) → ∀ i ∈ is, ∀ j ∈ is, i ≠ j →
    ∀ k, has (phaseAll c) k = true → ∀ u ∈ lastSwitch c k ((entry c s slot w rs i).merged c i),
      ∀ v ∈ lastSwitch c k ((entry c s slot w rs j).merged c j), u = v

/-- The replies as the codec hands them over. -/
def decoded (c : Conf) (rs : Index → Reply) (i : Index) : Reply := msgReply c.phase (rs i)

/-- The replies arrive one after the other; `xs` lists their senders and times. -/
def arrivals (rs : Index → Reply) (xs : List (Index × ℕ)) : List Event :=
  xs.map fun x => .reply x.1 (rs x.1) x.2

section Arrivals

variable {c : Conf} {s : St} {slot : SlotRec} {w : Wave} {i j : Index} {now : ℕ}
  {rs : Index → Reply} {is : List Index}

/-- The first of separate replies loses nothing. -/
theorem Separate.lossless (h : Separate c s slot w rs (i :: is)) : Lossless c s slot w rs i := by
  have hroom := h.room
  rw [List.flatMap_cons] at hroom
  refine ⟨hroom.left, fun hd => ?_⟩
  have hfloor := h.floor hd [] i ((List.subperm_cons i).2 List.nil_subperm)
  simpa [total] using hfloor

/-- A control action that is not refused puts an inspector of the wave in the mode it names. -/
theorem modes_of_flags {t : St} {v : Verb} (hall : has w.all j = true) (hv : v.control = true)
    (h : (t.ctl c.phase).flags j = v.flags) :
    has (wavePassive c t w) j = decide (v = .passive) ∧
      has (waveVote c t w) j = decide (v = .vote) ∧
      has (waveGating c t w) j = decide (v = .active) := by
  simp only [Control.flags, Verb.flags, Prod.mk.injEq] at h
  obtain ⟨h₁, h₂, h₃, h₄⟩ := h
  cases v <;> simp_all [waveGating, waveMandatory, wavePassive, waveVote, waveOff, Verb.control]

/-- The flags of the inspectors of the phase once a reply is absorbed. -/
theorem absorb_flags (hslot : s.slot = some slot) (hn : i.val < c.ninspectors)
    (hred : (rs i).verdict = .redirect → c.phase = .request) (h : Lossless c s slot w rs i)
    {k : Index} (hk : has (phaseAll c) k = true) :
    ((absorb c s slot w i (rs i) now).ctl c.phase).flags k =
      (lastSwitch c k ((entry c s slot w rs i).merged c i)).elim ((s.ctl c.phase).flags k)
        Verb.flags := by
  have hview := @absorb_view _ _ _ w _ now _ hslot hn hred h
  have hctl : ((absorb c s slot w i (rs i) now).ctl c.phase).on (phaseAll c) =
      (runFrom (ctlStep c) ((s.ctl c.phase).on (phaseAll c))
        ((entry c s slot w rs i).merged c i)).on (phaseAll c) :=
    congrFun (congrArg (fun x => x.core.ctl) hview) c.phase
  rw [run_on (Control.on_on _ _)] at hctl
  rw [Control.on_eq_iff.1 hctl k hk, run_flags]

theorem absorb_ctl {r : Reply} :
    (absorb c s slot w i r now).ctl = (accept c s slot w i r now).ctl := by
  unfold absorb
  split_ifs <;> rfl

/-- An error ends the phase at once exactly when its inspector gates the wave after it. -/
theorem ends_iff (ha : Awaits c s slot w) (hacc : Accounts c slot w i)
    (hred : (rs i).verdict = .redirect → c.phase = .request) (h : Lossless c s slot w rs i) :
    Ends c s slot w rs i ↔ (rs i).verdict = .error ∧
      has (waveGating c (accept c s slot w i (rs i) now) w) i = true := by
  have hflags := @absorb_flags _ _ _ w _ now _ ha.slot hacc.1 hred h i
    (has_phaseAll (wave_mem ha.wave) hacc.2.1)
  rw [absorb_ctl] at hflags
  unfold Ends
  refine and_congr_right' ?_
  cases hlast : lastSwitch c i ((entry c s slot w rs i).merged c i) with
  | none =>
    rw [hlast] at hflags
    simp only [Option.elim_none, Control.flags, Prod.mk.injEq] at hflags ⊢
    rw [(modes_congr_flag hflags.1 hflags.2.1 hflags.2.2.1 hflags.2.2.2).2.2.2]
  | some v =>
    rw [hlast] at hflags
    rw [(modes_of_flags hacc.2.1 (lastSwitch_control hlast) hflags).2.2]
    rfl

/-- What an absorbed reply leaves of the mode of another inspector, as far as its reply depends on
it. -/
theorem Separate.modes (h : Separate c s slot w rs (i :: is)) (ha : Awaits c s slot w)
    (hn : i.val < c.ninspectors) (hred : (rs i).verdict = .redirect → c.phase = .request)
    (hj : j ∈ is) (hij : i ≠ j) (hall : has w.all j = true) :
    has (wavePassive c (absorb c s slot w i (rs i) now) w) j = has (wavePassive c s w) j ∧
      has (waveVote c (absorb c s slot w i (rs i) now) w) j = has (waveVote c s w) j ∧
      ((rs j).verdict = .error →
        has (waveGating c (absorb c s slot w i (rs i) now) w) j = has (waveGating c s w) j) := by
  have hflags := @absorb_flags _ _ _ w _ now _ ha.slot hn hred h.lossless j
    (has_phaseAll (wave_mem ha.wave) hall)
  cases hlast : lastSwitch c j ((entry c s slot w rs i).merged c i) with
  | none =>
    rw [hlast] at hflags
    simp only [Option.elim_none, Control.flags, Prod.mk.injEq] at hflags
    obtain ⟨h₁, h₂, -, h₄⟩ :=
      modes_congr_flag (w := w) hflags.1 hflags.2.1 hflags.2.2.1 hflags.2.2.2
    exact ⟨h₁, h₂, fun _ => h₄⟩
  | some v =>
    rw [hlast] at hflags
    obtain ⟨h₁, h₂, h₃⟩ := modes_of_flags hall (lastSwitch_control hlast) hflags
    have hsuits := h.leaves i List.mem_cons_self j (List.mem_cons_of_mem i hj) hij v hlast
    exact ⟨h₁.trans hsuits.passive.symm, h₂.trans hsuits.vote.symm,
      fun he => h₃.trans (hsuits.gating he).symm⟩

/-- The state after a reply is absorbed still awaits the wave. -/
theorem absorb_awaits {r : Reply} (ha : Awaits c s slot w)
    (hred : r.verdict = .redirect → c.phase = .request) :
    ∃ slot', Awaits c (absorb c s slot w i r now) slot' w ∧ slot'.wave = slot.wave ∧
      slot'.awaited = slot.awaited ∧ slot'.got = slot.got ||| bit i := by
  have hfr := @frame_accept c s slot w i _ now hred
  have hsl : (accept c s slot w i r now).slot = some { slot with got := slot.got ||| bit i } :=
    hfr.slot
  have hw : (accept c s slot w i r now).wave = s.wave := hfr.wave
  have hwave : c.waves[(accept c s slot w i r now).wave]? = some w := by
    rw [hw]
    exact ha.wave
  unfold absorb
  split_ifs
  · exact ⟨{ slot with got := slot.got ||| bit i, denied := slot.denied ||| bit i },
      ⟨hfr.waiting.trans ha.waiting, by simp only [hsl, Option.map_some], hfr.state.trans ha.state,
        hwave⟩, rfl, rfl, rfl⟩
  · exact ⟨_, ⟨hfr.waiting.trans ha.waiting, hsl, hfr.state.trans ha.state, hwave⟩, rfl, rfl, rfl⟩

/-- **One of the replies** is absorbed: the others are awaited as before, and still leave each other
alone. -/
theorem Separate.tail (h : Separate c s slot w rs (i :: is)) (ha : Awaits c s slot w)
    (hred : (rs i).verdict = .redirect → c.phase = .request) (hopen : Open c slot w (i :: is)) :
    ∃ slot', Awaits c (absorb c s slot w i (rs i) now) slot' w ∧ Open c slot' w is ∧
      (∀ j ∈ is, entry c (absorb c s slot w i (rs i) now) slot' w rs j = entry c s slot w rs j) ∧
      (∀ j ∈ is, Ends c (absorb c s slot w i (rs i) now) slot' w rs j ↔ Ends c s slot w rs j) ∧
      Separate c (absorb c s slot w i (rs i) now) slot' w rs is := by
  obtain ⟨hnodup, hacc⟩ := hopen
  obtain ⟨hi, hnodup⟩ := List.nodup_cons.1 hnodup
  have hn := (hacc i List.mem_cons_self).1.1
  obtain ⟨slot', ha', hw', haw', hgot'⟩ := @absorb_awaits _ _ _ _ i now (rs i) ha hred
  have hview := @absorb_view _ _ _ w _ now _ ha.slot hn hred h.lossless
  have hne : ∀ j ∈ is, i ≠ j := fun j hj hx => hi (hx ▸ hj)
  have hmodes := fun j (hj : j ∈ is) => @Separate.modes _ _ _ _ _ _ now _ _ h ha hn hred hj
    (hne j hj) (hacc j (List.mem_cons_of_mem i hj)).1.2.1
  have hentry : ∀ j ∈ is,
      entry c (absorb c s slot w i (rs i) now) slot' w rs j = entry c s slot w rs j := by
    intro j hj
    unfold entry
    rw [hw', (hmodes j hj).1, (hmodes j hj).2.1]
  refine ⟨slot', ha', ⟨hnodup, fun j hj => ?_⟩, hentry, fun j hj => ?_, ⟨?_, ?_, fun hd => ?_⟩⟩
  · obtain ⟨⟨hnj, hall, hgot⟩, haw⟩ := hacc j (List.mem_cons_of_mem i hj)
    exact ⟨⟨hnj, hall, by simp [hgot', hgot, hne j hj]⟩, by rw [haw']; exact haw⟩
  · unfold Ends
    rw [hentry j hj]
    refine and_congr_right fun he => ?_
    rw [(hmodes j hj).2.2 he]
  · intro k hk j hj hkj v hv
    rw [hentry k hk] at hv
    obtain ⟨h₁, h₂, h₃⟩ :=
      h.leaves k (List.mem_cons_of_mem i hk) j (List.mem_cons_of_mem i hj) hkj v hv
    obtain ⟨g₁, g₂, g₃⟩ := hmodes j hj
    exact ⟨g₁.trans h₁, g₂.trans h₂, fun he => (g₃ he).trans (h₃ he)⟩
  · have hroom := h.room
    have hkeys : keys (absorb c s slot w i (rs i) now).actions =
        runFrom (keyStep c) (keys s.actions) ((entry c s slot w rs i).merged c i) :=
      congrArg View.keys hview
    have hextra : (absorb c s slot w i (rs i) now).extra = s.extra := congrArg View.extra hview
    unfold HasRoom at hroom ⊢
    rw [List.flatMap_cons, runFrom_append] at hroom
    rw [hkeys, hextra, List.flatMap_congr fun j hj => by rw [hentry j hj]]
    exact hroom
  · intro js k hsub
    have hmem : ∀ j ∈ js ++ [k], j ∈ is := fun j hj => hsub.subset hj
    have hscore : (absorb c s slot w i (rs i) now).score =
        s.score + (entry c s slot w rs i).gain := by
      have hcore := congrArg (fun x => x.core.score) hview
      simpa [St.view, St.core, blend, blendCore, hd] using hcore
    have hold := h.floor hd (i :: js) k ((List.subperm_cons i).2 hsub)
    have hsum : (js.map fun j => (entry c (absorb c s slot w i (rs i) now) slot' w rs j).gain) =
        js.map fun j => (entry c s slot w rs j).gain :=
      List.map_congr_left fun j hj => by rw [hentry j (hmem j (List.mem_append_left _ hj))]
    rw [hentry k (hmem k (by simp))]
    unfold total at hold ⊢
    rw [hsum, hscore]
    rw [List.map_cons, List.sum_cons] at hold
    omega

/-! ### The replies of a wave -/

theorem step_replyIn (ha : Awaits c s slot w) (hn : i.val < c.ninspectors) :
    step c s (.reply i (rs i) now) = replyIn c s slot w i (decoded c rs i) now := by
  simp only [step]
  rw [if_pos ⟨ha.waiting, hn⟩]
  simp only [onReply, ha.slot, ha.wave]
  rfl

/-- A reply that does not end the phase at once is absorbed, and the wave is settled. -/
theorem step_reply (hdet : c.denyMode = .deterministic) (ha : Awaits c s slot w)
    (hacc : Accounts c slot w i) (h : Lossless c s slot w (decoded c rs) i)
    (hno : ¬Ends c s slot w (decoded c rs) i) :
    step c s (.reply i (rs i) now) = settle c (absorb c s slot w i (decoded c rs i) now) := by
  have hred := msgReply_redirect c.phase (rs i)
  rw [@ends_iff _ _ _ _ _ now _ ha hacc hred h] at hno
  rw [step_replyIn ha hacc.1]
  obtain ⟨-, hall, hgot⟩ := hacc
  generalize decoded c rs i = r at hno ⊢
  unfold replyIn absorb
  simp only [hdet, reduceCtorEq, false_and, if_false]
  rw [if_neg (by simp [hall, hgot])]
  by_cases hv : r.verdict = .error
  · have hnr : ¬r.refuses := by simp [Reply.refuses, hv]
    rw [if_pos hv, if_neg fun hg => hno ⟨hv, hg⟩, if_neg hnr]
  · rw [if_neg hv]
    by_cases hr : r.verdict = .deny ∨ r.verdict = .redirect
    · rw [if_pos hr, if_pos (show r.refuses from hr)]
    · rw [if_neg hr, if_neg (show ¬r.refuses from hr)]

/-- A reply that ends the phase is accepted, and the phase is concluded with its failure. -/
theorem step_ends (ha : Awaits c s slot w) (hacc : Accounts c slot w i)
    (h : Lossless c s slot w (decoded c rs) i) (hends : Ends c s slot w (decoded c rs) i) :
    step c s (.reply i (rs i) now) =
      resume c { absorb c s slot w i (decoded c rs i) now with fail := (decoded c rs i).failCode } := by
  have hred := msgReply_redirect c.phase (rs i)
  rw [@ends_iff _ _ _ _ _ now _ ha hacc hred h] at hends
  rw [step_replyIn ha hacc.1]
  obtain ⟨-, hall, hgot⟩ := hacc
  generalize decoded c rs i = r at hends ⊢
  have hnr : ¬r.refuses := by simp [Reply.refuses, hends.1]
  unfold replyIn absorb
  rw [if_neg (by simp [hall, hgot]), if_neg hnr]
  simp only
  rw [if_pos hends.1, if_pos hends.2]

/-- A wave that still awaits a reply is not settled. -/
theorem settle_of_awaited (ha : Awaits c s slot w) (hi : Accounts c slot w i)
    (haw : has slot.awaited i = true) : settle c s = s := by
  rw [settle_of_slot ha.slot, if_pos]
  refine Or.inr fun hclosed => ?_
  have hgot := and_eq_right_iff.1 hclosed i haw
  rw [hi.2.2] at hgot
  cases hgot

theorem foldl_blend_congr {es es' : Index → Reply} {js : List Index} (h : ∀ j ∈ js, es j = es' j)
    (x : View) : js.foldl (blend c es) x = js.foldl (blend c es') x := by
  refine List.foldl_ext _ _ _ fun y j hj => ?_
  unfold blend
  rw [h j hj]

/-- **The replies of a wave.** Replies that leave each other alone, none of which ends the phase, are
absorbed one after the other; only the last one can settle the wave. -/
theorem arrivals_view (hdet : c.denyMode = .deterministic) (xs : List (Index × ℕ)) :
    ∀ {s slot}, xs ≠ [] → Awaits c s slot w → Open c slot w (xs.map Prod.fst) →
      Separate c s slot w (decoded c rs) (xs.map Prod.fst) →
      (∀ i ∈ xs.map Prod.fst, ¬Ends c s slot w (decoded c rs) i) →
      ∃ t, runFrom (step c) s (arrivals rs xs) = settle c t ∧ t.view c =
        (xs.map Prod.fst).foldl (blend c (entry c s slot w (decoded c rs))) (s.view c) := by
  induction xs with
  | nil => exact fun h => absurd rfl h
  | cons x xs ih =>
    intro s slot _ ha hopen hsep hno
    obtain ⟨i, now⟩ := x
    rw [List.map_cons] at hopen hsep hno ⊢
    have hacc := (hopen.2 i List.mem_cons_self).1
    have hred := msgReply_redirect c.phase (rs i)
    have hview := @absorb_view _ _ _ _ _ now (decoded c rs) ha.slot hacc.1 hred hsep.lossless
    have hstep := @step_reply _ _ _ _ _ now _ hdet ha hacc hsep.lossless (hno i List.mem_cons_self)
    obtain ⟨slot', ha', hopen', hentry, hends, hsep'⟩ :=
      @Separate.tail _ _ _ _ _ now _ _ hsep ha hred hopen
    rw [List.foldl_cons, ← hview]
    simp only [arrivals, List.map_cons, runFrom_cons]
    rw [hstep]
    -- Before the last reply another one is awaited, so that the wave is not settled.
    cases xs with
    | nil => exact ⟨_, rfl, rfl⟩
    | cons y ys =>
      obtain ⟨hy, hyaw⟩ := hopen'.2 y.1 (by simp)
      rw [settle_of_awaited ha' hy hyaw, ← foldl_blend_congr hentry]
      exact ih (by simp) ha' hopen' hsep'
        fun j hj => (hends j hj).not.2 (hno j (List.mem_cons_of_mem i hj))

/-- A phase that is concluded stays as it is. -/
theorem run_over (h : Idle s)
    (hst : s.state ≠ .nextWave ∧ s.state ≠ .needBody ∧ s.state ≠ .placingMeta) (es : List Event) :
    runFrom (step c) s es = s := by
  induction es with
  | nil => rfl
  | cons e es ih => rw [runFrom_cons, step_over h hst, ih]

theorem run_resumed (hslot : s.slot = some slot) (es : List Event) :
    runFrom (step c) (resume c s) es = resume c s := by
  refine run_over (resume_frame hslot).2.2.2.1 ?_ es
  rw [resume_of_slot hslot]
  rcases conclude_state c (rewriteSettle c s slot) with h | h | h | h <;> rw [h] <;> decide

/-- **Up to the first that ends the phase.** When one of the replies ends the phase, those before the
first such reply are absorbed, and so is this one; nothing changes after it. -/
theorem arrivals_end (hdet : c.denyMode = .deterministic) (xs : List (Index × ℕ)) :
    ∀ {s slot}, Awaits c s slot w → Open c slot w (xs.map Prod.fst) →
      Separate c s slot w (decoded c rs) (xs.map Prod.fst) →
      (∃ i ∈ xs.map Prod.fst, Ends c s slot w (decoded c rs) i) →
      ∃ (js : List Index) (y : St) (slot' : SlotRec),
        js.Subperm (xs.map Prod.fst) ∧ y.slot = some slot' ∧ y.fail ≠ .none ∧
        y.core c = { (js.foldl (blend c (entry c s slot w (decoded c rs))) (s.view c)).core with
          fail := y.fail } ∧
        runFrom (step c) s (arrivals rs xs) = resume c y := by
  induction xs with
  | nil =>
    rintro s slot _ _ _ ⟨i, hi, -⟩
    cases hi
  | cons x xs ih =>
    intro s slot ha hopen hsep hex
    obtain ⟨i, now⟩ := x
    rw [List.map_cons] at hopen hsep hex ⊢
    have hacc := (hopen.2 i List.mem_cons_self).1
    have hred := msgReply_redirect c.phase (rs i)
    have hview := @absorb_view _ _ _ _ _ now (decoded c rs) ha.slot hacc.1 hred hsep.lossless
    obtain ⟨slot', ha', hopen', hentry, hends, hsep'⟩ :=
      @Separate.tail _ _ _ _ _ now _ _ hsep ha hred hopen
    simp only [arrivals, List.map_cons, runFrom_cons]
    -- Either the first reply ends the phase, or it is absorbed and a later one does.
    by_cases hi : Ends c s slot w (decoded c rs) i
    · have hstep := @step_ends _ _ _ _ _ now _ ha hacc hsep.lossless hi
      refine ⟨[i], { absorb c s slot w i (decoded c rs i) now with
        fail := (decoded c rs i).failCode }, slot', (List.subperm_cons i).2 List.nil_subperm, ha'.slot,
        ?_, ?_, ?_⟩
      · simp only [Reply.failCode]
        split_ifs <;> decide
      · rw [List.foldl_cons, List.foldl_nil, ← hview]
        rfl
      · rw [hstep]
        apply run_resumed
        exact ha'.slot
    · obtain ⟨j, hj, hjends⟩ := hex
      have hj' : j ∈ xs.map Prod.fst := by
        rcases List.mem_cons.1 hj with rfl | hj
        · exact absurd hjends hi
        · exact hj
      obtain ⟨hacc', haw'⟩ := hopen'.2 j hj'
      obtain ⟨js, y, slot'', hsub, hslot, hfail, hcore, hrun⟩ :=
        ih ha' hopen' hsep' ⟨j, hj', (hends j hj').2 hjends⟩
      refine ⟨i :: js, y, slot'', (List.subperm_cons i).2 hsub, hslot, hfail, ?_, ?_⟩
      · rw [hcore, foldl_blend_congr fun k hk => hentry k (hsub.subset hk), hview,
          List.foldl_cons]
      · rw [step_reply hdet ha hacc hsep.lossless hi, settle_of_awaited ha' hacc' haw']
        exact hrun

end Arrivals

/-! ### The outcome -/

/-- The state of a phase before the exception policy is applied to its failure. -/
def St.unexcused (s : St) : State := if s.state = .allow ∧ s.fail ≠ .none then .failed else s.state

/-- The outcome of a phase: its state before the exception policy, the verdict, and the decisive
inspector. -/
def St.outcome (s : St) : State × Verdict × Option Index × ℕ :=
  (s.unexcused, s.verdict, s.decisive, s.decisiveIndex)

section Outcome

variable {c : Conf} {s t : St}

/-- The exception policy lets a failed phase pass; before it, the phase was in this state. -/
theorem conclude_unexcused (c : Conf) (s : St) : (conclude c s).unexcused =
    (resolveVerdict c { s with slot := none, waiting := false }).state := by
  have hfail : (resolveVerdict c { s with slot := none, waiting := false }).fail = s.fail := by
    unfold resolveVerdict
    simp only
    split
    · rfl
    · split
      · rfl
      · split <;> rfl
  -- A pass has no failure, and a failed phase has one: the policy sees the difference.
  have hallow : (resolveVerdict c { s with slot := none, waiting := false }).state = .allow →
      s.fail = .none := by
    unfold resolveVerdict
    simp only
    split
    · simp
    · split
      · simp
      · split
        · simp
        · split_ifs with hf
          · simp
          · exact fun _ => not_not.1 hf
  have hfailed : (resolveVerdict c { s with slot := none, waiting := false }).state = .failed →
      s.fail ≠ .none := by
    unfold resolveVerdict
    simp only
    split
    · simp
    · split
      · simp
      · split
        · simp
        · split_ifs with hf
          · exact fun _ => hf
          · simp
  unfold conclude failPass St.unexcused
  generalize resolveVerdict c { s with slot := none, waiting := false } = x at *
  split_ifs with h₁ h₂ h₂
  · exact absurd (hallow h₂.1) (by rw [← hfail]; exact h₂.2)
  · rfl
  · rw [not_or, not_not] at h₁
    exact h₁.1.symm
  · rw [not_or, not_not] at h₁
    exact absurd ⟨rfl, by rw [hfail]; exact hfailed h₁.1⟩ h₂

/-- What a phase with a failure is concluded with, by those who can deny or redirect. -/
def failedOutcome (deny redirect : Option Index) : State × Verdict × Option Index × ℕ :=
  match deny, redirect with
  | some i, _ => (.deny, .deny, some i, i.val)
  | none, some i => (.redirect, .redirect, some i, i.val)
  | none, none => (.failed, .allow, none, 0)

theorem conclude_outcome (hfail : s.fail ≠ .none) (hscore : ¬scoreDenies c s) :
    (conclude c s).outcome = failedOutcome (pick c s .deny) (pick c s .redirect) := by
  have hstate := conclude_unexcused c s
  have hpass : ∀ x : St, (failPass c x).verdict = x.verdict ∧ (failPass c x).decisive = x.decisive ∧
      (failPass c x).decisiveIndex = x.decisiveIndex := by
    intro x
    unfold failPass
    split_ifs <;> exact ⟨rfl, rfl, rfl⟩
  have hrest : (conclude c s).outcome =
      ((resolveVerdict c { s with slot := none, waiting := false }).state,
        (resolveVerdict c { s with slot := none, waiting := false }).verdict,
        (resolveVerdict c { s with slot := none, waiting := false }).decisive,
        (resolveVerdict c { s with slot := none, waiting := false }).decisiveIndex) := by
    unfold St.outcome
    rw [hstate]
    obtain ⟨h₁, h₂, h₃⟩ := hpass (resolveVerdict c { s with slot := none, waiting := false })
    rw [← h₁, ← h₂, ← h₃]
    rfl
  have hpick : ∀ v, pick c { s with
      slot := none, waiting := false, decisive := none, decisiveIndex := 0, byScore := false
      code := .none } v = pick c s v := fun _ => rfl
  have hno : ¬scoreDenies c { s with
      slot := none, waiting := false, decisive := none, decisiveIndex := 0, byScore := false
      code := .none } := hscore
  rw [hrest]
  unfold resolveVerdict
  simp only [hpick, if_neg hno]
  cases pick c s .deny with
  | some i => rfl
  | none =>
    cases pick c s .redirect with
    | some i => rfl
    | none => simp [failedOutcome, hfail]

end Outcome

section Result

variable {c : Conf} {s : St} {slot slot' : SlotRec} {w : Wave} {rs : Index → Reply}
  {is js : List Index}

/-- What a decision reads of an entry is in its core. -/
theorem decides_of_core {r r' : Reply} (h : r.core = r'.core) : r.received = r'.received ∧
    r.verdict = r'.verdict ∧ r.passive = r'.passive ∧ r.vote = r'.vote :=
  ⟨(congrArg Reply.received h :), (congrArg Reply.verdict h :), (congrArg Reply.passive h :),
    (congrArg Reply.vote h :)⟩

/-- The outcome of a phase that an error ends is the one of the state before the replies, when none
of them refuses and their scores do not reach the threshold. -/
theorem outcome_of_end (hdet : c.denyMode = .deterministic) {y : St}
    (hnot : ∀ j ∈ is, (s.replies j).received = false)
    (hrules : ∀ j ∈ is, ¬(entry c s slot w rs j).rules)
    (htotal : 0 < c.scoreDeny → ∀ js : List Index, js.Subperm is →
      total c s slot w rs js < c.scoreDeny)
    (hsub : js.Subperm is) (hslot : y.slot = some slot') (hfail : y.fail ≠ .none)
    (hcore : y.core c = { (js.foldl (blend c (entry c s slot w rs)) (s.view c)).core with
      fail := y.fail }) :
    (resume c y).outcome = failedOutcome (pick c s .deny) (pick c s .redirect) ∧
      (resume c y).wave = s.wave := by
  obtain ⟨-, -, -, -, hreplies, hscore, -, -⟩ := rewriteSettle_frame c y slot'
  have hentries : ∀ k, (y.replies k).core =
      if k ∈ js then (entry c s slot w rs k).core else (s.replies k).core := by
    intro k
    have hk := congrArg (fun x : St => x.replies k) hcore
    simp only [foldl_blend_replies] at hk
    exact hk
  -- An absorbed reply refuses nothing, and it is the first of its inspector; other entries stay.
  have hdec : ∀ v, (v = .deny ∨ v = .redirect) → ∀ k,
      Decides c (rewriteSettle c y slot') v k ↔ Decides c s v k := by
    intro v hv k
    rw [decides_congr hreplies]
    have hk := hentries k
    by_cases hmem : k ∈ js
    · rw [if_pos hmem] at hk
      obtain ⟨-, h₂, h₃, h₄⟩ := decides_of_core hk
      refine iff_of_false ?_ ?_
      · rintro ⟨-, -, hverdict, hp, hvote⟩
        refine hrules k (hsub.subset hmem) ⟨?_, h₃.symm.trans hp, h₄.symm.trans hvote⟩
        rw [Reply.refuses, ← h₂, hverdict]
        exact hv
      · rintro ⟨-, hr, -⟩
        rw [hnot k (hsub.subset hmem)] at hr
        cases hr
    · rw [if_neg hmem] at hk
      obtain ⟨h₁, h₂, h₃, h₄⟩ := decides_of_core hk
      unfold Decides
      rw [h₁, h₂, h₃, h₄]
  -- The score is the total of those replies that came before the end.
  have hno : ¬scoreDenies c (rewriteSettle c y slot') := by
    rintro ⟨hd, hle⟩
    have hlt := htotal hd js hsub
    have hsum := congrArg St.score hcore
    simp only [foldl_blend_score] at hsum
    simp only [St.core, St.view, hd, if_true] at hsum
    unfold total at hlt
    rw [hscore, hsum] at hle
    omega
  have hwave : y.wave = s.wave := by
    have h := congrArg St.wave hcore
    simp only [foldl_blend_score] at h
    exact h
  refine ⟨?_, (resume_frame hslot).2.2.2.2.trans hwave⟩
  rw [resume_of_slot hslot, conclude_outcome (rewriteSettle_fail_ne hfail) hno,
    pick_congr hdet (hdec .deny (Or.inl rfl)), pick_congr hdet (hdec .redirect (Or.inr rfl))]

theorem Independent.perm (h : Independent c s slot w rs is) (hp : is.Perm js) :
    Independent c s slot w rs js := by
  have hmem : ∀ {i}, i ∈ js → i ∈ is := fun hi => hp.mem_iff.2 hi
  refine ⟨⟨fun i hi j hj => h.leaves i (hmem hi) j (hmem hj), ?_, fun hd ks i hsub =>
    h.floor hd ks i (hsub.trans hp.symm.subperm)⟩, fun i hi he => ⟨fun j hj =>
    (h.alone i (hmem hi) he).1 j (hmem hj), fun hd ks hsub =>
    (h.alone i (hmem hi) he).2 hd ks (hsub.trans hp.symm.subperm)⟩, fun hno i hi j hj =>
    h.agree (fun k hk => hno k (hp.mem_iff.1 hk)) i (hmem hi) j (hmem hj)⟩
  have hroom := h.room
  -- The room that the actions need is a set of keys, which has no order.
  have hkeys : runFrom (keyStep c) (keys s.actions)
        (is.flatMap fun i => (entry c s slot w rs i).merged c i) =
      runFrom (keyStep c) (keys s.actions)
        (js.flatMap fun i => (entry c s slot w rs i).merged c i) :=
    (hp.flatMap_right _).foldl_eq' (fun a _ b _ ks => keyStep_comm ks a b) _
  unfold HasRoom at hroom ⊢
  rw [← hkeys]
  exact hroom

/-- Two orders of independent replies none of which ends the phase lead to one view. -/
theorem arrivals_perm (hdet : c.denyMode = .deterministic) {xs ys : List (Index × ℕ)}
    (ha : Awaits c s slot w) (hopen : Open c slot w (xs.map Prod.fst))
    (hind : Independent c s slot w (decoded c rs) (xs.map Prod.fst))
    (hno : ∀ i ∈ xs.map Prod.fst, ¬Ends c s slot w (decoded c rs) i)
    (hperm : (xs.map Prod.fst).Perm (ys.map Prod.fst)) :
    (runFrom (step c) s (arrivals rs xs)).view c = (runFrom (step c) s (arrivals rs ys)).view c := by
  by_cases hx : xs = []
  · subst hx
    have hy : ys = [] := by simpa using hperm
    rw [hy]
  have hy : ys ≠ [] := by
    rintro rfl
    exact hx (by simpa using hperm)
  have hmem : ∀ {i}, i ∈ ys.map Prod.fst → i ∈ xs.map Prod.fst := fun h => hperm.mem_iff.2 h
  obtain ⟨t, ht, hvt⟩ := arrivals_view hdet xs hx ha hopen hind.toSeparate hno
  obtain ⟨u, hu, hvu⟩ := arrivals_view hdet ys hy ha
    ⟨hperm.nodup hopen.1, fun i hi => hopen.2 i (hmem hi)⟩ (hind.perm hperm).toSeparate
    fun i hi => hno i (hmem hi)
  rw [ht, hu]
  refine (through_settle hdet).view ?_
  rw [hvt, hvu]
  -- Both orders fold steps over one view, and two steps of different senders commute.
  refine hperm.foldl_eq' (fun i hi j hj x => ?_) _
  by_cases hij : i = j
  · rw [hij]
  · exact blend_comm hij (hind.agree hno i hi j hj hij) x

end Result

/-- **The order of the replies.** With `waf_deny_mode deterministic`, in every run of a phase, the
replies of a wave can arrive in any order: whatever happens before and after, if they do not
interfere, the phase gets to the same outcome.  Unless one of them ends the phase at once, it also
gets to the same state and failure. -/
theorem order_independent (c : Conf) (s : St) (es fs : List Event) (slot : SlotRec) (w : Wave)
    (rs : Index → Reply) (xs ys : List (Index × ℕ)) (hdet : c.denyMode = .deterministic)
    (hfresh : s.Fresh) (hawaits : Awaits c (runFrom (step c) s es) slot w)
    (hopen : Open c slot w (xs.map Prod.fst))
    (hind : Independent c (runFrom (step c) s es) slot w (decoded c rs) (xs.map Prod.fst))
    (hperm : (xs.map Prod.fst).Perm (ys.map Prod.fst)) :
    let t := runFrom (step c) s (es ++ arrivals rs xs ++ fs)
    let u := runFrom (step c) s (es ++ arrivals rs ys ++ fs)
    t.unexcused = u.unexcused ∧ t.verdict = u.verdict ∧ t.decisive = u.decisive ∧
      t.decisiveIndex = u.decisiveIndex ∧ t.wave = u.wave ∧
      ((∀ i ∈ xs.map Prod.fst, ¬Ends c (runFrom (step c) s es) slot w (decoded c rs) i) →
        t.state = u.state ∧ t.fail = u.fail) := by
  have honce : Once c (runFrom (step c) s es) :=
    invariant_always (fun _ _ => once_step) es (fresh_once hfresh)
  simp only [runFrom_append]
  generalize runFrom (step c) s es = s₀ at hawaits hind honce ⊢
  by_cases hno : ∀ i ∈ xs.map Prod.fst, ¬Ends c s₀ slot w (decoded c rs) i
  · have hview := run_view hdet (arrivals_perm hdet hawaits hopen hind hno hperm) fs
    have hcore := congrArg View.core hview
    have hstate := (congrArg St.state hcore :)
    have hfail := (congrArg St.fail hcore :)
    refine ⟨?_, (congrArg St.verdict hcore :), (congrArg St.decisive hcore :),
      (congrArg St.decisiveIndex hcore :), (congrArg St.wave hcore :), fun _ => ⟨hstate, hfail⟩⟩
    simp only [St.unexcused]
    rw [show (runFrom (step c) (runFrom (step c) s₀ (arrivals rs xs)) fs).state = _ from hstate,
      show (runFrom (step c) (runFrom (step c) s₀ (arrivals rs xs)) fs).fail = _ from hfail]
    rfl
  · -- The first reply that ends the phase decides; what the others did before it does not matter.
    push Not at hno
    obtain ⟨i, hi, hends⟩ := hno
    have hnot : ∀ j ∈ xs.map Prod.fst, (s₀.replies j).received = false := fun j hj =>
      honce.not_received hawaits (hopen.2 j hj).1
    obtain ⟨hrules, htotal⟩ := hind.alone i hi hends
    have hboth : ∀ zs : List (Index × ℕ), (xs.map Prod.fst).Perm (zs.map Prod.fst) →
        (runFrom (step c) (runFrom (step c) s₀ (arrivals rs zs)) fs).outcome =
            failedOutcome (pick c s₀ .deny) (pick c s₀ .redirect) ∧
          (runFrom (step c) (runFrom (step c) s₀ (arrivals rs zs)) fs).wave = s₀.wave := by
      intro zs hz
      obtain ⟨js, y, slot', hsub, hslot, hfail, hcore, hrun⟩ := arrivals_end hdet zs hawaits
        ⟨hz.nodup hopen.1, fun j hj => hopen.2 j (hz.mem_iff.2 hj)⟩ (hind.perm hz).toSeparate
        ⟨i, hz.mem_iff.1 hi, hends⟩
      rw [hrun, run_resumed hslot]
      exact outcome_of_end hdet hnot hrules htotal (hsub.trans hz.symm.subperm) hslot hfail hcore
    obtain ⟨hx, hwx⟩ := hboth xs (.refl _)
    obtain ⟨hy, hwy⟩ := hboth ys hperm
    have hout := hx.trans hy.symm
    simp only [St.outcome, Prod.mk.injEq] at hout
    obtain ⟨h₁, h₂, h₃, h₄⟩ := hout
    exact ⟨h₁, h₂, h₃, h₄, hwx.trans hwy.symm, fun h => absurd hends (h i hi)⟩

/-! ### Two inspectors in one wave -/

/-- Two active inspectors in one wave, under `waf_deny_mode deterministic`. -/
def pairDeterministic : Conf := { pair with denyMode := .deterministic }

/-- The slot of their wave once it is published. -/
def pairSlot : SlotRec := ⟨0, 0#64, 0#64, bit 0 ||| bit 1, 1⟩

/-- Their wave. -/
def pairWave : Wave := ⟨bit 0 ||| bit 1, 0#64, 0#64, 0#64⟩

/-- The two inspectors, and a passive one in a second wave. -/
def trio : Conf :=
  { pairDeterministic with
    ninspectors := 3
    inspects := fun p => if p = .request then [⟨0, 0, .active, 100, .off⟩,
      ⟨1, 0, .active, 100, .off⟩, ⟨2, 1, .passive, 100, .off⟩] else []
    once := by intro p; cases p <;> decide }

/-- The three inspectors where a score of 50 denies. -/
def trioScored : Conf := { trio with scoreDeny := 50 }

/-- The replies of the first two inspectors. -/
def replies (r₀ r₁ : Reply) (i : Index) : Reply := if i = 0 then r₀ else r₁

/-- The third inspector is asked, and it denies. -/
def thirdDenies : List Event := [.start goesOut, .reply 2 (answer .deny []) 9]

instance (c : Conf) (slot : SlotRec) (w : Wave) (i : Index) : Decidable (Accounts c slot w i) := by
  unfold Accounts; infer_instance

instance (c : Conf) (slot : SlotRec) (w : Wave) (is : List Index) :
    Decidable (Open c slot w is) := by
  unfold Open; infer_instance

instance (c : Conf) (s : St) (slot : SlotRec) (w : Wave) : Decidable (Awaits c s slot w) :=
  decidable_of_iff (s.waiting = true ∧ s.slot = some slot ∧ s.state = .waiting ∧
    currentWave c s = some w)
    ⟨fun h => ⟨h.1, h.2.1, h.2.2.1, h.2.2.2⟩, fun h => ⟨h.waiting, h.slot, h.state, h.wave⟩⟩

instance (c : Conf) (s : St) (w : Wave) (j : Index) (r : Reply) (v : Verb) :
    Decidable (Suits c s w j r v) :=
  decidable_of_iff (has (wavePassive c s w) j = decide (v = .passive) ∧
    has (waveVote c s w) j = decide (v = .vote) ∧
    (r.verdict = .error → has (waveGating c s w) j = decide (v = .active)))
    ⟨fun h => ⟨h.1, h.2.1, h.2.2⟩, fun h => ⟨h.passive, h.vote, h.gating⟩⟩

instance (c : Conf) (s : St) (slot : SlotRec) (w : Wave) (rs : Index → Reply) (i : Index) :
    Decidable (Ends c s slot w rs i) := by
  unfold Ends; infer_instance

instance (e : Reply) : Decidable e.rules := by unfold Reply.rules; infer_instance

/-- Inspector 0 scores 50 and takes 20 back, inspector 1 scores 10; both make inspector 2 active. -/
def scoredBoth : Index → Reply :=
  replies { scored 50 [-20] with actions := [pointsAction (-20), controlAction .active 2] }
    { scored 10 [] with actions := [controlAction .active 2] }

/-- Inspector 0 fails, inspector 1 allows and makes inspector 2 active. -/
def failedFirst : Index → Reply :=
  replies (answer .error []) (answer .allow [controlAction .active 2])

/-- The phase once the inspectors 0 and 1 are asked. -/
def firstAsked (c : Conf) : St := runFrom (step c) blank [.start goesOut]

theorem scoredBoth_independent : Independent trioScored (firstAsked trioScored) pairSlot pairWave
    (decoded trioScored scoredBoth) [0, 1] := by
  have hends : ∀ i ∈ [(0 : Index), 1], ¬Ends trioScored (firstAsked trioScored) pairSlot pairWave
      (decoded trioScored scoredBoth) i := by decide +kernel
  -- neither reply takes points off in all, nor goes below what it had
  have hgain : ∀ j ∈ [(0 : Index), 1],
      0 ≤ (entry trioScored (firstAsked trioScored) pairSlot pairWave
        (decoded trioScored scoredBoth) j).gain ∧
      0 ≤ (entry trioScored (firstAsked trioScored) pairSlot pairWave
        (decoded trioScored scoredBoth) j).low := by decide +kernel
  refine ⟨⟨by decide +kernel, by decide +kernel, fun _ js i hsub => ?_⟩,
    fun i hi he => absurd he (hends i hi), fun _ => by decide +kernel⟩
  have hmem : ∀ j ∈ js ++ [i], j ∈ [(0 : Index), 1] := fun j hj => hsub.subset hj
  refine add_nonneg (add_nonneg (by decide +kernel) (List.sum_nonneg ?_))
    (hgain i (hmem i (by simp))).2
  intro x hx
  obtain ⟨j, hj, rfl⟩ := List.mem_map.1 hx
  exact (hgain j (hmem j (List.mem_append_left _ hj))).1

theorem failedFirst_independent : Independent trio (firstAsked trio) pairSlot pairWave
    (decoded trio failedFirst) [0, 1] := by
  have hends : Ends trio (firstAsked trio) pairSlot pairWave (decoded trio failedFirst) 0 := by
    decide +kernel
  exact ⟨⟨by decide +kernel, by decide +kernel, fun hd => absurd hd (by decide)⟩,
    fun i hi he => ⟨by decide +kernel, fun hd => absurd hd (by decide)⟩,
    fun hno => absurd hends (hno 0 (by decide))⟩

/-- Neither points that are partly taken back, nor control actions on the inspector of the next wave,
nor an error that ends the phase make the order count. -/
theorem order_independent_pair :
    (runFrom (step trioScored) blank
        ([.start goesOut] ++ arrivals scoredBoth [(0, 5), (1, 7)] ++ thirdDenies)).decisive =
      (runFrom (step trioScored) blank
        ([.start goesOut] ++ arrivals scoredBoth [(1, 4), (0, 9)] ++ thirdDenies)).decisive ∧
    (runFrom (step trio) blank
        ([.start goesOut] ++ arrivals failedFirst [(0, 5), (1, 7)] ++ [])).unexcused =
      (runFrom (step trio) blank
        ([.start goesOut] ++ arrivals failedFirst [(1, 4), (0, 9)] ++ [])).unexcused :=
  ⟨(order_independent trioScored blank [.start goesOut] thirdDenies pairSlot pairWave scoredBoth
      [(0, 5), (1, 7)] [(1, 4), (0, 9)] rfl blank_fresh (by decide +kernel) (by decide +kernel)
      scoredBoth_independent (by decide)).2.2.1,
    (order_independent trio blank [.start goesOut] [] pairSlot pairWave failedFirst
      [(0, 5), (1, 7)] [(1, 4), (0, 9)] rfl blank_fresh (by decide +kernel) (by decide +kernel)
      failedFirst_independent (by decide)).1⟩

/-- The replies of the inspectors 0 and 1 are awaited; in the one order the phase ends in the state
`first`, in the other in `second`. -/
def EndsIn (c : Conf) (rs : Index → Reply) (fs : List Event) (first second : State) : Prop :=
  Awaits c (firstAsked c) pairSlot pairWave ∧ Open c pairSlot pairWave [0, 1] ∧
    (runFrom (step c) blank ([.start goesOut] ++ arrivals rs [(0, 5), (1, 7)] ++ fs)).state = first ∧
    (runFrom (step c) blank ([.start goesOut] ++ arrivals rs [(1, 5), (0, 7)] ++ fs)).state = second

instance (c : Conf) (rs : Index → Reply) (fs : List Event) (first second : State) :
    Decidable (EndsIn c rs fs first second) := by
  unfold EndsIn; infer_instance

/-- The order of two awaited replies counts: where inspector 0 makes inspector 1 passive and this one
denies; where one is an error and the other a denial, a redirect or a score that reaches the
threshold; where they leave the inspector of the next wave in different modes; where the list of
actions has room for one of them; and where a score is taken off before it is there. -/
theorem order_dependent :
    EndsIn pairDeterministic
        (replies (answer .allow [controlAction .passive 1]) (answer .deny [])) [] .allow .deny ∧
      EndsIn pairDeterministic (replies (answer .error []) (answer .deny [])) [] .failed .deny ∧
      EndsIn pairDeterministic (replies (answer .error []) (answer .redirect [])) []
        .failed .redirect ∧
      EndsIn { pairDeterministic with scoreDeny := 50 } (replies (answer .error []) (scored 50 [])) []
        .failed .deny ∧
      EndsIn trio (replies (answer .allow [controlAction .passive 2])
        (answer .allow [controlAction .active 2])) thirdDenies .deny .allow ∧
      EndsIn { trio with actionsMax := 1 } (replies (answer .allow [controlAction .note 2])
        (answer .allow [controlAction .active 2])) thirdDenies .allow .deny ∧
      EndsIn { pairDeterministic with scoreDeny := 50 }
        (replies (answer .allow [pointsAction (-50)]) (scored 50 [])) [] .deny .allow := by
  decide +kernel

end Waves
