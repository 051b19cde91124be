import PlacitumNode.Lib.Linked
import PlacitumNode.Slot.Keys

/-!
# Integrity of the slot table

The free list and the slots held by requests divide the table between them, a busy slot and its
request name each other, and a generation that has left the table comes back only when the sequence
has gone once around.  So a request id that an inspector sends back finds a slot only while the
request it was given to still holds that slot.

* `Holds`: a request and its slot;
* `Sound`: the invariant of a worker's table;
* `run_cases`: an operation gives a slot, takes one back, or does neither;
* `holds_or_gone`: what becomes of an issued request id.
-/

namespace Slots

open Octets Run Linked

section Integrity

variable {ρ : Type*} [DecidableEq ρ]

/-- The request `r` holds the slot `i`: each names the other, and the request's id is made of the
slot's generation and index. -/
structure Worker.Holds (w : Worker ρ) (r : ρ) (i : ℕ) : Prop where
  gen : (w.slots i).gen ≠ 0
  owner : (w.slots i).ctx = some r
  slot : (w.ctx r).slot = some i
  rid : (w.ctx r).rid = ((w.slots i).gen <<< indexBits) ||| i

/-- The free list has no cycle and holds every slot with generation zero once, and no other. -/
def Worker.FreeListed (w : Worker ρ) : Prop :=
  ∃ l : List ℕ, Links (fun i => (w.slots i).nextFree) w.freeHead l ∧ l.Nodup ∧
    ∀ i, i ∈ l ↔ i < w.nslots ∧ (w.slots i).gen = 0

/-- The table of a worker that started at `s` and has made `n` acquisitions. -/
structure Sound (s n : ℕ) (w : Worker ρ) : Prop where
  seq : w.seq = seqAfter s n
  size : w.nslots ≤ indexMask
  free : w.FreeListed
  idle : ∀ i, (w.slots i).gen = 0 → (w.slots i).ctx = none
  busy : ∀ i, (w.slots i).gen ≠ 0 → i < w.nslots ∧ ∃ r, w.Holds r i
  held : ∀ r i, (w.ctx r).slot = some i → w.Holds r i

/-- The number of slots acquired in a run of one worker. -/
def acquisitions (w : Worker ρ) : List (Op ρ) → ℕ
  | [] => 0
  | op :: ops => (if op.acquires w then 1 else 0) + acquisitions (op.run w) ops

/-! ### The two moves of a slot -/

/-- The worker in which `r` has been given the free slot `i`. -/
def Worker.give (w : Worker ρ) (r : ρ) (i : ℕ) : Worker ρ :=
  { w with
    freeHead := (w.slots i).nextFree
    seq := nextGen w.seq
    slots := Function.update w.slots i ⟨nextGen w.seq, none, some r⟩
    ctx := Function.update w.ctx r
      { w.ctx r with
        slot := some i
        rid := (nextGen w.seq <<< indexBits) ||| i
        ridHex := ridHex ((nextGen w.seq <<< indexBits) ||| i) } }

/-- The worker in which the slot `i` of `r` is free again. -/
def Worker.takeBack (w : Worker ρ) (r : ρ) (i : ℕ) : Worker ρ :=
  { w.setSlot r none with
    slots := Function.update w.slots i ⟨0, w.freeHead, none⟩
    freeHead := some i }

variable {s n : ℕ} {w w' : Worker ρ} {r : ρ} {i : ℕ}

omit [DecidableEq ρ] in
theorem sound_init {nslots random pid : ℕ} (h : slotTableInit nslots random pid = some w) :
    Sound (seqStart random pid) 0 w := by
  unfold slotTableInit at h
  split_ifs at h with hn
  cases h
  push Not at hn
  obtain ⟨hpos, hle⟩ := hn
  have hlinks : ∀ m k, m + k = nslots → 0 < m →
      Links (fun i => if i + 1 < nslots then some (i + 1) else none) (some k)
        (List.range' k m) := by
    intro m
    induction m with
    | zero => intro k _ hm; exact absurd hm (lt_irrefl 0)
    | succ m ih =>
      intro k hk _
      rw [List.range'_succ]
      refine ⟨rfl, ?_⟩
      rcases Nat.eq_zero_or_pos m with rfl | hm
      · simp only [if_neg (show ¬k + 1 < nslots by omega)]
        exact links_nil
      · simp only [if_pos (show k + 1 < nslots by omega)]
        exact ih (k + 1) (by omega) hm
  refine ⟨rfl, hle, ⟨List.range' 0 nslots, ?_, List.nodup_range', fun i => ?_⟩, fun _ _ => rfl,
    fun i hi => absurd rfl hi, fun r i hr => ?_⟩
  · exact hlinks nslots 0 rfl (Nat.pos_of_ne_zero hpos)
  · simp [freeTable]
  · simp [freeTable, Ctx.init] at hr

theorem give_holds (w : Worker ρ) (r : ρ) (hgen : nextGen w.seq ≠ 0) (i : ℕ) :
    (w.give r i).Holds r i := by
  refine ⟨?_, ?_, ?_, ?_⟩
  · simpa [Worker.give] using hgen
  · simp [Worker.give]
  · simp [Worker.give]
  · simp [Worker.give]

omit [DecidableEq ρ] in
theorem holds_of_eq {r' : ρ} {j : ℕ} (h : w.Holds r' j)
    (hslots : w'.slots j = w.slots j) (hctx : w'.ctx r' = w.ctx r') : w'.Holds r' j :=
  ⟨by rw [hslots]; exact h.gen, by rw [hslots]; exact h.owner, by rw [hctx]; exact h.slot,
    by rw [hctx, hslots]; exact h.rid⟩

omit [DecidableEq ρ] in
theorem nextGen_sound (hs : s < 2 ^ 40) (h : Sound s n w) : nextGen w.seq = genAt s n := by
  rw [h.seq, nextGen_seqAfter hs]

theorem genAt_ne_zero (s k : ℕ) : genAt s k ≠ 0 := Nat.succ_ne_zero _

theorem sound_give (hs : s < 2 ^ 40) (h : Sound s n w) (hfree : w.freeHead = some i)
    (hr : (w.ctx r).slot = none) : Sound s (n + 1) (w.give r i) := by
  have hgen := nextGen_sound hs h
  have hne : nextGen w.seq ≠ 0 := by rw [hgen]; exact genAt_ne_zero s n
  obtain ⟨l, hl, hnodup, hmem⟩ := h.free
  rw [hfree] at hl
  obtain ⟨l, rfl, hrest⟩ := exists_of_links_some hl
  rw [List.nodup_cons] at hnodup
  have hi := (hmem i).1 List.mem_cons_self
  have hslots : ∀ j, j ≠ i → (w.give r i).slots j = w.slots j :=
    fun j hj => Function.update_of_ne hj _ _
  have hctx : ∀ r', r' ≠ r → (w.give r i).ctx r' = w.ctx r' :=
    fun r' hr' => Function.update_of_ne hr' _ _
  have hholds := give_holds w r hne i
  -- a request that held a slot before holds it still
  have hkeep : ∀ r' j, w.Holds r' j → (w.give r i).Holds r' j := by
    intro r' j hj
    have hji : j ≠ i := fun he => hj.gen (he ▸ hi.2)
    have hr' : r' ≠ r := by
      rintro rfl
      rw [hj.slot] at hr
      cases hr
    exact holds_of_eq hj (hslots j hji) (hctx r' hr')
  refine ⟨hgen, h.size, ⟨l, ?_, hnodup.2, fun j => ?_⟩, fun j hj => ?_, fun j hj => ?_,
    fun r' j hj => ?_⟩
  · refine links_congr (fun b hb => ?_) hrest
    rw [hslots b fun he => hnodup.1 (he ▸ hb)]
  · by_cases hji : j = i
    · subst hji
      exact ⟨fun hj => absurd hj hnodup.1, fun hj => absurd hj.2 hholds.gen⟩
    · rw [hslots j hji]
      have := hmem j
      rw [List.mem_cons] at this
      exact ⟨fun hj => this.1 (Or.inr hj), fun hj => (this.2 hj).resolve_left hji⟩
  · have hji : j ≠ i := fun he => hholds.gen (he ▸ hj)
    rw [hslots j hji] at hj ⊢
    exact h.idle j hj
  · by_cases hji : j = i
    · subst hji
      exact ⟨hi.1, r, hholds⟩
    · rw [hslots j hji] at hj
      obtain ⟨hlt, r', hr'⟩ := h.busy j hj
      exact ⟨hlt, r', hkeep r' j hr'⟩
  · by_cases hr' : r' = r
    · subst hr'
      rw [hholds.slot] at hj
      cases hj
      exact hholds
    · rw [hctx r' hr'] at hj
      exact hkeep r' j (h.held r' j hj)

theorem sound_takeBack (h : Sound s n w) (hi : w.Holds r i) : Sound s n (w.takeBack r i) := by
  obtain ⟨l, hl, hnodup, hmem⟩ := h.free
  have hil : i ∉ l := fun hin => hi.gen ((hmem i).1 hin).2
  have hslots : ∀ j, j ≠ i → (w.takeBack r i).slots j = w.slots j :=
    fun j hj => Function.update_of_ne hj _ _
  have hself : (w.takeBack r i).slots i = ⟨0, w.freeHead, none⟩ := Function.update_self ..
  have hctx : ∀ r', r' ≠ r → (w.takeBack r i).ctx r' = w.ctx r' :=
    fun r' hr' => Function.update_of_ne hr' _ _
  have hnone : ((w.takeBack r i).ctx r).slot = none := by
    simp [Worker.takeBack, Worker.setSlot]
  have hkeep : ∀ r' j, j ≠ i → w.Holds r' j → (w.takeBack r i).Holds r' j := by
    intro r' j hji hj
    have hr' : r' ≠ r := by
      rintro rfl
      exact hji (Option.some.inj (hj.slot.symm.trans hi.slot))
    exact holds_of_eq hj (hslots j hji) (hctx r' hr')
  refine ⟨h.seq, h.size, ⟨i :: l, ⟨rfl, ?_⟩, List.nodup_cons.2 ⟨hil, hnodup⟩, fun j => ?_⟩,
    fun j hj => ?_, fun j hj => ?_, fun r' j hj => ?_⟩
  · simp only [hself]
    refine links_congr (fun b hb => ?_) hl
    rw [hslots b fun he => hil (he ▸ hb)]
  · by_cases hji : j = i
    · subst hji
      simp only [List.mem_cons_self, hself, true_iff, and_true]
      exact (h.busy j hi.gen).1
    · rw [hslots j hji, List.mem_cons, or_iff_right hji]
      exact hmem j
  · by_cases hji : j = i
    · subst hji
      rw [hself]
    · rw [hslots j hji] at hj ⊢
      exact h.idle j hj
  · have hji : j ≠ i := by
      rintro rfl
      rw [hself] at hj
      exact hj rfl
    rw [hslots j hji] at hj
    obtain ⟨hlt, r', hr'⟩ := h.busy j hj
    exact ⟨hlt, r', hkeep r' j hji hr'⟩
  · have hr' : r' ≠ r := by
      rintro rfl
      rw [hnone] at hj
      cases hj
    rw [hctx r' hr'] at hj
    have hold := h.held r' j hj
    refine hkeep r' j (fun he => hr' ?_) hold
    subst he
    exact Option.some.inj (hold.owner.symm.trans hi.owner)

/-! ### Operations -/

theorem setSlot_none_of_none (h : (w.ctx r).slot = none) : w.setSlot r none = w := by
  obtain ⟨slots, nslots, freeHead, seq, ctx⟩ := w
  simp only [Worker.setSlot, Worker.mk.injEq, true_and]
  rw [Function.update_eq_self_iff]
  simp only at h
  rw [← h]

theorem slotRelease_idle (h : (w.slots i).gen = 0) : slotRelease w i = w := if_pos h

theorem slotRelease_held (h : w.Holds r i) : slotRelease w i = w.takeBack r i := by
  simp only [slotRelease, if_neg h.gen, h.owner, if_pos h.slot]
  rfl

theorem takeBack_slot (w : Worker ρ) (r : ρ) (i : ℕ) : ((w.takeBack r i).ctx r).slot = none := by
  simp [Worker.takeBack, Worker.setSlot]

/-- The id of a held slot leads back to it. -/
theorem rid_parts {g i : ℕ} (hi : i ≤ indexMask) :
    ((g <<< indexBits) ||| i) >>> indexBits = g ∧ ((g <<< indexBits) ||| i) &&& indexMask = i := by
  have hi' : i < 2 ^ 24 := by
    unfold indexMask indexBits at hi
    omega
  rw [indexBits, ← Nat.shiftLeft_add_eq_or_of_lt hi', Nat.shiftLeft_eq, Nat.shiftRight_eq_div_pow,
    indexMask, indexBits, Nat.and_two_pow_sub_one_eq_mod]
  constructor <;> omega

theorem rid_of_parts (rid : ℕ) :
    ((rid >>> indexBits) <<< indexBits) ||| (rid &&& indexMask) = rid := by
  rw [indexMask, indexBits, Nat.and_two_pow_sub_one_eq_mod,
    ← Nat.shiftLeft_add_eq_or_of_lt (Nat.mod_lt _ (by norm_num)), Nat.shiftLeft_eq,
    Nat.shiftRight_eq_div_pow]
  omega

omit [DecidableEq ρ] in
theorem Worker.Holds.lookup (hsize : w.nslots ≤ indexMask) (hlt : i < w.nslots) (h : w.Holds r i) :
    slotLookup w (w.ctx r).rid = some i := by
  obtain ⟨hgen, hindex⟩ := rid_parts (g := (w.slots i).gen) (hlt.le.trans hsize)
  simp only [slotLookup, h.rid, hgen, hindex, h.owner, Nat.not_le.2 hlt, if_false, ne_eq,
    not_true_eq_false, reduceCtorEq]

omit [DecidableEq ρ] in
/-- **What a lookup finds** is held by the request whose id was looked up. -/
theorem holds_of_lookup (h : Sound s n w) {rid : ℕ} (hfind : slotLookup w rid = some i) :
    ∃ r, w.Holds r i ∧ (w.ctx r).rid = rid ∧ (w.slots i).gen = rid >>> indexBits := by
  simp only [slotLookup] at hfind
  split_ifs at hfind with hlt hgen hctx
  simp only [not_not] at hgen
  have hi : rid &&& indexMask = i := Option.some.inj hfind
  rw [hi] at hgen hctx
  have hbusy : (w.slots i).gen ≠ 0 := fun hz => hctx (h.idle i hz)
  obtain ⟨-, r, hr⟩ := h.busy i hbusy
  refine ⟨r, hr, ?_, hgen⟩
  rw [hr.rid, hgen, ← hi, rid_of_parts]

/-- Two workers that differ at most in the phases of their requests. -/
structure Worker.SameSlots (w w' : Worker ρ) : Prop where
  slots : w'.slots = w.slots
  nslots : w'.nslots = w.nslots
  freeHead : w'.freeHead = w.freeHead
  seq : w'.seq = w.seq
  slot : ∀ r, (w'.ctx r).slot = (w.ctx r).slot
  rid : ∀ r, (w'.ctx r).rid = (w.ctx r).rid

omit [DecidableEq ρ] in
theorem Worker.SameSlots.refl (w : Worker ρ) : w.SameSlots w :=
  ⟨rfl, rfl, rfl, rfl, fun _ => rfl, fun _ => rfl⟩

omit [DecidableEq ρ] in
theorem Worker.SameSlots.holds (h : w.SameSlots w') : w'.Holds r i ↔ w.Holds r i := by
  constructor
  · rintro ⟨h₁, h₂, h₃, h₄⟩
    rw [h.slots] at h₁ h₂ h₄
    rw [h.slot] at h₃
    rw [h.rid] at h₄
    exact ⟨h₁, h₂, h₃, h₄⟩
  · rintro ⟨h₁, h₂, h₃, h₄⟩
    rw [← h.slots] at h₁ h₂ h₄
    rw [← h.slot] at h₃
    rw [← h.rid] at h₄
    exact ⟨h₁, h₂, h₃, h₄⟩

omit [DecidableEq ρ] in
theorem sound_sameSlots (h : Sound s n w) (hsame : w.SameSlots w') : Sound s n w' := by
  refine ⟨hsame.seq.trans h.seq, hsame.nslots ▸ h.size, ?_, ?_, ?_, ?_⟩
  · unfold Worker.FreeListed
    rw [hsame.slots, hsame.freeHead, hsame.nslots]
    exact h.free
  · rw [hsame.slots]
    exact h.idle
  · intro i hi
    rw [hsame.slots] at hi
    obtain ⟨hlt, r, hr⟩ := h.busy i hi
    exact ⟨hsame.nslots ▸ hlt, r, hsame.holds.2 hr⟩
  · intro r i hr
    rw [hsame.slot] at hr
    exact hsame.holds.2 (h.held r i hr)

/-- **One operation** leaves the slots alone, takes one back from its request, or gives the first
free one to a request that has none, and perhaps takes it back at once. -/
theorem run_cases (h : Sound s n w) (op : Op ρ) :
    (op.acquires w = false ∧ w.SameSlots (op.run w)) ∨
      (op.acquires w = false ∧ ∃ r i, w.Holds r i ∧ op.run w = w.takeBack r i) ∨
      (op.acquires w = true ∧ ∃ r i cleanup, op = .ensure r cleanup ∧ w.freeHead = some i ∧
        (w.ctx r).slot = none ∧
        op.run w = if cleanup then w.give r i else slotRelease (w.give r i) i) := by
  have hback : ∀ r i, w.Holds r i → (slotRelease w i).setSlot r none = w.takeBack r i := by
    intro r i hi
    rw [slotRelease_held hi]
    exact setSlot_none_of_none (takeBack_slot w r i)
  cases op with
  | ensure r cleanup =>
    by_cases hslot : (w.ctx r).slot = none
    · cases hfree : w.freeHead with
      | none =>
        refine Or.inl ⟨by simp [Op.acquires, hfree], ?_⟩
        simp only [Op.run, ensureSlot, hslot, ne_eq, not_true_eq_false, if_false, slotAcquire, hfree]
        exact Worker.SameSlots.refl w
      | some i =>
        refine Or.inr (Or.inr ⟨by simp [Op.acquires, hfree, hslot], r, i, cleanup, rfl, rfl, hslot, ?_⟩)
        simp only [Op.run, ensureSlot, hslot, ne_eq, not_true_eq_false, if_false, slotAcquire, hfree]
        cases cleanup <;> rfl
    · refine Or.inl ⟨by simp [Op.acquires, hslot], ?_⟩
      simp only [Op.run, ensureSlot, ne_eq, hslot, not_false_eq_true, if_true]
      exact Worker.SameSlots.refl w
  | release i =>
    by_cases hgen : (w.slots i).gen = 0
    · refine Or.inl ⟨rfl, ?_⟩
      rw [Op.run, slotRelease_idle hgen]
      exact Worker.SameSlots.refl w
    · obtain ⟨-, r, hr⟩ := h.busy i hgen
      exact Or.inr (Or.inl ⟨rfl, r, i, hr, slotRelease_held hr⟩)
  | detach r =>
    cases hslot : (w.ctx r).slot with
    | none =>
      refine Or.inl ⟨rfl, ?_⟩
      simp only [Op.run, slotDetach, hslot]
      exact Worker.SameSlots.refl w
    | some i =>
      have hr := h.held r i hslot
      have hlt := (h.busy i hr.gen).1
      -- The id that the request keeps leads back to its slot, so that the slot is its own.
      have hgen := (rid_parts (g := (w.slots i).gen) (hlt.le.trans h.size)).1
      refine Or.inr (Or.inl ⟨rfl, r, i, hr, ?_⟩)
      simp only [Op.run, slotDetach, hslot, Nat.not_le.2 hlt, if_false, hr.rid, hgen, if_true]
      exact hback r i hr
  | drop r =>
    cases hslot : (w.ctx r).slot with
    | none =>
      refine Or.inl ⟨rfl, ?_⟩
      simp only [Op.run, slotDrop, hslot, if_true]
      exact Worker.SameSlots.refl w
    | some i =>
      have hr := h.held r i hslot
      refine Or.inr (Or.inl ⟨rfl, r, i, hr, ?_⟩)
      simp only [Op.run, slotDrop, hslot, reduceCtorEq, if_false,
        hr.lookup h.size (h.busy i hr.gen).1]
      exact hback r i hr
  | enter r phase =>
    refine Or.inl ⟨rfl, rfl, rfl, rfl, rfl, fun r' => ?_, fun r' => ?_⟩
    · by_cases hr : r' = r
      · subst hr
        simp [Op.run]
      · simp [Op.run, hr]
    · by_cases hr : r' = r
      · subst hr
        simp [Op.run]
      · simp [Op.run, hr]
  | place r obj => exact Or.inl ⟨rfl, Worker.SameSlots.refl w⟩

theorem sound_run (hs : s < 2 ^ 40) (h : Sound s n w) (op : Op ρ) :
    Sound s (n + if op.acquires w then 1 else 0) (op.run w) := by
  obtain ⟨hacq, hsame⟩ | ⟨hacq, r, i, hr, hrun⟩ | ⟨hacq, r, i, cleanup, -, hfree, hslot, hrun⟩ :=
    run_cases h op
  · simpa [hacq] using sound_sameSlots h hsame
  · simpa [hacq, hrun] using sound_takeBack h hr
  · have hgive := sound_give hs h hfree hslot
    have hne : nextGen w.seq ≠ 0 := by rw [nextGen_sound hs h]; exact genAt_ne_zero s n
    have hholds := give_holds w r hne i
    rw [if_pos hacq, hrun]
    split_ifs
    · exact hgive
    · rw [slotRelease_held hholds]
      exact sound_takeBack hgive hholds

theorem sound_runs (hs : s < 2 ^ 40) (h : Sound s n w) (ops : List (Op ρ)) :
    Sound s (n + acquisitions w ops) (runFrom Op.run w ops) := by
  induction ops generalizing n w with
  | nil => simpa [acquisitions] using h
  | cons op ops ih =>
    have := ih (sound_run hs h op)
    rwa [Nat.add_assoc] at this

/-! ### What becomes of a request id -/

theorem genAt_ne {s k n : ℕ} (hk : k < n) (hn : n < k + (2 ^ 40 - 1)) : genAt s n ≠ genAt s k := by
  unfold genAt
  omega

theorem takeBack_gen {g : ℕ} (hg : g ≠ 0) {j : ℕ} (h : ((w.takeBack r i).slots j).gen = g) :
    (w.slots j).gen = g := by
  by_cases hj : j = i
  · subst hj
    simp only [Worker.takeBack, Function.update_self] at h
    exact absurd h.symm hg
  · simpa only [Worker.takeBack, Function.update_of_ne hj] using h

theorem give_gen {j : ℕ} (hj : j ≠ i) : ((w.give r i).slots j).gen = (w.slots j).gen := by
  simp [Worker.give, Function.update_of_ne hj]

theorem give_gen_self : ((w.give r i).slots i).gen = nextGen w.seq := by
  simp [Worker.give]

/-- A generation that has left a slot comes back only with the acquisition that takes it. -/
theorem gone_run {k : ℕ} (hs : s < 2 ^ 40) (h : Sound s n w) (hk : k < n)
    (hgone : (w.slots i).gen ≠ genAt s k) (op : Op ρ)
    (hfew : op.acquires w = true → n < k + (2 ^ 40 - 1)) :
    ((op.run w).slots i).gen ≠ genAt s k := by
  obtain ⟨hacq, hsame⟩ | ⟨hacq, r, j, hr, hrun⟩ | ⟨hacq, r, j, cleanup, -, hfree, hslot, hrun⟩ :=
    run_cases h op
  · rw [hsame.slots]
    exact hgone
  · rw [hrun]
    exact fun hi => hgone (takeBack_gen (genAt_ne_zero s k) hi)
  · have hgive : ((w.give r j).slots i).gen ≠ genAt s k := by
      by_cases hij : i = j
      · subst hij
        rw [give_gen_self, nextGen_sound hs h]
        exact genAt_ne hk (hfew hacq)
      · rw [give_gen hij]
        exact hgone
    have hne : nextGen w.seq ≠ 0 := by rw [nextGen_sound hs h]; exact genAt_ne_zero s n
    rw [hrun]
    split_ifs
    · exact hgive
    · rw [slotRelease_held (give_holds w r hne j)]
      exact fun hi => hgive (takeBack_gen (genAt_ne_zero s k) hi)

theorem gone_runs {k : ℕ} (hs : s < 2 ^ 40) (h : Sound s n w) (hk : k < n)
    (hgone : (w.slots i).gen ≠ genAt s k) (ops : List (Op ρ))
    (hfew : n + acquisitions w ops ≤ k + (2 ^ 40 - 1)) :
    ((runFrom Op.run w ops).slots i).gen ≠ genAt s k := by
  induction ops generalizing n w with
  | nil => exact hgone
  | cons op ops ih =>
    simp only [acquisitions] at hfew
    have hstep := gone_run hs h hk hgone op (fun hacq => by rw [if_pos hacq] at hfew; omega)
    exact ih (sound_run hs h op) (by omega) hstep (by omega)

/-- One operation on a held slot: the request keeps it under the same id, or it is free. -/
theorem holds_run (h : Sound s n w) (hr : w.Holds r i) (op : Op ρ) :
    ((op.run w).Holds r i ∧ ((op.run w).slots i).gen = (w.slots i).gen) ∨
      ((op.run w).slots i).gen = 0 := by
  obtain ⟨hacq, hsame⟩ | ⟨hacq, r', i', hr', hrun⟩ |
    ⟨hacq, r', i', cleanup, -, hfree, hslot, hrun⟩ := run_cases h op
  · left
    rw [hsame.slots]
    exact ⟨hsame.holds.2 hr, rfl⟩
  · rw [hrun]
    by_cases hi : i = i'
    · subst hi
      right
      simp [Worker.takeBack]
    · left
      have hrr : r ≠ r' := by
        rintro rfl
        exact hi (Option.some.inj (hr.slot.symm.trans hr'.slot))
      have hslots : (w.takeBack r' i').slots i = w.slots i := Function.update_of_ne hi _ _
      exact ⟨holds_of_eq hr hslots (Function.update_of_ne hrr _ _), by rw [hslots]⟩
  · left
    have hi : i ≠ i' := by
      rintro rfl
      obtain ⟨l, hl, -, hmem⟩ := h.free
      rw [hfree] at hl
      obtain ⟨l', rfl, -⟩ := exists_of_links_some hl
      exact hr.gen ((hmem i).1 List.mem_cons_self).2
    have hrr : r ≠ r' := by
      rintro rfl
      rw [hr.slot] at hslot
      cases hslot
    have hslots : (w.give r' i').slots i = w.slots i := Function.update_of_ne hi _ _
    have hgive : (w.give r' i').Holds r i :=
      holds_of_eq hr hslots (Function.update_of_ne hrr _ _)
    -- a slot taken back at once is the other one
    have hrelease : (slotRelease (w.give r' i') i').Holds r i ∧
        ((slotRelease (w.give r' i') i').slots i).gen = (w.slots i).gen := by
      by_cases hz : ((w.give r' i').slots i').gen = 0
      · rw [slotRelease_idle hz]
        exact ⟨hgive, by rw [hslots]⟩
      · rw [give_gen_self] at hz
        rw [slotRelease_held (give_holds w r' hz i')]
        have hback : ((w.give r' i').takeBack r' i').slots i = (w.give r' i').slots i :=
          Function.update_of_ne hi _ _
        exact ⟨holds_of_eq hgive hback (Function.update_of_ne hrr _ _), by rw [hback, hslots]⟩
    rw [hrun]
    split_ifs
    · exact ⟨hgive, by rw [hslots]⟩
    · exact hrelease

/-- **A run after an id was issued**, shorter than the sequence: the request has kept its slot all
along, or the generation has left the slot. -/
theorem holds_or_gone {k : ℕ} (hs : s < 2 ^ 40) (h : Sound s n w) (hk : k < n) (hr : w.Holds r i)
    (hgen : (w.slots i).gen = genAt s k) (ops : List (Op ρ))
    (hfew : n + acquisitions w ops ≤ k + (2 ^ 40 - 1)) :
    (∀ pre, pre <+: ops → (runFrom Op.run w pre).Holds r i ∧
        ((runFrom Op.run w pre).slots i).gen = genAt s k) ∨
      ((runFrom Op.run w ops).slots i).gen ≠ genAt s k := by
  induction ops generalizing n w with
  | nil =>
    left
    intro pre hpre
    rw [List.prefix_nil.1 hpre]
    exact ⟨hr, hgen⟩
  | cons op ops ih =>
    simp only [acquisitions] at hfew
    have hsound := sound_run hs h op
    obtain ⟨hr', hgen'⟩ | hzero := holds_run h hr op
    · obtain hall | hgone := ih hsound (by omega) hr' (hgen'.trans hgen) (by omega)
      · left
        intro pre hpre
        cases pre with
        | nil => exact ⟨hr, hgen⟩
        | cons op' pre =>
          obtain ⟨rfl, hpre'⟩ := List.cons_prefix_cons.1 hpre
          exact hall pre hpre'
      · exact Or.inr hgone
    · right
      refine gone_runs hs hsound (by omega) ?_ ops (by omega)
      rw [hzero]
      exact (genAt_ne_zero s k).symm

/-- **A request id finds its own request or nothing.**  The operation that issues it makes an
acquisition, and fewer than `2 ^ 40 - 1` acquisitions follow. -/
theorem lookup_issued (hs : s < 2 ^ 40) (h : Sound s n w) {cleanup : Bool}
    (hacq : (Op.ensure r cleanup).acquires w = true) (ops : List (Op ρ))
    (hfew : acquisitions ((Op.ensure r cleanup).run w) ops < 2 ^ 40 - 1)
    (hfind : slotLookup (runFrom Op.run ((Op.ensure r cleanup).run w) ops)
      (((Op.ensure r cleanup).run w).ctx r).rid = some i) :
    ∀ pre, pre <+: ops → (runFrom Op.run ((Op.ensure r cleanup).run w) pre).Holds r i ∧
      ((runFrom Op.run ((Op.ensure r cleanup).run w) pre).ctx r).rid =
        (((Op.ensure r cleanup).run w).ctx r).rid := by
  have hsound := sound_run hs h (.ensure r cleanup)
  rw [if_pos hacq] at hsound
  obtain ⟨r', hr', hrid, hgen⟩ := holds_of_lookup (sound_runs hs hsound ops) hfind
  obtain ⟨hno, -⟩ | ⟨hno, -⟩ | ⟨-, r₁, j, cleanup₁, hop, hfree, hslot, hrun⟩ :=
    run_cases h (.ensure r cleanup)
  · exact absurd (hacq.symm.trans hno) (by simp)
  · exact absurd (hacq.symm.trans hno) (by simp)
  · cases hop
    have hnext := nextGen_sound hs h
    have hne : nextGen w.seq ≠ 0 := by rw [hnext]; exact genAt_ne_zero s n
    have hholds := give_holds w r hne j
    have hj : j ≤ indexMask := by
      obtain ⟨l, hl, -, hmem⟩ := h.free
      rw [hfree] at hl
      obtain ⟨l', rfl, -⟩ := exists_of_links_some hl
      exact ((hmem j).1 List.mem_cons_self).1.le.trans h.size
    have hissued : (((Op.ensure r cleanup).run w).ctx r).rid = (genAt s n <<< indexBits) ||| j := by
      rw [hrun, ← hnext]
      split_ifs
      · simp [Worker.give]
      · rw [slotRelease_held hholds]
        simp [Worker.takeBack, Worker.setSlot, Worker.give]
    obtain ⟨hg, hi⟩ := rid_parts (g := genAt s n) hj
    have hij : i = j := by
      have hlt := ((sound_runs hs hsound ops).busy i hr'.gen).1
      have := (rid_parts (g := ((runFrom Op.run ((Op.ensure r cleanup).run w) ops).slots i).gen)
        (hlt.le.trans (sound_runs hs hsound ops).size)).2
      rw [← this, ← hr'.rid, hrid, hissued, hi]
    subst hij
    rw [hissued, hg] at hgen
    cases cleanup with
    | false =>
      have hzero : (((Op.ensure r false).run w).slots i).gen ≠ genAt s n := by
        rw [hrun, if_neg (by simp), slotRelease_held hholds]
        simpa [Worker.takeBack] using (genAt_ne_zero s n).symm
      exact absurd hgen (gone_runs hs hsound (Nat.lt_succ_self n) hzero ops (by omega))
    | true =>
      rw [if_pos rfl] at hrun
      have hgen₀ : (((Op.ensure r true).run w).slots i).gen = genAt s n := by
        rw [hrun, give_gen_self, hnext]
      obtain hall | hgone := holds_or_gone hs hsound (Nat.lt_succ_self n) (hrun ▸ hholds) hgen₀ ops
        (by omega)
      · intro pre hpre
        obtain ⟨hkeep, hkgen⟩ := hall pre hpre
        exact ⟨hkeep, by rw [hkeep.rid, hkgen, hissued]⟩
      · exact absurd hgen hgone

/-! ### Twice -/

/-- Releasing a slot again, or detaching its former request, changes nothing. -/
theorem release_twice (w : Worker ρ) (i : ℕ) : slotRelease (slotRelease w i) i = slotRelease w i := by
  by_cases hgen : (w.slots i).gen = 0
  · rw [slotRelease_idle hgen, slotRelease_idle hgen]
  · apply slotRelease_idle
    simp [slotRelease, hgen]

theorem detach_twice (w : Worker ρ) (r : ρ) : slotDetach (slotDetach w r) r = slotDetach w r := by
  cases hslot : (w.ctx r).slot with
  | none => simp only [slotDetach, hslot]
  | some i =>
    by_cases hi : w.nslots ≤ i
    · simp only [slotDetach, hslot, if_pos hi]
    · have hnone : ((slotDetach w r).ctx r).slot = none := by
        simp [slotDetach, hslot, hi, Worker.setSlot]
      conv_lhs => rw [slotDetach]
      rw [hnone]

theorem slotDetach_held (hsize : w.nslots ≤ indexMask) (hlt : i < w.nslots) (h : w.Holds r i) :
    slotDetach w r = w.takeBack r i := by
  have hgen := (rid_parts (g := (w.slots i).gen) (hlt.le.trans hsize)).1
  simp only [slotDetach, h.slot, Nat.not_le.2 hlt, if_false, h.rid, hgen, if_true,
    slotRelease_held h]
  exact setSlot_none_of_none (takeBack_slot w r i)

/-- **Integrity of the slot table** after every sequence of operations of a worker.  The free list
is sound; every busy slot has a holder, and no two of them one id; a lookup finds a slot only under
the id of its holder, and an id that was issued fewer than `2 ^ 40 - 1` acquisitions ago only while
the request it was issued to has held the slot ever since; and what is released or detached twice is
released once. -/
theorem slot_integrity (nslots random pid : ℕ) (init : Worker ρ)
    (hinit : slotTableInit nslots random pid = some init) (ops : List (Op ρ)) :
    (runFrom Op.run init ops).FreeListed ∧
    (∀ i, ((runFrom Op.run init ops).slots i).gen ≠ 0 → ∃ r, (runFrom Op.run init ops).Holds r i) ∧
    (∀ i j r r', i ≠ j → (runFrom Op.run init ops).Holds r i →
      (runFrom Op.run init ops).Holds r' j →
      ((runFrom Op.run init ops).ctx r).rid ≠ ((runFrom Op.run init ops).ctx r').rid) ∧
    (∀ rid i, slotLookup (runFrom Op.run init ops) rid = some i →
      ∃ r, (runFrom Op.run init ops).Holds r i ∧ ((runFrom Op.run init ops).ctx r).rid = rid) ∧
    (∀ before r cleanup after, ops = before ++ .ensure r cleanup :: after →
      (Op.ensure r cleanup).acquires (runFrom Op.run init before) = true →
      acquisitions (runFrom Op.run init (before ++ [.ensure r cleanup])) after < 2 ^ 40 - 1 →
      ∀ rid i, ((runFrom Op.run init (before ++ [.ensure r cleanup])).ctx r).rid = rid →
        slotLookup (runFrom Op.run init ops) rid = some i →
        ∀ pre, pre <+: after →
          (runFrom Op.run init (before ++ .ensure r cleanup :: pre)).Holds r i ∧
          ((runFrom Op.run init (before ++ .ensure r cleanup :: pre)).ctx r).rid = rid) ∧
    (∀ i, slotRelease (slotRelease (runFrom Op.run init ops) i) i =
      slotRelease (runFrom Op.run init ops) i) ∧
    (∀ r, slotDetach (slotDetach (runFrom Op.run init ops) r) r =
      slotDetach (runFrom Op.run init ops) r) ∧
    (∀ r i, (runFrom Op.run init ops).Holds r i →
      slotDetach (slotRelease (runFrom Op.run init ops) i) r =
          slotRelease (runFrom Op.run init ops) i ∧
        slotRelease (slotDetach (runFrom Op.run init ops) r) i =
          slotDetach (runFrom Op.run init ops) r) := by
  have hs := seqStart_lt random pid
  have h := sound_runs hs (sound_init hinit) ops
  refine ⟨h.free, fun i hi => (h.busy i hi).2, ?_, ?_, ?_, release_twice _, detach_twice _, ?_⟩
  · intro i j r r' hij hr hr'
    have hi := (h.busy i hr.gen).1.le.trans h.size
    have hj := (h.busy j hr'.gen).1.le.trans h.size
    rw [hr.rid, hr'.rid]
    intro heq
    have hpi := (rid_parts (g := ((runFrom Op.run init ops).slots i).gen) hi).2
    have hpj := (rid_parts (g := ((runFrom Op.run init ops).slots j).gen) hj).2
    rw [heq] at hpi
    exact hij (hpi.symm.trans hpj)
  · intro rid i hfind
    obtain ⟨r, hr, hrid, -⟩ := holds_of_lookup h hfind
    exact ⟨r, hr, hrid⟩
  · rintro before r cleanup after rfl hacq hfew rid i rfl hfind pre hpre
    simp only [runFrom_append, runFrom_cons, runFrom_nil] at hfew hfind ⊢
    exact lookup_issued hs (sound_runs hs (sound_init hinit) before) hacq after hfew hfind pre hpre
  · intro r i hr
    have hlt := (h.busy i hr.gen).1
    rw [slotDetach_held h.size hlt hr, slotRelease_held hr]
    constructor
    · simp only [slotDetach, takeBack_slot]
    · apply slotRelease_idle
      simp [Worker.takeBack]

/-- Two requests, one of which leaves its slot and takes another. -/
def twoRequests : List (Op Bool) :=
  [.ensure false true, .ensure true true, .drop false, .ensure false true, .detach true]

theorem slot_integrity_twoRequests :
    slotTableInit 2 7 100 = some (freeTable 2 7 100 : Worker Bool) ∧
      (runFrom Op.run (freeTable 2 7 100) twoRequests).FreeListed :=
  ⟨rfl, (slot_integrity 2 7 100 (freeTable 2 7 100) rfl twoRequests).1⟩

end Integrity

end Slots
