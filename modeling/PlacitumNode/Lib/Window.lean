import Mathlib

/-!
# Counting in a sliding window

Events at times are counted in a ring of `W` slots, one for each second of a window. A slot is cleared
only when the time it stands for comes round again, so that the ring is right about the window that
ends at the last time it was moved to.

* `Counts e b ts`: the ring `b`, moved to `e`, counts those of the events `ts` that lie in the window;
* `counts_sweep`, `counts_clear`, `counts_hit`: moving the ring on and counting an event keep this;
* `sum_of_counts`: the slots add up to the number of events in the window.
-/

namespace Window

variable {W : ℕ} [NeZero W]

abbrev Buckets (W : ℕ) := Fin W → ℕ

/-- The slot of a time. -/
def slot (W : ℕ) [NeZero W] (t : ℕ) : Fin W := Fin.ofNat W t

theorem slot_eq_iff {s t : ℕ} : slot W s = slot W t ↔ s % W = t % W := by
  simp [slot, Fin.ext_iff]

/-- The slots of the times from `e + 1` to `e + n` set to zero, one after the other. -/
def sweep (e n : ℕ) (b : Buckets W) : Buckets W :=
  (List.range n).foldl (fun b i => Function.update b (slot W (e + (i + 1))) 0) b

/-- One more event in the slot of a time. -/
def hit (b : Buckets W) (t : ℕ) : Buckets W := Function.update b (slot W t) (b (slot W t) + 1)

/-- The number of events in the window that ends at `now`. -/
def inWindow (W now : ℕ) (ts : List ℕ) : ℕ := ts.countP fun t => now < t + W

/-- The ring counts the events of the window that ends at `e`; none is later. -/
structure Counts (e : ℕ) (b : Buckets W) (ts : List ℕ) : Prop where
  past : ∀ t ∈ ts, t ≤ e
  slots : ∀ i, b i = ts.countP fun t => e < t + W ∧ slot W t = i

theorem sweep_apply (e n : ℕ) (b : Buckets W) (i : Fin W) :
    sweep e n b i = if ∃ j < n, slot W (e + (j + 1)) = i then 0 else b i := by
  induction n with
  | zero => simp [sweep]
  | succ n ih =>
    have hstep : sweep e (n + 1) b = Function.update (sweep e n b) (slot W (e + (n + 1))) 0 := by
      rw [sweep, List.range_succ, List.foldl_append]
      rfl
    rw [hstep]
    by_cases hlast : i = slot W (e + (n + 1))
    · subst hlast
      rw [Function.update_self, if_pos ⟨n, Nat.lt_succ_self n, rfl⟩]
    · rw [Function.update_of_ne hlast, ih]
      refine if_congr ?_ rfl rfl
      constructor
      · rintro ⟨j, hlt, hj⟩
        exact ⟨j, by omega, hj⟩
      · rintro ⟨j, hlt, hj⟩
        rcases Nat.lt_or_ge j n with hlt | hge
        · exact ⟨j, hlt, hj⟩
        · obtain rfl : j = n := by omega
          exact absurd hj.symm hlast

/-- Times in one slot lie a whole window apart. -/
theorem add_le_of_slot {e j t : ℕ} (hj : j < W) (ht : t ≤ e) (hpos : 1 ≤ j)
    (h : slot W (e + j) = slot W t) : t + W ≤ e + j := by
  rw [slot_eq_iff] at h
  have hmod : (e + j - t) % W = 0 := Nat.sub_mod_eq_zero_of_mod_eq h
  have hle : W ≤ e + j - t := Nat.le_of_dvd (by omega) (Nat.dvd_of_mod_eq_zero hmod)
  omega

/-- A ring that is moved on by less than its length has its passed slots cleared. -/
theorem counts_sweep {e n : ℕ} {b : Buckets W} {ts : List ℕ} (hn : n < W) (h : Counts e b ts) :
    Counts (e + n) (sweep e n b) ts := by
  refine ⟨fun t ht => le_trans (h.past t ht) (Nat.le_add_right e n), fun i => ?_⟩
  rw [sweep_apply]
  split
  · next hex =>
    -- A cleared slot: what it counted has left the window.
    obtain ⟨j, hlt, hj⟩ := hex
    symm
    rw [List.countP_eq_zero]
    intro t ht
    simp only [decide_eq_true_eq, not_and]
    rintro hin rfl
    have hout := add_le_of_slot (by omega) (h.past t ht) (by omega) hj
    omega
  · next hnone =>
    rw [h.slots i]
    refine List.countP_congr fun t ht => ?_
    simp only [decide_eq_true_eq]
    refine and_congr_left fun hslot => ⟨fun hin => ?_, fun hin => by omega⟩
    -- Otherwise the slot of this time would have been passed.
    by_contra hout
    have hpast := h.past t ht
    refine hnone ⟨t + W - e - 1, by omega, ?_⟩
    rw [← hslot, slot_eq_iff, show e + (t + W - e - 1 + 1) = t + W by omega, Nat.add_mod_right]

/-- A ring that is moved on by its length or more is empty. -/
theorem counts_clear {e now : ℕ} {b : Buckets W} {ts : List ℕ} (hn : e + W ≤ now)
    (h : Counts e b ts) : Counts now (fun _ => 0 : Buckets W) ts := by
  refine ⟨fun t ht => le_trans (h.past t ht) (by omega), fun i => ?_⟩
  symm
  rw [List.countP_eq_zero]
  intro t ht
  have hpast := h.past t ht
  simp only [decide_eq_true_eq, not_and]
  omega

/-- An empty ring is right when every event has left the window. -/
theorem counts_zero {now : ℕ} {ts : List ℕ} (h : ∀ t ∈ ts, t + W ≤ now) :
    Counts now (fun _ => 0 : Buckets W) ts := by
  refine ⟨fun t ht => le_trans (Nat.le_add_right t W) (h t ht), fun i => ?_⟩
  symm
  rw [List.countP_eq_zero]
  intro t ht
  have hout := h t ht
  simp only [decide_eq_true_eq, not_and]
  omega

/-- An event at the time the ring was moved to. -/
theorem counts_hit {e : ℕ} {b : Buckets W} {ts : List ℕ} (h : Counts e b ts) :
    Counts e (hit b e) (ts ++ [e]) := by
  have hW : 0 < W := Nat.pos_of_ne_zero (NeZero.ne W)
  refine ⟨fun t ht => ?_, fun i => ?_⟩
  · rcases List.mem_append.1 ht with ht | ht
    · exact h.past t ht
    · exact (List.mem_singleton.1 ht).le
  · rw [List.countP_append, ← h.slots i, hit]
    by_cases hi : i = slot W e
    · subst hi
      rw [Function.update_self]
      simp [hW]
    · rw [Function.update_of_ne hi]
      simp [Ne.symm hi]

/-- **The slots add up to the window.** -/
theorem sum_of_counts {e : ℕ} {b : Buckets W} {ts : List ℕ} (h : Counts e b ts) :
    ∑ i, b i = inWindow W e ts := by
  have hall : ∀ ts : List ℕ, ∑ i, ts.countP (fun t => e < t + W ∧ slot W t = i) =
      ts.countP fun t => e < t + W := by
    intro ts
    induction ts with
    | nil => simp
    | cons t ts ih =>
      simp only [List.countP_cons, Finset.sum_add_distrib, ih]
      by_cases hin : e < t + W
      · simp [hin]
      · simp [hin]
  simp only [h.slots]
  exact hall ts

end Window
