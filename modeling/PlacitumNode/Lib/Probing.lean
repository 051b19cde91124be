import Mathlib

/-!
# Linear probing

A table of `m` slots in which an element is kept at its home slot or, when that is taken, at the next
free one after it.  The probe for an element goes from its home slot on, around the table, to the
element or to the first free slot.

* `probe`: at most as many rounds as it is given;
* `probe_none`, `probe_true`, `probe_false`: where it ends;
* `Clustered`: between the home of an element and its slot there is no free slot;
* `probe_eq`: with a free slot in the table, the probe ends and finds exactly the stored elements;
* `Clustered.insert`: storing an element where its probe ended keeps the table clustered.
-/

namespace Probing

variable {α : Type*} [DecidableEq α] {m : ℕ} {t : ℕ → Option α} {a : α}

/-- From slot `i` on: whether the element is found, and the slot where the probe ends. -/
def probe (m : ℕ) (t : ℕ → Option α) (a : α) : ℕ → ℕ → Option (Bool × ℕ)
  | 0, _ => none
  | fuel + 1, i =>
    match t i with
    | none => some (false, i)
    | some b => if b = a then some (true, i) else probe m t a fuel ((i + 1) % m)

theorem succ_mod_add_mod (m i k : ℕ) : ((i + 1) % m + k) % m = (i + (k + 1)) % m := by
  rw [Nat.mod_add_mod]
  congr 1
  omega

/-- A probe without an end has met taken slots only. -/
theorem probe_none {fuel i : ℕ} (hi : i < m) (h : probe m t a fuel i = none) :
    ∀ k < fuel, t ((i + k) % m) ≠ none := by
  induction fuel generalizing i with
  | zero => intro k hk; omega
  | succ fuel ih =>
    simp only [probe] at h
    cases hb : t i with
    | none =>
      rw [hb] at h
      cases h
    | some b =>
      rw [hb] at h
      simp only at h
      split at h
      · cases h
      · intro k hk
        cases k with
        | zero =>
          rw [Nat.add_zero, Nat.mod_eq_of_lt hi, hb]
          simp
        | succ k =>
          rw [← succ_mod_add_mod]
          exact ih (Nat.mod_lt _ (by omega)) h k (by omega)

theorem probe_true {fuel i j : ℕ} (hi : i < m) (h : probe m t a fuel i = some (true, j)) :
    j < m ∧ t j = some a := by
  induction fuel generalizing i with
  | zero => cases h
  | succ fuel ih =>
    simp only [probe] at h
    cases hb : t i with
    | none =>
      rw [hb] at h
      cases h
    | some b =>
      rw [hb] at h
      simp only at h
      split at h
      · next heq =>
        cases h
        exact ⟨hi, by rw [hb, heq]⟩
      · exact ih (Nat.mod_lt _ (by omega)) h

/-- A probe that finds nothing ends at the first free slot, and has not met the element. -/
theorem probe_false {fuel i j : ℕ} (hi : i < m) (h : probe m t a fuel i = some (false, j)) :
    t j = none ∧ ∃ d < fuel, j = (i + d) % m ∧
      ∀ k < d, t ((i + k) % m) ≠ none ∧ t ((i + k) % m) ≠ some a := by
  induction fuel generalizing i with
  | zero => cases h
  | succ fuel ih =>
    simp only [probe] at h
    cases hb : t i with
    | none =>
      rw [hb] at h
      cases h
      exact ⟨hb, 0, by omega, by rw [Nat.add_zero, Nat.mod_eq_of_lt hi], fun k hk => by omega⟩
    | some b =>
      rw [hb] at h
      simp only at h
      split at h
      · cases h
      · next hne =>
        obtain ⟨hnone, d, hd, hj, hk⟩ := ih (Nat.mod_lt _ (by omega)) h
        refine ⟨hnone, d + 1, by omega, by rw [hj, succ_mod_add_mod], fun k hlt => ?_⟩
        cases k with
        | zero =>
          rw [Nat.add_zero, Nat.mod_eq_of_lt hi, hb]
          simpa using hne
        | succ k =>
          rw [← succ_mod_add_mod]
          exact hk k (by omega)

/-- Every slot is met within one round of the table. -/
theorem exists_offset {i j : ℕ} (hi : i < m) (hj : j < m) : ∃ k < m, (i + k) % m = j := by
  rcases Nat.le_total i j with h | h
  · refine ⟨j - i, by omega, ?_⟩
    rw [show i + (j - i) = j by omega, Nat.mod_eq_of_lt hj]
  · rcases Nat.eq_or_lt_of_le h with rfl | hlt
    · exact ⟨0, by omega, by rw [Nat.add_zero, Nat.mod_eq_of_lt hi]⟩
    · refine ⟨j + m - i, by omega, ?_⟩
      rw [show i + (j + m - i) = j + m by omega, Nat.add_mod_right, Nat.mod_eq_of_lt hj]

/-- No free slot lies between the home of a stored element and its slot. -/
def Clustered (m : ℕ) (home : α → ℕ) (t : ℕ → Option α) : Prop :=
  ∀ j < m, ∀ a, t j = some a → ∃ d < m, j = (home a + d) % m ∧
    ∀ k < d, t ((home a + k) % m) ≠ none

variable {home : α → ℕ}

/-- **The probe ends and is exact** in a clustered table with a free slot. -/
theorem probe_eq (hc : Clustered m home t) (hhome : home a < m) (hfree : ∃ i < m, t i = none) :
    ∃ j, probe m t a m (home a) = some (true, j) ∧ (∃ i < m, t i = some a) ∨
      probe m t a m (home a) = some (false, j) ∧ ∀ i < m, t i ≠ some a := by
  cases h : probe m t a m (home a) with
  | none =>
    obtain ⟨i, hi, hnone⟩ := hfree
    obtain ⟨k, hk, rfl⟩ := exists_offset hhome hi
    exact absurd hnone (probe_none hhome h k hk)
  | some r =>
    obtain ⟨found, j⟩ := r
    refine ⟨j, ?_⟩
    cases found with
    | true => exact .inl ⟨rfl, j, probe_true hhome h⟩
    | false =>
      refine .inr ⟨rfl, fun i hi hia => ?_⟩
      obtain ⟨hnone, d, -, rfl, hbefore⟩ := probe_false hhome h
      obtain ⟨e, -, rfl, htaken⟩ := hc i hi a hia
      rcases Nat.lt_trichotomy e d with hlt | rfl | hgt
      · exact (hbefore e hlt).2 hia
      · rw [hnone] at hia
        cases hia
      · exact htaken d hgt hnone

/-- Storing an element where its probe ended keeps the table clustered. -/
theorem Clustered.insert (hc : Clustered m home t) (hhome : home a < m) {j : ℕ}
    (h : probe m t a m (home a) = some (false, j)) :
    Clustered m home (Function.update t j (some a)) := by
  obtain ⟨hnone, d, hd, hj, hbefore⟩ := probe_false hhome h
  have htaken : ∀ i, t i ≠ none → Function.update t j (some a) i ≠ none := by
    intro i hi
    by_cases hij : i = j
    · rw [hij, Function.update_self]
      simp
    · rwa [Function.update_of_ne hij]
  intro i hi b hb
  by_cases hij : i = j
  · rw [hij, Function.update_self] at hb
    cases hb
    exact ⟨d, hd, hij.trans hj, fun k hk => htaken _ (hbefore k hk).1⟩
  · rw [Function.update_of_ne hij] at hb
    obtain ⟨e, he, hie, hk⟩ := hc i hi b hb
    exact ⟨e, he, hie, fun k hlt => htaken _ (hk k hlt)⟩

omit [DecidableEq α] in
/-- An empty table is clustered. -/
theorem clustered_empty (m : ℕ) (home : α → ℕ) : Clustered m home fun _ => none := by
  intro j hj a ha
  cases ha

end Probing
