import Mathlib

/-!
# Masks of 64 flags

Sets of small indices kept in one 64-bit word.  `has` reads a flag; the word operators are read
through it by `simp`, and the two tests that programs make on whole words (`m &&& n = n` and
`m &&& n ≠ 0`) are turned into statements about flags.
-/

namespace Flags

abbrev Mask := BitVec 64

abbrev Index := Fin 64

instance neZero_indices : NeZero 64 := ⟨by decide⟩

/-- The flag `i` of the mask. -/
def has (m : Mask) (i : Index) : Bool := m.getLsbD i.val

/-- The mask of one flag. -/
def bit (i : Index) : Mask := BitVec.twoPow 64 i.val

/-- The mask of the flags that satisfy `p`. -/
def ofPred (p : Index → Bool) : Mask :=
  (List.finRange 64).foldl (fun m i => if p i then m ||| bit i else m) 0#64

@[simp] theorem has_zero (i : Index) : has 0#64 i = false := by simp [has]

@[simp] theorem has_and (m n : Mask) (i : Index) : has (m &&& n) i = (has m i && has n i) := by
  simp [has]

@[simp] theorem has_or (m n : Mask) (i : Index) : has (m ||| n) i = (has m i || has n i) := by
  simp [has]

@[simp] theorem has_not (m : Mask) (i : Index) : has (~~~m) i = !has m i := by
  simp [has]

@[simp] theorem has_bit (i j : Index) : has (bit i) j = decide (i = j) := by
  simp [has, bit, Fin.ext_iff, eq_comm]

theorem ext_has {m n : Mask} (h : ∀ i, has m i = has n i) : m = n :=
  BitVec.eq_of_getLsbD_eq fun i hi => h ⟨i, hi⟩

/-- `m` holds every flag of `n`. -/
theorem and_eq_right_iff {m n : Mask} : m &&& n = n ↔ ∀ i, has n i = true → has m i = true := by
  constructor
  · intro h i hn
    have := congrArg (has · i) h
    simp only [has_and, hn, Bool.and_true] at this
    exact this
  · intro h
    apply ext_has
    intro i
    cases hn : has n i with
    | false => simp [hn]
    | true => simp [hn, h i hn]

/-- `m` and `n` share a flag. -/
theorem and_ne_zero_iff {m n : Mask} : m &&& n ≠ 0#64 ↔ ∃ i, has m i = true ∧ has n i = true := by
  constructor
  · intro h
    by_contra hne
    push Not at hne
    apply h
    apply ext_has
    intro i
    cases hm : has m i with
    | false => simp [hm]
    | true => simpa [hm] using hne i hm
  · rintro ⟨i, hm, hn⟩ h
    have := congrArg (has · i) h
    simp [hm, hn] at this

theorem has_foldl_bits (p : Index → Bool) (l : List Index) (m : Mask) (j : Index) :
    has (l.foldl (fun m i => if p i then m ||| bit i else m) m) j =
      (has m j || (p j && decide (j ∈ l))) := by
  induction l generalizing m with
  | nil => simp
  | cons i l ih =>
    rw [List.foldl_cons, ih]
    by_cases hij : i = j
    · subst hij
      cases hp : p i <;> simp
    · have hji : j ≠ i := fun h => hij h.symm
      cases hp : p i <;> simp [hij, hji]

@[simp] theorem has_ofPred (p : Index → Bool) (i : Index) : has (ofPred p) i = p i := by
  unfold ofPred
  rw [has_foldl_bits]
  simp

end Flags
