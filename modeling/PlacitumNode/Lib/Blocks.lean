import Mathlib

/-!
# Streams absorbed in blocks

A function that takes a state and one block of a fixed size is folded over the whole blocks of a
sequence; what does not fill a block is left over. Cutting the sequence does not matter as long as
what is left over is put before the next part (`absorb_append`), and the fold can be computed on
another representation of the blocks (`foldBlocks_map`).
-/

namespace Blocks

variable {α β σ : Type*} {size : ℕ} {f : σ → List α → σ} {s : σ} {xs ys b : List α}

/-- The first `n` blocks, in order. -/
def foldBlocks (size : ℕ) (f : σ → List α → σ) : ℕ → σ → List α → σ
  | 0, s, _ => s
  | n + 1, s, xs => foldBlocks size f n (f s (xs.take size)) (xs.drop size)

/-- The state behind the whole blocks, and the rest. -/
def absorb (size : ℕ) (f : σ → List α → σ) (s : σ) (xs : List α) : σ × List α :=
  (foldBlocks size f (xs.length / size) s xs, xs.drop (xs.length / size * size))

theorem absorb_short (h : xs.length < size) : absorb size f s xs = (s, xs) := by
  rw [absorb, Nat.div_eq_of_lt h, Nat.zero_mul, List.drop_zero]
  rfl

theorem absorb_block (hsize : 0 < size) (hb : b.length = size) (s : σ) (xs : List α) :
    absorb size f s (b ++ xs) = absorb size f (f s b) xs := by
  have hdiv : (b ++ xs).length / size = xs.length / size + 1 := by
    rw [List.length_append, hb, Nat.add_comm, Nat.add_div_right _ hsize]
  rw [absorb, absorb, hdiv, foldBlocks, List.take_left' hb, List.drop_left' hb, Nat.add_mul,
    Nat.one_mul, Nat.add_comm, ← List.drop_drop, List.drop_left' hb]

/-- A single block. -/
theorem absorb_one (hsize : 0 < size) (hb : b.length = size) (s : σ) :
    absorb size f s b = (f s b, []) := by
  have hblock := absorb_block (f := f) hsize hb s []
  rw [List.append_nil] at hblock
  rw [hblock, absorb_short hsize]

theorem length_absorb_lt (hsize : 0 < size) (s : σ) (xs : List α) :
    (absorb size f s xs).2.length < size := by
  have hmod := Nat.mod_lt xs.length hsize
  have hdiv := Nat.div_add_mod' xs.length size
  rw [absorb, List.length_drop]
  omega

/-- **A cut does not matter.** -/
theorem absorb_append (hsize : 0 < size) (s : σ) (xs ys : List α) :
    absorb size f s (xs ++ ys) =
      absorb size f (absorb size f s xs).1 ((absorb size f s xs).2 ++ ys) := by
  induction hn : xs.length using Nat.strong_induction_on generalizing s xs with
  | h n ih =>
    subst hn
    rcases Nat.lt_or_ge xs.length size with hshort | hlong
    · rw [absorb_short hshort]
    · have hblock : (xs.take size).length = size := by
        rw [List.length_take]
        exact min_eq_left hlong
      have hrest := ih (xs.drop size).length (by rw [List.length_drop]; omega)
        (f s (xs.take size)) (xs.drop size) rfl
      have hcut : absorb size f s xs = absorb size f (f s (xs.take size)) (xs.drop size) := by
        conv_lhs => rw [← List.take_append_drop size xs]
        exact absorb_block hsize hblock s _
      rw [hcut, ← hrest]
      conv_lhs => rw [← List.take_append_drop size xs, List.append_assoc]
      exact absorb_block hsize hblock s _

/-- Blocks may be read off another representation, each element standing for `c` others. -/
theorem foldBlocks_map {c : ℕ} {e : List α → List β} {g : σ → List β → σ}
    (htake : ∀ n xs, (e xs).take (c * n) = e (xs.take n))
    (hdrop : ∀ n xs, (e xs).drop (c * n) = e (xs.drop n))
    (hfg : ∀ s b, b.length = size → f s b = g s (e b)) {n : ℕ} (h : n * size ≤ xs.length) :
    foldBlocks size f n s xs = foldBlocks (c * size) g n s (e xs) := by
  induction n generalizing s xs with
  | zero => rfl
  | succ n ih =>
    rw [Nat.add_mul, Nat.one_mul] at h
    have hblock : (xs.take size).length = size := by
      rw [List.length_take]
      omega
    rw [foldBlocks, foldBlocks, htake, hdrop, hfg s _ hblock]
    exact ih (by rw [List.length_drop]; omega)

end Blocks
