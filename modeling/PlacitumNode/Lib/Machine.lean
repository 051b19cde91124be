import Mathlib

/-!
# Machine words and clocks

The few facts about two's complement arithmetic on 64-bit words that a program counting time and
charges in such words needs: the signed reading of a word, and the product of two words divided
by a scale.
-/

namespace Machine

/-- A 64-bit word read as a signed integer. -/
def signed (x : ℤ) : ℤ := Int.bmod x (2 ^ 64)

theorem signed_eq_self {x : ℤ} (h₁ : -2 ^ 63 ≤ x) (h₂ : x < 2 ^ 63) : signed x = x := by
  unfold signed
  rw [Int.bmod_eq_of_le_mul_two] <;> omega

/-- Reading a non-negative number as a signed word never makes it larger. -/
theorem signed_le {x : ℤ} (h : -2 ^ 63 ≤ x) : signed x ≤ x := by
  have h₁ := Int.bmod_lt (x := x) (m := 2 ^ 64) (by norm_num)
  by_cases hx : x < 2 ^ 63
  · rw [signed_eq_self h hx]
  · unfold signed
    norm_num at h₁ ⊢
    omega

/-- A word read as a signed integer and back. -/
theorem signed_emod {n : ℕ} (h : n < 2 ^ 64) : (signed n % 2 ^ 64).toNat = n := by
  have h₁ : signed n % ((2 ^ 64 : ℕ) : ℤ) = n % ((2 ^ 64 : ℕ) : ℤ) := Int.bmod_emod
  push_cast at h₁
  omega

theorem signed_lt (x : ℤ) : signed x < 2 ^ 63 := by
  have h := Int.bmod_lt (x := x) (m := 2 ^ 64) (by norm_num)
  unfold signed
  norm_num at h ⊢
  omega

theorem signed_neg {n : ℕ} (h₁ : 2 ^ 63 ≤ n) (h₂ : n < 2 ^ 64) : signed n < 0 := by
  have h := signed_emod h₂
  have hlt := signed_lt n
  by_contra hneg
  omega

/-- A difference of words, whether or not the second one has been cut to a word. -/
theorem signed_sub_mod (a : ℤ) (n : ℕ) : signed (a - ((n % 2 ^ 64 : ℕ) : ℤ)) = signed (a - n) := by
  have h : a - ((n % 2 ^ 64 : ℕ) : ℤ) = a - (n : ℤ) + (2 ^ 64 : ℕ) * (n / 2 ^ 64 : ℕ) := by
    have := Nat.mod_add_div n (2 ^ 64)
    push_cast
    omega
  unfold signed
  rw [h, Int.add_mul_bmod_self_left]

/-- The product of two words, wrapped, over a thousand. -/
def perMille (a b : ℕ) : ℕ := a * b % 2 ^ 64 / 1000

/-- Wrapping and truncating only lose: a thousand times the quotient is at most the product. -/
theorem perMille_mul_le (a b : ℕ) : 1000 * perMille a b ≤ a * b := by
  unfold perMille
  have h₁ := Nat.div_mul_le_self (a * b % 2 ^ 64) 1000
  have h₂ := Nat.mod_le (a * b) (2 ^ 64)
  omega

end Machine
