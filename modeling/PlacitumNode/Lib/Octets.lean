import Mathlib

/-!
# Byte strings

Byte strings as lists of octets, the bytes of an ASCII literal, and the fixed-width hexadecimal
form of a number, which is injective on the numbers that fit the width.
-/

namespace Octets

abbrev Bytes := List UInt8

instance lawful_bytes : LawfulBEq Bytes := inferInstance

/-- The bytes of an ASCII literal. -/
def ascii (s : String) : Bytes := s.toList.map fun c => UInt8.ofNat c.toNat

/-- The lower-case hexadecimal digit of `d < 16`. -/
def hexDigit (d : ℕ) : UInt8 := if d < 10 then UInt8.ofNat (48 + d) else UInt8.ofNat (87 + d)

/-- The last `n` hexadecimal digits of `v`, written from the last digit to the first. -/
def hexField : ℕ → ℕ → Bytes
  | 0, _ => []
  | n + 1, v => hexField n (v / 16) ++ [hexDigit (v % 16)]

@[simp] theorem length_hexField (n v : ℕ) : (hexField n v).length = n := by
  induction n generalizing v with
  | zero => rfl
  | succ n ih => simp [hexField, ih]

theorem hexDigit_injective {a b : ℕ} (ha : a < 16) (hb : b < 16) (h : hexDigit a = hexDigit b) :
    a = b := by
  have hall : ∀ a < 16, ∀ b < 16, hexDigit a = hexDigit b → a = b := by decide
  exact hall a ha b hb h

/-- Numbers that fit the width are told apart by their digits. -/
theorem hexField_injective {n a b : ℕ} (ha : a < 16 ^ n) (hb : b < 16 ^ n)
    (h : hexField n a = hexField n b) : a = b := by
  induction n generalizing a b with
  | zero => omega
  | succ n ih =>
    obtain ⟨hq, hr⟩ := List.append_inj h (by simp)
    have hq' := ih (Nat.div_lt_of_lt_mul (by rw [← pow_succ']; exact ha))
      (Nat.div_lt_of_lt_mul (by rw [← pow_succ']; exact hb)) hq
    have hr' := hexDigit_injective (Nat.mod_lt _ (by norm_num)) (Nat.mod_lt _ (by norm_num))
      (List.singleton_inj.1 hr)
    omega

end Octets
