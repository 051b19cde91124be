import PlacitumNode.Lib.Octets

/-!
# Numerals as nginx reads and writes them

* `atoi`, `hextoi`: `ngx_atoi` and `ngx_hextoi`, with their guards against overflow;
* `decimal`, `hexPad`: what `ngx_sprintf` writes for `%ui` and for a padded `%xi`;
* `hextoi_hexField`: the digits of a fixed width are read back;
* `atoi_decimal`: what is written is read back.
-/

namespace Numerals

open Octets

/-- `NGX_MAX_INT_T_VALUE` -/
def maxInt : ℕ := 2 ^ 63 - 1

/-! ### Reading -/

def atoiFrom : ℕ → Bytes → Option ℕ
  | v, [] => some v
  | v, c :: cs =>
    if c < 48 ∨ c > 57 then none
    else if v ≥ maxInt / 10 ∧ (v > maxInt / 10 ∨ c.toNat - 48 > maxInt % 10) then none
    else atoiFrom (v * 10 + (c.toNat - 48)) cs

/-- `ngx_atoi`; `none` is `NGX_ERROR`. -/
def atoi (cs : Bytes) : Option ℕ := if cs = [] then none else atoiFrom 0 cs

/-- The value of a hexadecimal digit in either letter case. -/
def hexValueOf (c : UInt8) : Option ℕ :=
  if 48 ≤ c ∧ c ≤ 57 then some (c.toNat - 48)
  else if 97 ≤ (c ||| 32) ∧ (c ||| 32) ≤ 102 then some ((c ||| 32).toNat - 87)
  else none

def hextoiFrom : ℕ → Bytes → Option ℕ
  | v, [] => some v
  | v, c :: cs =>
    if v > maxInt / 16 then none
    else
      match hexValueOf c with
      | none => none
      | some d => hextoiFrom (v * 16 + d) cs

/-- `ngx_hextoi`; `none` is `NGX_ERROR`. -/
def hextoi (cs : Bytes) : Option ℕ := if cs = [] then none else hextoiFrom 0 cs

/-! ### Writing -/

/-- `%ui` and `%uz` -/
def decimal (n : ℕ) : Bytes := (Nat.toDigits 10 n).map fun c => UInt8.ofNat c.toNat

/-- `%0<width>xi`: the hexadecimal digits without leading zeros, filled up to the width. -/
def hexPad (width n : ℕ) : Bytes :=
  let digits := (Nat.toDigits 16 n).map fun c => UInt8.ofNat c.toNat
  List.replicate (width - digits.length) 48 ++ digits

/-! ### Digits of a fixed width -/

theorem hexValueOf_hexDigit {d : ℕ} (hd : d < 16) : hexValueOf (hexDigit d) = some d := by
  have hall : ∀ d < 16, hexValueOf (hexDigit d) = some d := by decide
  exact hall d hd

theorem hextoiFrom_append (v : ℕ) (cs ds : Bytes) :
    hextoiFrom v (cs ++ ds) = (hextoiFrom v cs).bind fun u => hextoiFrom u ds := by
  induction cs generalizing v with
  | nil => rfl
  | cons c cs ih =>
    simp only [List.cons_append, hextoiFrom]
    split
    · rfl
    · cases hexValueOf c with
      | none => rfl
      | some d => exact ih _

/-- Fixed-width digits that fit an integer are read back. -/
theorem hextoiFrom_hexField {n v : ℕ} (hv : v < 16 ^ n) (hmax : v ≤ maxInt) :
    hextoiFrom 0 (hexField n v) = some v := by
  induction n generalizing v with
  | zero =>
    obtain rfl : v = 0 := by simpa using hv
    rfl
  | succ n ih =>
    have hlt : v / 16 < 16 ^ n := Nat.div_lt_of_lt_mul (by rw [← pow_succ']; exact hv)
    have hle : v / 16 ≤ maxInt := le_trans (Nat.div_le_self v 16) hmax
    have hcut : ¬ v / 16 > maxInt / 16 := Nat.not_lt.2 (Nat.div_le_div_right hmax)
    rw [hexField, hextoiFrom_append, ih hlt hle, Option.bind_some]
    simp only [hextoiFrom, if_neg hcut, hexValueOf_hexDigit (Nat.mod_lt v (by norm_num : 0 < 16))]
    rw [Nat.div_add_mod' v 16]

theorem hextoi_hexField {n v : ℕ} (hn : 0 < n) (hv : v < 16 ^ n) (hmax : v ≤ maxInt) :
    hextoi (hexField n v) = some v := by
  have hne : hexField n v ≠ [] := by
    rw [← List.length_pos_iff_ne_nil, length_hexField]
    exact hn
  rw [hextoi, if_neg hne, hextoiFrom_hexField hv hmax]

/-- Two digits hold every number below 256. -/
theorem hexPad_two {n : ℕ} (hn : n < 256) : hexPad 2 n = hexField 2 n := by
  have hall : ∀ n < 256, hexPad 2 n = hexField 2 n := by decide +kernel
  exact hall n hn

/-! ### Decimal numbers -/

theorem decimal_eq_if (n : ℕ) : decimal n =
    if n < 10 then [UInt8.ofNat (48 + n)] else decimal (n / 10) ++ [UInt8.ofNat (48 + n % 10)] := by
  have hdigit : ∀ d < 10, UInt8.ofNat d.digitChar.toNat = UInt8.ofNat (48 + d) := by decide
  rw [decimal, Nat.toDigits_eq_if (by norm_num)]
  split_ifs with h
  · rw [List.map_singleton, hdigit n h]
  · rw [List.map_append, List.map_singleton, hdigit _ (Nat.mod_lt _ (by norm_num))]
    rfl

theorem atoiFrom_append (v : ℕ) (cs ds : Bytes) :
    atoiFrom v (cs ++ ds) = (atoiFrom v cs).bind fun u => atoiFrom u ds := by
  induction cs generalizing v with
  | nil => rfl
  | cons c cs ih =>
    simp only [List.cons_append, atoiFrom]
    split_ifs with hdigit hover
    · rfl
    · rfl
    · exact ih _

/-- One more digit, where the number stays within an integer. -/
theorem atoiFrom_digit {v d : ℕ} (hd : d < 10) (h : v * 10 + d ≤ maxInt) :
    atoiFrom v [UInt8.ofNat (48 + d)] = some (v * 10 + d) := by
  have hvalue : ∀ d < 10, ¬ (UInt8.ofNat (48 + d) < 48 ∨ UInt8.ofNat (48 + d) > 57) ∧
      (UInt8.ofNat (48 + d)).toNat - 48 = d := by decide
  obtain ⟨hdigit, hval⟩ := hvalue d hd
  simp only [atoiFrom]
  rw [if_neg hdigit, hval, if_neg (by unfold maxInt at h ⊢; omega)]

theorem atoiFrom_decimal {n : ℕ} (h : n ≤ maxInt) : atoiFrom 0 (decimal n) = some n := by
  induction n using Nat.strong_induction_on with
  | _ n ih =>
    rw [decimal_eq_if]
    split_ifs with hten
    · have hone := atoiFrom_digit (v := 0) hten (by omega)
      rwa [Nat.zero_mul, Nat.zero_add] at hone
    · rw [atoiFrom_append, ih (n / 10) (by omega) (by omega), Option.bind_some,
        atoiFrom_digit (Nat.mod_lt _ (by norm_num)) (by omega), Nat.div_add_mod' n 10]

theorem decimal_ne_nil (n : ℕ) : decimal n ≠ [] := by
  rw [decimal_eq_if]
  split_ifs <;> simp

/-- **A decimal number is read back.** -/
theorem atoi_decimal {n : ℕ} (h : n ≤ maxInt) : atoi (decimal n) = some n := by
  rw [atoi, if_neg (decimal_ne_nil n), atoiFrom_decimal h]

/-- Only digits are written. -/
theorem digit_of_mem_decimal {n : ℕ} {c : UInt8} (h : c ∈ decimal n) : 48 ≤ c ∧ c ≤ 57 := by
  have hvalue : ∀ d < 10, 48 ≤ UInt8.ofNat (48 + d) ∧ UInt8.ofNat (48 + d) ≤ 57 := by decide
  induction n using Nat.strong_induction_on with
  | _ n ih =>
    rw [decimal_eq_if] at h
    split_ifs at h with hten
    · rw [List.mem_singleton.1 h]
      exact hvalue n hten
    · rcases List.mem_append.1 h with h | h
      · exact ih (n / 10) (by omega) h
      · rw [List.mem_singleton.1 h]
        exact hvalue _ (Nat.mod_lt _ (by norm_num))

end Numerals
