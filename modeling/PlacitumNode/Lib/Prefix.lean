import PlacitumNode.Lib.Framing

/-!
# Network prefixes

Byte strings as big-endian numbers.  `memcmp` of two strings of one length compares their values,
and the mask of a prefix of `len` bits cuts a string down to a multiple of a power of two, so that
the strings with the same first `len` bits are an interval (`agree_iff`).
-/

namespace Octets

open Framing

theorem be_append (l m : Bytes) : be (l ++ m) = be l * 256 ^ m.length + be m := by
  induction m using List.reverseRecOn with
  | nil => simp [be]
  | append_singleton m b ih =>
    rw [← List.append_assoc, be_concat, be_concat, ih, List.length_append, List.length_singleton,
      pow_succ]
    ring

theorem be_cons (b : UInt8) (l : Bytes) : be (b :: l) = b.toNat * 256 ^ l.length + be l := by
  have h := be_append [b] l
  simpa [be] using h

/-- The value of the first bytes. -/
theorem be_take {l : Bytes} {n k : ℕ} (hl : l.length = n + k) : be l / 256 ^ k = be (l.take n) := by
  have hlen : (l.drop n).length = k := by
    rw [List.length_drop]
    omega
  have hlt := be_lt (l.drop n)
  rw [hlen] at hlt
  conv_lhs => rw [← List.take_append_drop n l]
  rw [be_append, hlen, Nat.mul_comm, Nat.mul_add_div (by positivity), Nat.div_eq_of_lt hlt,
    Nat.add_zero]

/-- The difference of the first bytes that differ, as the C library compares memory. -/
def memcmp : Bytes → Bytes → ℤ
  | a :: l, b :: m => if a = b then memcmp l m else (a.toNat : ℤ) - b.toNat
  | _, _ => 0

/-- `memcmp` compares the values. -/
theorem memcmp_cases {l m : Bytes} (h : l.length = m.length) :
    memcmp l m < 0 ∧ be l < be m ∨ memcmp l m = 0 ∧ l = m ∨ 0 < memcmp l m ∧ be m < be l := by
  induction l generalizing m with
  | nil =>
    obtain rfl := List.length_eq_zero_iff.1 h.symm
    exact .inr (.inl ⟨rfl, rfl⟩)
  | cons a l ih =>
    obtain ⟨b, m, rfl⟩ := List.exists_cons_of_length_eq_add_one h.symm
    have hlen : l.length = m.length := Nat.succ.inj h
    have hl := be_lt l
    have hm := be_lt m
    simp only [memcmp, be_cons]
    rw [hlen] at hl ⊢
    split
    · next heq =>
      subst heq
      rcases ih hlen with ⟨h1, h2⟩ | ⟨h1, rfl⟩ | ⟨h1, h2⟩
      · exact .inl ⟨h1, by omega⟩
      · exact .inr (.inl ⟨h1, rfl⟩)
      · exact .inr (.inr ⟨h1, by omega⟩)
    · next hne =>
      have hne' : a.toNat ≠ b.toNat := fun h => hne (UInt8.toNat_inj.1 h)
      rcases Nat.lt_or_gt_of_ne hne' with hlt | hgt
      · have := Nat.mul_le_mul_right (256 ^ m.length) hlt
        exact .inl ⟨by omega, by rw [Nat.succ_mul] at this; omega⟩
      · have := Nat.mul_le_mul_right (256 ^ m.length) hgt
        exact .inr (.inr ⟨by omega, by rw [Nat.succ_mul] at this; omega⟩)

theorem memcmp_nonpos {l m : Bytes} (h : l.length = m.length) : memcmp l m ≤ 0 ↔ be l ≤ be m := by
  rcases memcmp_cases h with ⟨h1, h2⟩ | ⟨h1, rfl⟩ | ⟨h1, h2⟩
  · omega
  · omega
  · omega

theorem memcmp_nonneg {l m : Bytes} (h : l.length = m.length) : 0 ≤ memcmp l m ↔ be m ≤ be l := by
  rcases memcmp_cases h with ⟨h1, h2⟩ | ⟨h1, rfl⟩ | ⟨h1, h2⟩
  · omega
  · omega
  · omega

theorem memcmp_eq_zero {l m : Bytes} (h : l.length = m.length) : memcmp l m = 0 ↔ l = m := by
  rcases memcmp_cases h with ⟨h1, h2⟩ | ⟨h1, rfl⟩ | ⟨h1, h2⟩
  · exact ⟨fun h => by omega, fun h => by subst h; omega⟩
  · simp [h1]
  · exact ⟨fun h => by omega, fun h => by subst h; omega⟩

theorem be_injective {l m : Bytes} (h : l.length = m.length) (hv : be l = be m) : l = m :=
  (memcmp_eq_zero h).1 (le_antisymm ((memcmp_nonpos h).2 hv.le) ((memcmp_nonneg h).2 hv.ge))

/-! ### Masks -/

/-- The mask byte with `s` leading ones. -/
def maskByte (s : ℕ) : UInt8 := UInt8.ofNat (256 - 2 ^ (8 - s))

/-- The `n` mask bytes of a prefix of `len` bits. -/
def maskBytes : ℕ → ℕ → Bytes
  | 0, _ => []
  | n + 1, len => maskByte (min len 8) :: maskBytes n (len - min len 8)

@[simp] theorem length_maskBytes (n len : ℕ) : (maskBytes n len).length = n := by
  induction n generalizing len with
  | zero => rfl
  | succ n ih => simp [maskBytes, ih]

def masked (a m : Bytes) : Bytes := List.zipWith (· &&& ·) a m

/-- The last address with the prefix: the bits the mask leaves free are set. -/
def filled (a m : Bytes) : Bytes := List.zipWith (fun a m => a ||| ~~~m) a m

/-- Two strings agree in their first `len` bits of `8 * n`. -/
def Agree (n len : ℕ) (a b : Bytes) : Prop :=
  be a / 2 ^ (8 * n - len) = be b / 2 ^ (8 * n - len)

instance (n len : ℕ) (a b : Bytes) : Decidable (Agree n len a b) :=
  inferInstanceAs (Decidable (be a / 2 ^ (8 * n - len) = be b / 2 ^ (8 * n - len)))

theorem maskByte_facts : ∀ s < 9, ∀ b < 256,
    (UInt8.ofNat b &&& maskByte s).toNat = b / 2 ^ (8 - s) * 2 ^ (8 - s) ∧
    ((UInt8.ofNat b &&& maskByte s) ||| ~~~maskByte s).toNat =
      b / 2 ^ (8 - s) * 2 ^ (8 - s) + (2 ^ (8 - s) - 1) ∧
    (maskByte s).toNat = 256 - 2 ^ (8 - s) := by
  decide +kernel

theorem toNat_and_maskByte {s : ℕ} (hs : s ≤ 8) (b : UInt8) :
    (b &&& maskByte s).toNat = b.toNat / 2 ^ (8 - s) * 2 ^ (8 - s) := by
  have h := (maskByte_facts s (by omega) b.toNat b.toNat_lt).1
  rwa [UInt8.ofNat_toNat] at h

theorem toNat_fill_maskByte {s : ℕ} (hs : s ≤ 8) (b : UInt8) :
    ((b &&& maskByte s) ||| ~~~maskByte s).toNat =
      b.toNat / 2 ^ (8 - s) * 2 ^ (8 - s) + (2 ^ (8 - s) - 1) := by
  have h := (maskByte_facts s (by omega) b.toNat b.toNat_lt).2.1
  rwa [UInt8.ofNat_toNat] at h

theorem toNat_maskByte {s : ℕ} (hs : s ≤ 8) : (maskByte s).toNat = 256 - 2 ^ (8 - s) :=
  (maskByte_facts s (by omega) 0 (by omega)).2.2

theorem pow_256 (n : ℕ) : 256 ^ n = 2 ^ (8 * n) := by
  rw [pow_mul]
  norm_num

/-- The prefix of a string whose prefix ends after the first byte. -/
theorem be_cons_div {n k : ℕ} (b : UInt8) {l : Bytes} (hl : l.length = n) (hk : k ≤ 8 * n) :
    be (b :: l) / 2 ^ k * 2 ^ k = b.toNat * 256 ^ n + be l / 2 ^ k * 2 ^ k := by
  obtain ⟨j, hj⟩ := Nat.exists_eq_add_of_le hk
  have h256 : b.toNat * 256 ^ n = 2 ^ k * (b.toNat * 2 ^ j) := by
    rw [pow_256, hj, pow_add]
    ring
  have hpos : 0 < 2 ^ k := by positivity
  simp only [be_cons, hl]
  rw [h256, Nat.mul_add_div hpos]
  ring

/-- The prefix of a string whose prefix ends within the first byte. -/
theorem be_cons_div_of_le {n k : ℕ} (b : UInt8) {l : Bytes} (hl : l.length = n) :
    be (b :: l) / 2 ^ (k + 8 * n) = b.toNat / 2 ^ k := by
  have hlt := be_lt l
  simp only [be_cons, hl] at hlt ⊢
  rw [Nat.add_comm k, pow_add, ← Nat.div_div_eq_div_mul, ← pow_256, Nat.mul_comm,
    Nat.mul_add_div (by positivity), Nat.div_eq_of_lt hlt, Nat.add_zero]

/-- The string cut to its prefix. -/
theorem be_masked {n len : ℕ} {a : Bytes} (ha : a.length = n) (hlen : len ≤ 8 * n) :
    be (masked a (maskBytes n len)) = be a / 2 ^ (8 * n - len) * 2 ^ (8 * n - len) := by
  induction n generalizing len a with
  | zero =>
    obtain rfl := List.length_eq_zero_iff.1 ha
    simp [masked, maskBytes, be]
  | succ n ih =>
    obtain ⟨b, l, rfl⟩ := List.exists_cons_of_length_eq_add_one ha
    have hl : l.length = n := Nat.succ.inj ha
    have hlen' : (masked l (maskBytes n (len - min len 8))).length = n := by simp [masked, hl]
    have hs : masked (b :: l) (maskBytes (n + 1) len) =
        (b &&& maskByte (min len 8)) :: masked l (maskBytes n (len - min len 8)) := rfl
    rw [hs, be_cons, hlen', toNat_and_maskByte (min_le_right _ _), ih hl (by omega)]
    rcases Nat.le_total 8 len with h8 | h8
    · rw [min_eq_right h8, show 8 * (n + 1) - len = 8 * n - (len - 8) by omega,
        be_cons_div b hl (by omega)]
      simp
    · have hlt := be_lt l
      rw [hl, pow_256] at hlt
      rw [min_eq_left h8, Nat.sub_self, Nat.sub_zero, Nat.div_eq_of_lt hlt,
        show 8 * (n + 1) - len = 8 - len + 8 * n by omega, be_cons_div_of_le b hl, pow_add, pow_256]
      ring

/-- The end of the interval of the strings with the prefix. -/
theorem be_filled {n len : ℕ} {a : Bytes} (ha : a.length = n) (hlen : len ≤ 8 * n) :
    be (filled (masked a (maskBytes n len)) (maskBytes n len)) =
      be a / 2 ^ (8 * n - len) * 2 ^ (8 * n - len) + (2 ^ (8 * n - len) - 1) := by
  induction n generalizing len a with
  | zero =>
    obtain rfl := List.length_eq_zero_iff.1 ha
    obtain rfl : len = 0 := by omega
    simp [filled, masked, maskBytes, be]
  | succ n ih =>
    obtain ⟨b, l, rfl⟩ := List.exists_cons_of_length_eq_add_one ha
    have hl : l.length = n := Nat.succ.inj ha
    have hlen' : (filled (masked l (maskBytes n (len - min len 8)))
        (maskBytes n (len - min len 8))).length = n := by simp [filled, masked, hl]
    have hs : filled (masked (b :: l) (maskBytes (n + 1) len)) (maskBytes (n + 1) len) =
        ((b &&& maskByte (min len 8)) ||| ~~~maskByte (min len 8)) ::
          filled (masked l (maskBytes n (len - min len 8))) (maskBytes n (len - min len 8)) := rfl
    rw [hs, be_cons, hlen', toNat_fill_maskByte (min_le_right _ _), ih hl (by omega)]
    rcases Nat.le_total 8 len with h8 | h8
    · rw [min_eq_right h8, show 8 * (n + 1) - len = 8 * n - (len - 8) by omega,
        be_cons_div b hl (by omega)]
      simp [Nat.add_assoc]
    · have hlt := be_lt l
      rw [hl, pow_256] at hlt
      have hpos : 0 < 2 ^ (8 * n) := by positivity
      have hposk : 0 < 2 ^ (8 - len) := by positivity
      rw [min_eq_left h8, Nat.sub_self, Nat.sub_zero, Nat.div_eq_of_lt hlt,
        show 8 * (n + 1) - len = 8 - len + 8 * n by omega, be_cons_div_of_le b hl, pow_add, pow_256]
      generalize 2 ^ (8 - len) = p at hposk ⊢
      generalize 2 ^ (8 * n) = q at hpos ⊢
      obtain ⟨p, rfl⟩ := Nat.exists_eq_add_of_le' hposk
      obtain ⟨q, rfl⟩ := Nat.exists_eq_add_of_le' hpos
      simp only [Nat.add_sub_cancel, Nat.zero_mul, Nat.zero_add,
        show (p + 1) * (q + 1) - 1 = p * (q + 1) + q by
          rw [Nat.succ_mul]
          omega]
      ring

theorem be_maskBytes {n len : ℕ} (hlen : len ≤ 8 * n) :
    be (maskBytes n len) + 2 ^ (8 * n - len) = 2 ^ (8 * n) := by
  induction n generalizing len with
  | zero =>
    obtain rfl : len = 0 := by omega
    simp [maskBytes, be]
  | succ n ih =>
    have hih := @ih (len - min len 8) (by omega)
    simp only [maskBytes, be_cons, length_maskBytes]
    rw [toNat_maskByte (min_le_right _ _), pow_256]
    rcases Nat.le_total 8 len with h8 | h8
    · rw [min_eq_right h8] at hih ⊢
      rw [show 8 * (n + 1) - len = 8 * n - (len - 8) by omega, Nat.add_assoc, hih,
        show 8 * (n + 1) = 8 * n + 8 by omega, pow_add]
      norm_num
      ring
    · rw [min_eq_left h8] at hih ⊢
      rw [Nat.sub_self, Nat.sub_zero] at hih
      rw [Nat.sub_self]
      have hp : 2 ^ (8 - len) ≤ 256 := Nat.pow_le_pow_right (by omega) (Nat.sub_le 8 len)
      have hzero : be (maskBytes n 0) = 0 := by omega
      rw [hzero, show 8 * (n + 1) - len = 8 - len + 8 * n by omega, pow_add, Nat.add_zero,
        ← Nat.add_mul, Nat.sub_add_cancel hp, show 8 * (n + 1) = 8 + 8 * n by omega, pow_add]
      norm_num

theorem maskByte_eq_ones : ∀ s < 9, maskByte s = 0xff ↔ s = 8 := by decide

theorem take_maskBytes {n j len : ℕ} (hj : j ≤ n) :
    (maskBytes n len).take j = List.replicate j 0xff ↔ 8 * j ≤ len := by
  induction j generalizing n len with
  | zero => simp
  | succ j ih =>
    obtain ⟨n, rfl⟩ := Nat.exists_eq_add_of_le' (Nat.one_le_of_lt hj)
    rw [maskBytes, List.take_succ_cons, List.replicate_succ, List.cons.injEq,
      maskByte_eq_ones _ (by omega), ih (by omega)]
    omega

theorem drop_maskBytes (n j len : ℕ) :
    (maskBytes (j + n) len).drop j = maskBytes n (len - 8 * j) := by
  induction j generalizing len with
  | zero => simp
  | succ j ih =>
    rw [Nat.succ_add, maskBytes, List.drop_succ_cons, ih]
    congr 1
    omega

/-- **The strings with one prefix are an interval.** -/
theorem agree_iff {n len : ℕ} {a x : Bytes} :
    Agree n len x a ↔ be a / 2 ^ (8 * n - len) * 2 ^ (8 * n - len) ≤ be x ∧
      be x ≤ be a / 2 ^ (8 * n - len) * 2 ^ (8 * n - len) + (2 ^ (8 * n - len) - 1) := by
  have hpos : 0 < 2 ^ (8 * n - len) := by positivity
  unfold Agree
  rw [Nat.div_eq_iff hpos, Nat.add_sub_assoc hpos]

end Octets
