import PlacitumNode.Lib.Blocks
import PlacitumNode.Lib.Octets

/-!
# SHA-256 (FIPS 180-4)

The hash of a bit string, section by section of the standard: the functions and constants of 4.1.2
and 4.2.2, the padding of 5.1.1, the initial value of 5.3.3 and the computation of 6.2.2. For
messages of whole bytes the padding is written out in bytes (`pad_bits`).
-/

namespace Fips180

open Blocks Octets

/-! ### Functions -/

abbrev Word := BitVec 32

def ch (x y z : Word) : Word := (x &&& y) ^^^ (~~~x &&& z)

def maj (x y z : Word) : Word := (x &&& y) ^^^ (x &&& z) ^^^ (y &&& z)

/-- `Σ₀` -/
def bigSigma0 (x : Word) : Word := x.rotateRight 2 ^^^ x.rotateRight 13 ^^^ x.rotateRight 22

/-- `Σ₁` -/
def bigSigma1 (x : Word) : Word := x.rotateRight 6 ^^^ x.rotateRight 11 ^^^ x.rotateRight 25

/-- `σ₀` -/
def smallSigma0 (x : Word) : Word := x.rotateRight 7 ^^^ x.rotateRight 18 ^^^ x >>> 3

/-- `σ₁` -/
def smallSigma1 (x : Word) : Word := x.rotateRight 17 ^^^ x.rotateRight 19 ^^^ x >>> 10

/-! ### Constants -/

/-- The first 64 prime numbers. -/
def primes : List ℕ := (List.range 312).filter Nat.Prime

/-- The first 32 bits of the fractional part of the `n`-th root of `p`. -/
def rootFraction (n p : ℕ) : Word := BitVec.ofNat 32 (Nat.nthRoot n (p * 2 ^ (32 * n)))

/-- `K`: from the cube roots of the first 64 primes. -/
def constant (t : ℕ) : Word := rootFraction 3 (primes.getD t 0)

/-- The hash value: eight words. -/
structure Hash where
  a : Word
  b : Word
  c : Word
  d : Word
  e : Word
  f : Word
  g : Word
  h : Word
  deriving DecidableEq

/-- `H⁽⁰⁾`: from the square roots of the first eight primes. -/
def initial : Hash :=
  let root (i : ℕ) := rootFraction 2 (primes.getD i 0)
  ⟨root 0, root 1, root 2, root 3, root 4, root 5, root 6, root 7⟩

/-! ### Padding -/

theorem zeros_exists (l : ℕ) : ∃ k, (l + 1 + k) % 512 = 448 := ⟨959 - l % 512, by omega⟩

/-- The smallest `k` with `l + 1 + k ≡ 448 mod 512`. -/
def zeros (l : ℕ) : ℕ := Nat.find (zeros_exists l)

/-- The last `n` bits of a number, the highest first. -/
def bitField (n v : ℕ) : List Bool := (List.range n).map fun i => v.testBit (n - 1 - i)

/-- The message, a one, zeros, and the length of the message in 64 bits. -/
def pad (m : List Bool) : List Bool :=
  m ++ [true] ++ List.replicate (zeros m.length) false ++ bitField 64 m.length

/-! ### Computation -/

/-- The number that bits stand for, the highest first. -/
def valueOf (bits : List Bool) : ℕ := bits.foldl (fun v c => 2 * v + c.toNat) 0

/-- The `t`-th word of a block. -/
def blockWord (block : List Bool) (t : ℕ) : Word :=
  BitVec.ofNat 32 (valueOf ((block.drop (32 * t)).take 32))

/-- The message schedule `W`. -/
def schedule (m : ℕ → Word) (t : ℕ) : Word :=
  if t < 16 then m t
  else
    smallSigma1 (schedule m (t - 2)) + schedule m (t - 7) + smallSigma0 (schedule m (t - 15)) +
      schedule m (t - 16)

/-- One round on the working variables. -/
def round (w : ℕ → Word) (v : Hash) (t : ℕ) : Hash :=
  let t1 := v.h + bigSigma1 v.e + ch v.e v.f v.g + constant t + w t
  let t2 := bigSigma0 v.a + maj v.a v.b v.c
  ⟨t1 + t2, v.a, v.b, v.c, v.d + t1, v.e, v.f, v.g⟩

/-- The next hash value. -/
def compress (h : Hash) (block : List Bool) : Hash :=
  let v := (List.range 64).foldl (round (schedule (blockWord block))) h
  ⟨h.a + v.a, h.b + v.b, h.c + v.c, h.d + v.d, h.e + v.e, h.f + v.f, h.g + v.g, h.h + v.h⟩

/-- The bits of a hash value. -/
def digestBits (h : Hash) : List Bool :=
  [h.a, h.b, h.c, h.d, h.e, h.f, h.g, h.h].flatMap fun w => bitField 32 w.toNat

/-- The message digest, for messages of fewer than `2 ^ 64` bits. -/
def sha256 (m : List Bool) : List Bool :=
  digestBits (foldBlocks 512 compress ((pad m).length / 512) initial (pad m))

/-! ### Values -/

theorem zeros_eq (l : ℕ) : zeros l = (959 - l % 512) % 512 := by
  rw [zeros, Nat.find_eq_iff]
  refine ⟨by omega, ?_⟩
  intro k hk
  omega

theorem length_bitField (n v : ℕ) : (bitField n v).length = n := by simp [bitField]

theorem prime_iff_trial (p : ℕ) :
    Nat.Prime p ↔ 2 ≤ p ∧ ∀ d < p, 2 ≤ d → p % d ≠ 0 := by
  rw [Nat.prime_def_lt']
  refine and_congr_right fun _ => ⟨fun h d hlt hle => ?_, fun h d hle hlt => ?_⟩
  · exact fun hmod => h d hle hlt (Nat.dvd_of_mod_eq_zero hmod)
  · exact fun hdvd => h d hlt hle (Nat.mod_eq_zero_of_dvd hdvd)

theorem primes_eq : primes =
    [2, 3, 5, 7, 11, 13, 17, 19, 23, 29, 31, 37, 41, 43, 47, 53, 59, 61, 67, 71, 73, 79,
      83, 89, 97, 101, 103, 107, 109, 113, 127, 131, 137, 139, 149, 151, 157, 163, 167, 173,
      179, 181, 191, 193, 197, 199, 211, 223, 227, 229, 233, 239, 241, 251, 257, 263, 269,
      271, 277, 281, 283, 293, 307, 311] := by
  have htrial : primes = (List.range 312).filter fun p =>
      decide (2 ≤ p) && (List.range p).all fun d => decide (2 ≤ d → p % d ≠ 0) := by
    refine List.filter_congr fun p _ => ?_
    rw [Bool.eq_iff_iff, decide_eq_true_iff, prime_iff_trial, Bool.and_eq_true, decide_eq_true_iff,
      List.all_eq_true]
    simp only [List.mem_range, decide_eq_true_iff]
  rw [htrial]
  decide +kernel

/-! ### Whole bytes -/

/-- The bits of a byte string, each byte with its highest bit first. -/
def bits (m : Bytes) : List Bool := m.flatMap fun b => bitField 8 b.toNat

@[simp] theorem bits_append (m x : Bytes) : bits (m ++ x) = bits m ++ bits x := by
  simp [bits]

theorem bits_cons (b : UInt8) (m : Bytes) : bits (b :: m) = bitField 8 b.toNat ++ bits m := rfl

@[simp] theorem length_bits (m : Bytes) : (bits m).length = 8 * m.length := by
  induction m with
  | nil => rfl
  | cons b m ih =>
    rw [bits_cons, List.length_append, length_bitField, ih, List.length_cons]
    omega

theorem take_bits (n : ℕ) (m : Bytes) : (bits m).take (8 * n) = bits (m.take n) := by
  rcases le_total n m.length with h | h
  · conv_lhs => rw [← List.take_append_drop n m, bits_append]
    rw [List.take_left' (by rw [length_bits, List.length_take, min_eq_left h])]
  · rw [List.take_of_length_le h, List.take_of_length_le (by rw [length_bits]; omega)]

theorem drop_bits (n : ℕ) (m : Bytes) : (bits m).drop (8 * n) = bits (m.drop n) := by
  rcases le_total n m.length with h | h
  · conv_lhs => rw [← List.take_append_drop n m, bits_append]
    rw [List.drop_left' (by rw [length_bits, List.length_take, min_eq_left h])]
  · rw [List.drop_of_length_le h, List.drop_of_length_le (by rw [length_bits]; omega)]
    rfl

/-- A number is written in two parts. -/
theorem bitField_add (m n v : ℕ) : bitField (m + n) v = bitField m (v >>> n) ++ bitField n v := by
  refine List.ext_getElem (by simp [bitField]) fun i h _ => ?_
  simp only [bitField, List.length_map, List.length_range] at h
  rcases Nat.lt_or_ge i m with hi | hi
  · rw [List.getElem_append_left (by simpa [bitField] using hi)]
    simp only [bitField, List.getElem_map, List.getElem_range, Nat.testBit_shiftRight]
    congr 1
    omega
  · rw [List.getElem_append_right (by simpa [bitField] using hi)]
    simp only [bitField, List.getElem_map, List.getElem_range, List.length_map, List.length_range]
    congr 1
    omega

/-- Only the low bits of a number are written. -/
theorem bitField_mod (n v : ℕ) : bitField n (v % 2 ^ n) = bitField n v := by
  refine List.map_congr_left fun i hi => ?_
  rw [List.mem_range] at hi
  rw [Nat.testBit_mod_two_pow, decide_eq_true (by omega), Bool.true_and]

theorem bits_singleton (v : ℕ) : bits [UInt8.ofNat v] = bitField 8 v := by
  rw [bits_cons, UInt8.toNat_ofNat']
  exact (List.append_nil _).trans (bitField_mod 8 v)

theorem bits_zeros (n : ℕ) : bits (List.replicate n 0) = List.replicate (8 * n) false := by
  induction n with
  | zero => rfl
  | succ n ih =>
    rw [List.replicate_succ, bits_cons, ih, Nat.mul_succ, Nat.add_comm, List.replicate_add]
    rfl

/-- A one, and zeros up to the place of the length: the padding in front of it for a message of `n`
bytes. -/
def padMark (n : ℕ) : Bytes := 0x80 :: List.replicate ((119 - n % 64) % 64) 0

/-- The padding of a byte string, with a length field `len`. -/
theorem pad_bits (m len : Bytes) (h : bits len = bitField 64 (8 * m.length)) :
    pad (bits m) = bits (m ++ padMark m.length ++ len) := by
  have hzeros : zeros (8 * m.length) = 7 + 8 * ((119 - m.length % 64) % 64) := by
    rw [zeros_eq]
    omega
  have hone : bitField 8 (0x80 : UInt8).toNat = [true] ++ List.replicate 7 false := by decide
  rw [pad, length_bits, hzeros, ← h, bits_append, bits_append, padMark, bits_cons, hone, bits_zeros,
    List.replicate_add]
  simp only [List.append_assoc]

theorem foldl_bits (cs : List Bool) (v : ℕ) :
    cs.foldl (fun v c => 2 * v + c.toNat) v = 2 ^ cs.length * v + valueOf cs := by
  induction cs generalizing v with
  | nil => simp [valueOf]
  | cons c cs ih =>
    rw [valueOf, List.foldl_cons, List.foldl_cons, ih, ih (2 * 0 + c.toNat), List.length_cons]
    ring

theorem valueOf_byte (b : UInt8) : valueOf (bitField 8 b.toNat) = b.toNat := by
  have hall : ∀ n < 256, valueOf (bitField 8 n) = n := by decide +kernel
  exact hall b.toNat b.toNat_lt

/-- The number that the bits of bytes stand for. -/
theorem valueOf_bits (m : Bytes) : valueOf (bits m) = m.foldl (fun v b => 256 * v + b.toNat) 0 := by
  have hall : ∀ (m : Bytes) (v : ℕ), (bits m).foldl (fun v c => 2 * v + c.toNat) v =
      m.foldl (fun v b => 256 * v + b.toNat) v := by
    intro m
    induction m with
    | nil => exact fun v => rfl
    | cons b m ih =>
      intro v
      rw [bits_cons, List.foldl_append, ih, foldl_bits, length_bitField, valueOf_byte]
      rfl
  exact hall m 0

end Fips180
