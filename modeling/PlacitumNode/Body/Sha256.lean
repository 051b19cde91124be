import PlacitumNode.Lib.Fips180
import PlacitumNode.Lib.Octets

/-!
# The digest of bodies (`body/ngx_http_waf_sha256.c`)

The digest is computed while the bytes arrive: whole blocks are hashed at once, the rest waits in a
buffer of one block, and the last call writes the padding into that buffer.

* `Sha256`, `sha256Init`, `sha256Update`, `sha256Final`, `sha256Block`: the code;
* `sha256Block_eq`: one block is the compression of the standard;
* `absorbed_update`: an update carries the state from one message to a longer one;
* `sha256_incremental`: the result is the digest of the whole message, however it is cut.
-/

namespace Body

open Octets Blocks Fips180

/-! ### The code -/

/-- `ngx_http_waf_sha256_k` -/
def kTable : List Word :=
  [0x428a2f98, 0x71374491, 0xb5c0fbcf, 0xe9b5dba5,
   0x3956c25b, 0x59f111f1, 0x923f82a4, 0xab1c5ed5,
   0xd807aa98, 0x12835b01, 0x243185be, 0x550c7dc3,
   0x72be5d74, 0x80deb1fe, 0x9bdc06a7, 0xc19bf174,
   0xe49b69c1, 0xefbe4786, 0x0fc19dc6, 0x240ca1cc,
   0x2de92c6f, 0x4a7484aa, 0x5cb0a9dc, 0x76f988da,
   0x983e5152, 0xa831c66d, 0xb00327c8, 0xbf597fc7,
   0xc6e00bf3, 0xd5a79147, 0x06ca6351, 0x14292967,
   0x27b70a85, 0x2e1b2138, 0x4d2c6dfc, 0x53380d13,
   0x650a7354, 0x766a0abb, 0x81c2c92e, 0x92722c85,
   0xa2bfe8a1, 0xa81a664b, 0xc24b8b70, 0xc76c51a3,
   0xd192e819, 0xd6990624, 0xf40e3585, 0x106aa070,
   0x19a4c116, 0x1e376c08, 0x2748774c, 0x34b0bcb5,
   0x391c0cb3, 0x4ed8aa4a, 0x5b9cca4f, 0x682e6ff3,
   0x748f82ee, 0x78a5636f, 0x84c87814, 0x8cc70208,
   0x90befffa, 0xa4506ceb, 0xbef9a3f7, 0xc67178f2]

def ror (x : Word) (n : ℕ) : Word := x >>> n ||| x <<< (32 - n)

def s0 (x : Word) : Word := ror x 2 ^^^ ror x 13 ^^^ ror x 22

def s1 (x : Word) : Word := ror x 6 ^^^ ror x 11 ^^^ ror x 25

def g0 (x : Word) : Word := ror x 7 ^^^ ror x 18 ^^^ x >>> 3

def g1 (x : Word) : Word := ror x 17 ^^^ ror x 19 ^^^ x >>> 10

/-- `ngx_http_waf_sha256_t`. `used` stays below the size of the block. -/
structure Sha256 where
  bytes : ℕ
  h : Hash
  block : Bytes
  used : ℕ
  size_eq : block.length = 64
  used_lt : used < 64

/-- `ngx_memcpy` to a place in the block. -/
def overwrite (block : Bytes) (i : ℕ) (data : Bytes) : Bytes :=
  block.take i ++ data ++ block.drop (i + data.length)

theorem length_overwrite {block : Bytes} {i : ℕ} {data : Bytes}
    (h : i + data.length ≤ block.length) : (overwrite block i data).length = block.length := by
  simp only [overwrite, List.length_append, List.length_take, List.length_drop]
  omega

/-- `w[i]` for `i < 16` -/
def inputWord (p : Bytes) (i : ℕ) : Word :=
  let byte (j : ℕ) : Word := (p.getD j 0).toBitVec.setWidth 32
  byte (i * 4) <<< 24 ||| byte (i * 4 + 1) <<< 16 ||| byte (i * 4 + 2) <<< 8 ||| byte (i * 4 + 3)

/-- The two loops that fill `w`. -/
def fillWords (p : Bytes) : List Word :=
  (List.range' 16 48).foldl
    (fun w i => w ++ [g1 (w.getD (i - 2) 0) + w.getD (i - 7) 0 + g0 (w.getD (i - 15) 0) +
      w.getD (i - 16) 0])
    ((List.range 16).map (inputWord p))

/-- One turn of the loop over the working variables. -/
def blockRound (w : List Word) (v : Hash) (i : ℕ) : Hash :=
  let t1 := v.h + s1 v.e + ((v.e &&& v.f) ^^^ (~~~v.e &&& v.g)) + kTable.getD i 0 + w.getD i 0
  let t2 := s0 v.a + ((v.a &&& v.b) ^^^ (v.a &&& v.c) ^^^ (v.b &&& v.c))
  { h := v.g, g := v.f, f := v.e, e := v.d + t1, d := v.c, c := v.b, b := v.a, a := t1 + t2 }

/-- `ngx_http_waf_sha256_block` on the hash value. -/
def sha256Block (h : Hash) (p : Bytes) : Hash :=
  let v := (List.range 64).foldl (blockRound (fillWords p)) h
  ⟨h.a + v.a, h.b + v.b, h.c + v.c, h.d + v.d, h.e + v.e, h.f + v.f, h.g + v.g, h.h + v.h⟩

/-- `ngx_http_waf_sha256_init`, which leaves the block as it finds it. -/
def sha256Init (block : Bytes) (hblock : block.length = 64) : Sha256 where
  bytes := 0
  h := ⟨0x6a09e667, 0xbb67ae85, 0x3c6ef372, 0xa54ff53a, 0x510e527f, 0x9b05688c, 0x1f83d9ab,
    0x5be0cd19⟩
  block := block
  used := 0
  size_eq := hblock
  used_lt := by norm_num

/-- The `while` loop of an update: whole blocks straight from the data. -/
def wholeBlocks (h : Hash) (data : Bytes) : Hash × Bytes :=
  if 64 ≤ data.length then wholeBlocks (sha256Block h (data.take 64)) (data.drop 64)
  else (h, data)
termination_by data.length
decreasing_by rw [List.length_drop]; omega

theorem wholeBlocks_eq (h : Hash) (data : Bytes) :
    wholeBlocks h data = absorb 64 sha256Block h data := by
  induction h, data using wholeBlocks.induct with
  | case1 h data hlong ih =>
    have hblock : (data.take 64).length = 64 := by rw [List.length_take]; omega
    rw [wholeBlocks, if_pos hlong, ih]
    conv_rhs => rw [← List.take_append_drop 64 data]
    rw [absorb_block (by norm_num) hblock]
  | case2 h data hshort =>
    rw [wholeBlocks, if_neg hshort, absorb_short (by omega)]

theorem length_wholeBlocks_lt (h : Hash) (data : Bytes) : (wholeBlocks h data).2.length < 64 := by
  rw [wholeBlocks_eq]
  exact length_absorb_lt (by norm_num) h data

/-- The end of an update: whole blocks, and what is left goes to the front of the buffer. -/
def takeBlocks (sha : Sha256) (data : Bytes) : Sha256 :=
  let done := wholeBlocks sha.h data
  if done.2.length ≠ 0 then
    { sha with
      h := done.1
      block := overwrite sha.block 0 done.2
      used := done.2.length
      size_eq := by
        have hlt : done.2.length < 64 := length_wholeBlocks_lt sha.h data
        rw [length_overwrite (by rw [sha.size_eq]; omega), sha.size_eq]
      used_lt := length_wholeBlocks_lt sha.h data }
  else { sha with h := done.1 }

/-- The start of an update that fills the buffer up: the buffer is hashed. -/
def completeBlock (sha : Sha256) (part : Bytes) (h : sha.used + part.length ≤ 64) : Sha256 :=
  { sha with
    block := overwrite sha.block sha.used part
    h := sha256Block sha.h (overwrite sha.block sha.used part)
    used := 0
    size_eq := by rw [length_overwrite (by rw [sha.size_eq]; exact h), sha.size_eq]
    used_lt := by norm_num }

/-- `ngx_http_waf_sha256_update` behind the count of the bytes. -/
def updateBlocks (sha : Sha256) (data : Bytes) : Sha256 :=
  if sha.used ≠ 0 then
    let take := 64 - sha.used
    if h : take > data.length then
      { sha with
        block := overwrite sha.block sha.used data
        used := sha.used + data.length
        size_eq := by rw [length_overwrite (by rw [sha.size_eq]; omega), sha.size_eq]
        used_lt := by omega }
    else
      takeBlocks
        (completeBlock sha (data.take take) (by
          have hlt := sha.used_lt
          have hle : (data.take take).length ≤ 64 - sha.used := List.length_take_le _ _
          omega))
        (data.drop take)
  else takeBlocks sha data

/-- `ngx_http_waf_sha256_update` -/
def sha256Update (sha : Sha256) (data : Bytes) : Sha256 :=
  updateBlocks { sha with bytes := (sha.bytes + data.length) % 2 ^ 64 } data

/-- Eight bytes of a number, the highest first. -/
def lengthBytes (bits : ℕ) : Bytes :=
  [bits >>> 56, bits >>> 48, bits >>> 40, bits >>> 32, bits >>> 24, bits >>> 16, bits >>> 8,
    bits].map UInt8.ofNat

/-- Four bytes of a word, the highest first. -/
def wordBytes (w : Word) : Bytes :=
  [w >>> 24, w >>> 16, w >>> 8, w].map fun part => UInt8.ofNat part.toNat

/-- `ngx_http_waf_sha256_final` -/
def sha256Final (sha : Sha256) : Bytes :=
  let bits := sha.bytes * 8 % 2 ^ 64
  let block := overwrite sha.block sha.used [0x80]
  let used := sha.used + 1
  let (h, block, used) :=
    if used > 56 then
      let block := overwrite block used (List.replicate (64 - used) 0)
      (sha256Block sha.h block, block, 0)
    else (sha.h, block, used)
  let block := overwrite block used (List.replicate (56 - used) 0)
  let h := sha256Block h (overwrite block 56 (lengthBytes bits))
  [h.a, h.b, h.c, h.d, h.e, h.f, h.g, h.h].flatMap wordBytes

/-! ### One block -/

theorem ror_eq (x : Word) {n : ℕ} (hn : n < 32) : ror x n = x.rotateRight n := by
  rw [BitVec.rotateRight_def, Nat.mod_eq_of_lt hn]
  rfl

theorem s0_eq (x : Word) : s0 x = bigSigma0 x := by
  rw [s0, bigSigma0, ror_eq x (by norm_num), ror_eq x (by norm_num), ror_eq x (by norm_num)]

theorem s1_eq (x : Word) : s1 x = bigSigma1 x := by
  rw [s1, bigSigma1, ror_eq x (by norm_num), ror_eq x (by norm_num), ror_eq x (by norm_num)]

theorem g0_eq (x : Word) : g0 x = smallSigma0 x := by
  rw [g0, smallSigma0, ror_eq x (by norm_num), ror_eq x (by norm_num)]

theorem g1_eq (x : Word) : g1 x = smallSigma1 x := by
  rw [g1, smallSigma1, ror_eq x (by norm_num), ror_eq x (by norm_num)]

/-- The table holds the constants of the standard. -/
theorem kTable_eq {t : ℕ} (ht : t < 64) : kTable.getD t 0 = constant t := by
  have hall : ∀ t < 64, kTable.getD t 0 = constant t := by
    simp only [constant, primes_eq]
    decide +kernel
  exact hall t ht

theorem sha256Init_h (block : Bytes) (hblock : block.length = 64) :
    (sha256Init block hblock).h = initial := by
  have hvalue : (sha256Init (List.replicate 64 0) rfl).h = initial := by
    simp only [initial, primes_eq]
    decide +kernel
  exact hvalue

theorem four_of_length {l : Bytes} (h : 4 ≤ l.length) :
    ∃ b₀ b₁ b₂ b₃ rest, l = b₀ :: b₁ :: b₂ :: b₃ :: rest := by
  match l, h with
  | b₀ :: b₁ :: b₂ :: b₃ :: rest, _ => exact ⟨b₀, b₁, b₂, b₃, rest, rfl⟩

theorem or_four {a b c d : ℕ} (hb : b < 256) (hc : c < 256) (hd : d < 256) :
    a <<< 24 ||| b <<< 16 ||| c <<< 8 ||| d = 256 * (256 * (256 * a + b) + c) + d := by
  have hab : a <<< 24 ||| b <<< 16 = (256 * a + b) <<< 16 := by
    rw [← Nat.shiftLeft_add_eq_or_of_lt (by rw [Nat.shiftLeft_eq]; omega)]
    simp only [Nat.shiftLeft_eq]
    omega
  have habc : (256 * a + b) <<< 16 ||| c <<< 8 = (256 * (256 * a + b) + c) <<< 8 := by
    rw [← Nat.shiftLeft_add_eq_or_of_lt (by rw [Nat.shiftLeft_eq]; omega)]
    simp only [Nat.shiftLeft_eq]
    omega
  rw [hab, habc, ← Nat.shiftLeft_add_eq_or_of_lt (by omega)]
  simp only [Nat.shiftLeft_eq]
  omega

/-- Four bytes are read as the word they spell. -/
theorem inputWord_eq {p : Bytes} (hp : p.length = 64) {i : ℕ} (hi : i < 16) :
    inputWord p i = blockWord (bits p) i := by
  obtain ⟨b₀, b₁, b₂, b₃, rest, hrest⟩ :=
    four_of_length (show 4 ≤ (p.drop (4 * i)).length by rw [List.length_drop]; omega)
  have hget : ∀ k, p.getD (i * 4 + k) 0 = (b₀ :: b₁ :: b₂ :: b₃ :: rest).getD k 0 := by
    intro k
    rw [← hrest, List.getD_eq_getElem?_getD, List.getD_eq_getElem?_getD, List.getElem?_drop,
      Nat.mul_comm]
  have hblock : blockWord (bits p) i =
      BitVec.ofNat 32 (256 * (256 * (256 * b₀.toNat + b₁.toNat) + b₂.toNat) + b₃.toNat) := by
    have htake : (bits (b₀ :: b₁ :: b₂ :: b₃ :: rest)).take 32 = bits [b₀, b₁, b₂, b₃] :=
      take_bits 4 _
    rw [blockWord, show 32 * i = 8 * (4 * i) by omega, drop_bits, hrest, htake, valueOf_bits]
    simp only [List.foldl_cons, List.foldl_nil, Nat.mul_zero, Nat.zero_add]
  have hlt₀ := b₀.toNat_lt
  have hlt₁ := b₁.toNat_lt
  have hlt₂ := b₂.toNat_lt
  have hlt₃ := b₃.toNat_lt
  have hzero := hget 0
  rw [Nat.add_zero] at hzero
  rw [hblock]
  apply BitVec.eq_of_toNat_eq
  simp only [inputWord, hzero, hget, List.getD_cons_zero, List.getD_cons_succ, BitVec.toNat_or,
    BitVec.toNat_shiftLeft, BitVec.toNat_setWidth, UInt8.toNat_toBitVec, BitVec.toNat_ofNat]
  rw [← or_four hlt₁ hlt₂ hlt₃, Nat.or_mod_two_pow, Nat.or_mod_two_pow, Nat.or_mod_two_pow]
  simp (disch := omega) only [Nat.mod_eq_of_lt]

theorem schedule_of_lt (m : ℕ → Word) {t : ℕ} (ht : t < 16) : schedule m t = m t := by
  rw [schedule, if_pos ht]

theorem schedule_of_ge (m : ℕ → Word) {t : ℕ} (ht : 16 ≤ t) :
    schedule m t = smallSigma1 (schedule m (t - 2)) + schedule m (t - 7) +
      smallSigma0 (schedule m (t - 15)) + schedule m (t - 16) := by
  rw [schedule, if_neg (by omega)]

/-- The loops fill in the message schedule. -/
theorem fillWords_eq {p : Bytes} (hp : p.length = 64) {t : ℕ} (ht : t < 64) :
    (fillWords p).getD t 0 = schedule (blockWord (bits p)) t := by
  have hloop : ∀ n, ∀ w, w = (List.range' 16 n).foldl
      (fun w i => w ++ [g1 (w.getD (i - 2) 0) + w.getD (i - 7) 0 + g0 (w.getD (i - 15) 0) +
        w.getD (i - 16) 0]) ((List.range 16).map (inputWord p)) →
      w.length = 16 + n ∧ ∀ t < 16 + n, w.getD t 0 = schedule (blockWord (bits p)) t := by
    intro n
    induction n with
    | zero =>
      rintro w rfl
      refine ⟨by simp, fun t ht => ?_⟩
      rw [schedule_of_lt _ ht, ← inputWord_eq hp ht]
      simp [List.getD_eq_getElem?_getD, ht]
    | succ n ih =>
      rintro w rfl
      obtain ⟨hlen, hget⟩ := ih _ rfl
      rw [List.range'_concat, List.foldl_append, Nat.one_mul, List.foldl_cons, List.foldl_nil]
      generalize (List.range' 16 n).foldl _ _ = w at hlen hget ⊢
      refine ⟨by rw [List.length_append, hlen]; rfl, fun t ht => ?_⟩
      rcases Nat.lt_or_ge t (16 + n) with hlt | hge
      · rw [List.getD_append _ _ _ _ (by omega), hget t hlt]
      · obtain rfl : t = 16 + n := by omega
        rw [List.getD_append_right _ _ _ _ (by omega), hlen, Nat.sub_self, List.getD_cons_zero,
          hget _ (by omega), hget _ (by omega), hget _ (by omega), hget _ (by omega), g1_eq, g0_eq,
          ← schedule_of_ge _ (by omega)]
  exact (hloop 48 _ rfl).2 t ht

/-- **One block** is the compression of the standard. -/
theorem sha256Block_eq (h : Hash) {p : Bytes} (hp : p.length = 64) :
    sha256Block h p = compress h (bits p) := by
  have hround : (List.range 64).foldl (blockRound (fillWords p)) h =
      (List.range 64).foldl (Fips180.round (schedule (blockWord (bits p)))) h := by
    refine List.foldl_ext _ _ _ fun v t ht => ?_
    rw [List.mem_range] at ht
    rw [blockRound, Fips180.round, kTable_eq ht, fillWords_eq hp ht, s0_eq, s1_eq]
    rfl
  rw [sha256Block, compress, hround]

/-! ### Updates -/

/-- What has been hashed, and the bytes that wait for the rest of their block. -/
def absorbed (sha : Sha256) : Hash × Bytes := (sha.h, sha.block.take sha.used)

theorem take_overwrite {block : Bytes} {i : ℕ} {data : Bytes} (h : i ≤ block.length) :
    (overwrite block i data).take (i + data.length) = block.take i ++ data :=
  List.take_left' (by rw [List.length_append, List.length_take, min_eq_left h])

theorem absorbed_takeBlocks {sha : Sha256} (hused : sha.used = 0) (data : Bytes) :
    absorbed (takeBlocks sha data) = absorb 64 sha256Block sha.h data ∧
      (takeBlocks sha data).bytes = sha.bytes := by
  rw [← wholeBlocks_eq, takeBlocks]
  by_cases hnil : (wholeBlocks sha.h data).2.length ≠ 0
  · rw [if_pos hnil]
    have htake := @take_overwrite sha.block 0 (wholeBlocks sha.h data).2 (Nat.zero_le _)
    rw [Nat.zero_add] at htake
    refine ⟨?_, rfl⟩
    simp only [absorbed, htake, List.take_zero, List.nil_append]
  · rw [if_neg hnil]
    rw [not_not, List.length_eq_zero_iff] at hnil
    refine ⟨?_, rfl⟩
    simp only [absorbed, hused, List.take_zero]
    rw [← hnil]

theorem absorb_completeBlock {sha : Sha256} {part : Bytes} (h : sha.used + part.length = 64)
    (data : Bytes) : absorb 64 sha256Block (completeBlock sha part h.le).h data =
      absorb 64 sha256Block sha.h (sha.block.take sha.used ++ part ++ data) := by
  have hlen : (sha.block.take sha.used).length = sha.used := by
    rw [List.length_take, sha.size_eq]
    exact min_eq_left sha.used_lt.le
  have hfull : overwrite sha.block sha.used part = sha.block.take sha.used ++ part := by
    rw [overwrite, List.drop_of_length_le (by rw [sha.size_eq]; omega), List.append_nil]
  rw [absorb_block (by norm_num) (by rw [List.length_append, hlen, h]), ← hfull]
  rfl

theorem completeBlock_bytes {sha : Sha256} {part : Bytes} (h : sha.used + part.length ≤ 64) :
    (completeBlock sha part h).bytes = sha.bytes := by
  cases sha
  rw [completeBlock]

theorem absorbed_updateBlocks (sha : Sha256) (data : Bytes) :
    absorbed (updateBlocks sha data) =
        absorb 64 sha256Block sha.h (sha.block.take sha.used ++ data) ∧
      (updateBlocks sha data).bytes = sha.bytes := by
  have hlt := sha.used_lt
  have hle : sha.used ≤ sha.block.length := by rw [sha.size_eq]; exact hlt.le
  have hlen : (sha.block.take sha.used).length = sha.used := by
    rw [List.length_take, min_eq_left hle]
  rw [updateBlocks]
  by_cases hused : sha.used ≠ 0
  · rw [if_pos hused]
    by_cases hfew : 64 - sha.used > data.length
    · rw [dif_pos hfew, absorb_short (by rw [List.length_append, hlen]; omega), absorbed,
        take_overwrite hle]
      exact ⟨rfl, rfl⟩
    · rw [dif_neg hfew]
      have hpart : sha.used + (data.take (64 - sha.used)).length = 64 := by
        rw [List.length_take]
        omega
      have hempty : (completeBlock sha (data.take (64 - sha.used)) hpart.le).used = 0 := rfl
      obtain ⟨habs, hbytes⟩ := absorbed_takeBlocks hempty (data.drop (64 - sha.used))
      have hrest := absorb_completeBlock hpart (data.drop (64 - sha.used))
      rw [List.append_assoc, List.take_append_drop] at hrest
      rw [hrest] at habs
      rw [completeBlock_bytes] at hbytes
      exact ⟨habs, hbytes⟩
  · rw [if_neg hused]
    rw [not_not] at hused
    obtain ⟨habs, hbytes⟩ := absorbed_takeBlocks hused data
    refine ⟨habs.trans ?_, hbytes⟩
    rw [hused, List.take_zero, List.nil_append]

/-- An update goes on with the bytes that wait, whatever their number. -/
theorem absorbed_update (sha : Sha256) (data : Bytes) :
    absorbed (sha256Update sha data) =
        absorb 64 sha256Block (absorbed sha).1 ((absorbed sha).2 ++ data) ∧
      (sha256Update sha data).bytes = (sha.bytes + data.length) % 2 ^ 64 := by
  obtain ⟨bytes, h, block, used, hsize, hused⟩ := sha
  exact absorbed_updateBlocks ⟨(bytes + data.length) % 2 ^ 64, h, block, used, hsize, hused⟩ data

/-! ### The end of a message -/

theorem overwrite_overwrite {block : Bytes} {i j : ℕ} {x : Bytes} (hi : i ≤ block.length)
    (hj : j = i + x.length) (y : Bytes) :
    overwrite (overwrite block i x) j y = overwrite block i (x ++ y) := by
  subst hj
  have hlen : (block.take i ++ x).length = i + x.length := by
    rw [List.length_append, List.length_take, min_eq_left hi]
  have hdrop : (overwrite block i x).drop (i + x.length + y.length) =
      block.drop (i + (x ++ y).length) := by
    rw [overwrite, List.drop_append, List.drop_of_length_le (by omega), List.nil_append, hlen,
      Nat.add_sub_cancel_left, List.drop_drop, List.length_append, Nat.add_assoc]
  rw [overwrite, take_overwrite hi, hdrop, overwrite]
  simp only [List.append_assoc]

theorem overwrite_full {block : Bytes} {i : ℕ} {x : Bytes} (h : block.length ≤ i + x.length) :
    overwrite block i x = block.take i ++ x := by
  rw [overwrite, List.drop_of_length_le h, List.append_nil]

/-- The last one or two blocks are the message's end with the padding of the standard. -/
theorem sha256Final_eq (sha : Sha256) {n : ℕ} (hn : n % 64 = sha.used) :
    sha256Final sha =
      (let h := (absorb 64 sha256Block sha.h (sha.block.take sha.used ++ padMark n ++
        lengthBytes (sha.bytes * 8 % 2 ^ 64))).1
      [h.a, h.b, h.c, h.d, h.e, h.f, h.g, h.h].flatMap wordBytes) := by
  obtain ⟨bytes, h, block, used, hsize, hused⟩ := sha
  dsimp only at hn ⊢
  have hle : used ≤ block.length := by omega
  have hlen : (block.take used).length = used := by rw [List.length_take, min_eq_left hle]
  have hfield : (lengthBytes (bytes * 8 % 2 ^ 64)).length = 8 := rfl
  rw [sha256Final]
  dsimp only
  generalize lengthBytes (bytes * 8 % 2 ^ 64) = field at hfield ⊢
  by_cases htwo : used + 1 > 56
  · -- The mark leaves no room for the length, which goes into a block of its own.
    have hfirst : overwrite (overwrite block used [0x80]) (used + 1)
        (List.replicate (64 - (used + 1)) 0) =
        block.take used ++ ([0x80] ++ List.replicate (63 - used) 0) := by
      have hzeros : 64 - (used + 1) = 63 - used := by omega
      rw [hzeros, overwrite_overwrite hle (show used + 1 = used + [0x80].length from rfl),
        overwrite_full (by simp; omega)]
    have hone : (block.take used ++ ([0x80] ++ List.replicate (63 - used) 0)).length = 64 := by
      simp only [List.length_append, hlen, List.length_replicate, List.length_singleton]
      omega
    have hmark : block.take used ++ padMark n ++ field =
        block.take used ++ ([0x80] ++ List.replicate (63 - used) 0) ++
          (List.replicate 56 0 ++ field) := by
      have hzeros : (119 - n % 64) % 64 = 63 - used + 56 := by omega
      rw [padMark, hzeros, List.replicate_add]
      simp only [List.append_assoc, List.cons_append, List.nil_append]
    have hlast : (List.replicate 56 (0 : UInt8) ++ field).length = 64 := by
      rw [List.length_append, List.length_replicate, hfield]
    have hsecond : ∀ block : Bytes, block.length = 64 →
        overwrite (overwrite block 0 (List.replicate (56 - 0) 0)) 56 field =
          List.replicate 56 0 ++ field := by
      intro block hblock
      rw [overwrite_overwrite (Nat.zero_le _) (by simp), overwrite_full (by rw [hblock, hlast])]
      rfl
    rw [if_pos htwo, hfirst, hmark, absorb_block (by norm_num) hone, absorb_one (by norm_num) hlast]
    dsimp only
    rw [hsecond _ hone]
  · have hblock : overwrite (overwrite (overwrite block used [0x80]) (used + 1)
        (List.replicate (56 - (used + 1)) 0)) 56 field =
        block.take used ++ ([0x80] ++ List.replicate (55 - used) 0 ++ field) := by
      have hzeros : 56 - (used + 1) = 55 - used := by omega
      rw [hzeros, overwrite_overwrite hle (show used + 1 = used + [0x80].length from rfl),
        overwrite_overwrite hle (by simp; omega), overwrite_full (by simp; omega)]
    have hmark : block.take used ++ padMark n ++ field =
        block.take used ++ ([0x80] ++ List.replicate (55 - used) 0 ++ field) := by
      have hzeros : (119 - n % 64) % 64 = 55 - used := by omega
      rw [padMark, hzeros]
      simp only [List.append_assoc, List.cons_append, List.nil_append]
    have hlast : (block.take used ++ ([0x80] ++ List.replicate (55 - used) 0 ++ field)).length = 64 := by
      simp only [List.length_append, hlen, hfield, List.length_replicate, List.length_singleton]
      omega
    rw [if_neg htwo, hmark, absorb_one (by norm_num) hlast]
    dsimp only
    rw [hblock]

theorem bits_lengthBytes (v : ℕ) : bits (lengthBytes v) = bitField 64 v := by
  rw [show 64 = 8 + (8 + (8 + (8 + (8 + (8 + (8 + 8)))))) from rfl]
  simp only [bitField_add, ← bits_singleton, ← bits_append]
  rfl

theorem bits_wordBytes (w : Word) : bits (wordBytes w) = bitField 32 w.toNat := by
  have hparts : bitField 32 w.toNat = bitField (8 + (8 + (8 + 8))) w.toNat := rfl
  rw [hparts]
  simp only [bitField_add, ← bits_singleton, ← bits_append, ← BitVec.toNat_ushiftRight]
  rfl

theorem bits_flatMap_wordBytes (ws : List Word) :
    bits (ws.flatMap wordBytes) = ws.flatMap fun w => bitField 32 w.toNat := by
  induction ws with
  | nil => rfl
  | cons w ws ih => rw [List.flatMap_cons, List.flatMap_cons, bits_append, bits_wordBytes, ih]

/-- Updates in a row leave what one reading of the whole message leaves. -/
theorem absorbed_updates (block : Bytes) (hblock : block.length = 64) (cuts : List Bytes) :
    absorbed (cuts.foldl sha256Update (sha256Init block hblock)) =
        absorb 64 sha256Block initial cuts.flatten ∧
      (cuts.foldl sha256Update (sha256Init block hblock)).bytes = cuts.flatten.length % 2 ^ 64 := by
  induction cuts using List.reverseRecOn with
  | nil =>
    rw [List.foldl_nil, List.flatten_nil, absorb_short (by norm_num), absorbed, sha256Init_h]
    exact ⟨rfl, rfl⟩
  | append_singleton cuts data ih =>
    obtain ⟨habs, hbytes⟩ := ih
    have hupdate := absorbed_update (cuts.foldl sha256Update (sha256Init block hblock)) data
    rw [habs, ← absorb_append (by norm_num)] at hupdate
    rw [List.foldl_append, List.foldl_cons, List.foldl_nil, List.flatten_append,
      List.flatten_singleton]
    refine ⟨hupdate.1, ?_⟩
    rw [hupdate.2, hbytes, List.length_append, Nat.mod_add_mod]

/-- **Incremental SHA-256 is SHA-256.** However a message of fewer than `2 ^ 61` bytes is cut, the
result spells the digest of the standard. -/
theorem sha256_incremental (block : Bytes) (hblock : block.length = 64) (cuts : List Bytes)
    (hlen : cuts.flatten.length < 2 ^ 61) :
    bits (sha256Final (cuts.foldl sha256Update (sha256Init block hblock))) =
      sha256 (bits cuts.flatten) := by
  obtain ⟨habs, hbytes⟩ := absorbed_updates block hblock cuts
  generalize cuts.foldl sha256Update (sha256Init block hblock) = sha at habs hbytes ⊢
  generalize cuts.flatten = m at hlen habs hbytes ⊢
  have hcount : sha.bytes * 8 % 2 ^ 64 = 8 * m.length := by
    rw [hbytes]
    omega
  have hused : m.length % 64 = sha.used := by
    have hwaits : sha.block.take sha.used = m.drop (m.length / 64 * 64) := congrArg Prod.snd habs
    have hlength := congrArg List.length hwaits
    rw [List.length_take, sha.size_eq, min_eq_left sha.used_lt.le, List.length_drop] at hlength
    omega
  -- The whole padded message, of which the updates have taken the front.
  have hpadded : absorb 64 sha256Block sha.h (sha.block.take sha.used ++ padMark m.length ++
      lengthBytes (8 * m.length)) =
      absorb 64 sha256Block initial (m ++ padMark m.length ++ lengthBytes (8 * m.length)) := by
    rw [List.append_assoc, List.append_assoc, absorb_append (by norm_num) initial m, ← habs]
    rfl
  have hbits := pad_bits m _ (bits_lengthBytes (8 * m.length))
  generalize m ++ padMark m.length ++ lengthBytes (8 * m.length) = padded at hpadded hbits
  have hfold : (absorb 64 sha256Block initial padded).1 =
      foldBlocks 512 compress ((bits padded).length / 512) initial (bits padded) := by
    have hcut : (bits padded).length / 512 = padded.length / 64 := by
      rw [length_bits]
      omega
    rw [hcut, absorb]
    exact foldBlocks_map (c := 8) take_bits drop_bits (fun h _ hb => sha256Block_eq h hb)
      (Nat.div_mul_le_self _ _)
  rw [sha256Final_eq sha hused, hcount, hpadded, hfold, sha256, hbits]
  rw [bits_flatMap_wordBytes]
  rfl

theorem sha256_incremental_abc :
    bits (sha256Final ([ascii "a", [], ascii "bc"].foldl sha256Update
      (sha256Init (List.replicate 64 0) rfl))) = sha256 (bits (ascii "abc")) :=
  sha256_incremental (List.replicate 64 0) rfl [ascii "a", [], ascii "bc"] (by decide)

end Body
