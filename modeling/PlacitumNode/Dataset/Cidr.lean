import PlacitumNode.Lib.Cover
import PlacitumNode.Lib.Prefix

/-!
# Internal CIDR sets

The networks of an internal dataset as `ngx_http_waf_dataset.c` keeps them: every entry becomes a
range of addresses of its family (`entryCidr`), the ranges are sorted and made distinct, and
`buildCidr` stores their starts with the running maximum of their ends.  `lookupCidr` searches the
set for an address that `dsAddr` has normalised.

The specification is `Network.Contains`: the address has the first `len` bits of the network, where
IPv4-mapped addresses and IPv4-mapped prefixes of at least 96 bits count as IPv4 (`counted`).  The
main result, `cidr_lookup_is_membership`, says that the lookup answers it.
-/

namespace Dataset

open Octets Framing Cover

/-- A byte array of fixed size. -/
abbrev Fixed (n : ℕ) := {b : Bytes // b.length = n}

/-- The bytes of two arrays combined. -/
def Fixed.zip {n : ℕ} (f : UInt8 → UInt8 → UInt8) (a b : Fixed n) : Fixed n :=
  ⟨List.zipWith f a.1 b.1, by simp [a.2, b.2]⟩

/-- The last four bytes of an IPv6 address. -/
def Fixed.tail (a : Fixed 16) : Fixed 4 := ⟨a.1.drop 12, by simp [a.2]⟩

/-- An address with its family, as `fam` and `addr` hold it. -/
inductive Addr
  | v4 (a : Fixed 4)
  | v6 (a : Fixed 16)
  deriving DecidableEq

/-- What `ngx_ptocidr` fills in: address and mask in network byte order. -/
inductive Cidr
  | inet (addr mask : Fixed 4)
  | inet6 (addr mask : Fixed 16)
  | other

/-! ### Ranges -/

structure R4 where
  start : UInt32
  last : UInt32
  deriving DecidableEq

structure R6 where
  start : Fixed 16
  last : Fixed 16
  deriving DecidableEq

def be32 : Bytes → UInt32
  | b0 :: b1 :: b2 :: b3 :: _ =>
    b0.toUInt32 <<< 24 ||| b1.toUInt32 <<< 16 ||| b2.toUInt32 <<< 8 ||| b3.toUInt32
  | _ => 0

/-- The range of an IPv4 network. -/
def range4 (addr mask : Bytes) : R4 where
  start := be32 addr
  last := be32 addr ||| ~~~be32 mask

def isMapped (a m : Bytes) : Bool :=
  (a.drop 10).take 2 = [0xff, 0xff] && (m.drop 10).take 2 = [0xff, 0xff] &&
    a.take 10 = List.replicate 10 0 && m.take 10 = List.replicate 10 0xff

/-- The ranges found so far, with the range of one more entry. -/
def entryCidr (ptocidr : Bytes → Option Cidr) (r : List R4 × List R6) (text : Bytes) :
    Option (List R4 × List R6) :=
  match ptocidr text with
  | none => none
  | some (.inet6 a m) =>
    if isMapped a.1 m.1 then some (r.1 ++ [range4 a.tail.1 m.tail.1], r.2)
    else some (r.1, r.2 ++ [⟨a, a.zip (fun a m => a ||| ~~~m) m⟩])
  | some (.inet a m) => some (r.1 ++ [range4 a.1 m.1], r.2)
  | some .other => none

def cmpR4 (x y : R4) : ℤ :=
  if x.start ≠ y.start then (if x.start < y.start then -1 else 1)
  else if x.last ≠ y.last then (if x.last > y.last then -1 else 1)
  else 0

def cmpR6 (x y : R6) : ℤ :=
  let rc := memcmp x.start.1 y.start.1
  if rc ≠ 0 then rc else -memcmp x.last.1 y.last.1

/-! ### The set -/

structure CidrSet where
  v4Start : List UInt32
  v4Cover : List UInt32
  v6Start : List (Fixed 16)
  v6Cover : List (Fixed 16)

/-- The set in a chunk of the shared memory, when the slab has one of its size. -/
def buildCidr (calloc : ℕ → Bool) (r4 : List R4) (r6 : List R6) : Option CidrSet :=
  if calloc (64 + r4.length * 2 * 4 + r6.length * 2 * 16) then
    some
      { v4Start := r4.map R4.start
        v4Cover := cover (fun x y => decide (x > y)) (r4.map fun r => (r.start, r.last))
        v6Start := r6.map R6.start
        v6Cover := cover (fun x y => decide (memcmp x.1 y.1 > 0)) (r6.map fun r => (r.start, r.last)) }
  else none

/-- The set of a dataset of networks; a dataset without entries has none. -/
def dsBuild (q : Qsort) (ptocidr : Bytes → Option Cidr) (calloc : ℕ → Bool)
    (entries : List Bytes) : Option (Option CidrSet) :=
  if entries.length = 0 then some none
  else
    match entries.foldlM (entryCidr ptocidr) ([], []) with
    | none => none
    | some (r4, r6) =>
      match buildCidr calloc (sortUniq q cmpR4 r4) (sortUniq q cmpR6 r6) with
      | none => none
      | some set => some (some set)

def lookupCidr (set : CidrSet) : Addr → Bool
  | .v4 addr =>
    if set.v4Start.length = 0 then false
    else
      let a := be32 addr.1
      reached (fun s => decide (s ≤ a)) (fun c => decide (c ≥ a)) set.v4Start set.v4Cover
  | .v6 addr =>
    if set.v6Start.length = 0 then false
    else
      reached (fun s => decide (memcmp s.1 addr.1 ≤ 0)) (fun c => decide (memcmp c.1 addr.1 ≥ 0))
        set.v6Start set.v6Cover

/-- The lookup through the slot, which may hold no set. -/
def internalHit (set : Option CidrSet) (addr : Addr) : Bool := set.any fun s => lookupCidr s addr

/-! ### Addresses -/

/-- `INADDR_NONE`. -/
def inaddrNone : Fixed 4 := ⟨List.replicate 4 0xff, rfl⟩

/-- The family of sixteen bytes: a mapped address is an IPv4 address. -/
def fold (a : Fixed 16) : Addr :=
  if a.1.take 10 ≠ List.replicate 10 0 then .v6 a
  else if (a.1.drop 10).take 2 ≠ [0xff, 0xff] then .v6 a
  else .v4 a.tail

section parsers

variable (inetAddr : Bytes → Fixed 4) (inet6Addr : Bytes → Option (Fixed 16))

/-- `ngx_http_waf_ds_addr`: the address of a value, binary or in text. -/
def dsAddr (value : Bytes) (binary : Bool) : Option Addr :=
  if binary then
    if h : value.length = 4 then some (.v4 ⟨value, h⟩)
    else if h : value.length = 16 then some (fold ⟨value, h⟩)
    else none
  else if inetAddr value ≠ inaddrNone then some (.v4 (inetAddr value))
  else (inet6Addr value).map fold

/-- The values that stand for an address. -/
inductive Presents : Bytes → Bool → Addr → Prop
  | binary4 (a : Fixed 4) : Presents a.1 true (.v4 a)
  | binary6 (a : Fixed 16) : Presents a.1 true (.v6 a)
  | text4 {value : Bytes} (h : inetAddr value ≠ inaddrNone) :
    Presents value false (.v4 (inetAddr value))
  | text6 {value : Bytes} {a : Fixed 16} (h : inetAddr value = inaddrNone)
    (h6 : inet6Addr value = some a) : Presents value false (.v6 a)

end parsers

/-! ### Networks -/

/-- A network: an address and the number of its leading bits that count. -/
inductive Network
  | v4 (net : Fixed 4) (len : ℕ) (h : len ≤ 32)
  | v6 (net : Fixed 16) (len : ℕ) (h : len ≤ 128)

/-- The mask of a prefix. -/
def Fixed.mask (n len : ℕ) : Fixed n := ⟨maskBytes n len, length_maskBytes n len⟩

/-- The masked address and the mask. -/
def Network.cidr : Network → Cidr
  | .v4 net len _ => .inet (net.zip (· &&& ·) (Fixed.mask 4 len)) (Fixed.mask 4 len)
  | .v6 net len _ => .inet6 (net.zip (· &&& ·) (Fixed.mask 16 len)) (Fixed.mask 16 len)

/-- The first 96 bits are those of the IPv4-mapped addresses. -/
def Mapped (a : Fixed 16) : Prop := be a.1 / 2 ^ 32 = 0xffff

instance (a : Fixed 16) : Decidable (Mapped a) :=
  inferInstanceAs (Decidable (be a.1 / 2 ^ 32 = 0xffff))

def Addr.counted : Addr → Addr
  | .v4 a => .v4 a
  | .v6 a => if Mapped a then .v4 a.tail else .v6 a

def Network.counted : Network → Network
  | .v4 net len h => .v4 net len h
  | .v6 net len h =>
    if 96 ≤ len ∧ Mapped net then .v4 net.tail (len - 96) (by omega) else .v6 net len h

def Network.Contains : Network → Addr → Prop
  | .v4 net len _, .v4 a => Agree 4 len a.1 net.1
  | .v6 net len _, .v6 a => Agree 16 len a.1 net.1
  | _, _ => False

instance : (n : Network) → (a : Addr) → Decidable (n.Contains a)
  | .v4 net len _, .v4 a => inferInstanceAs (Decidable (Agree 4 len a.1 net.1))
  | .v6 net len _, .v6 a => inferInstanceAs (Decidable (Agree 16 len a.1 net.1))
  | .v4 .., .v6 _ => inferInstanceAs (Decidable False)
  | .v6 .., .v4 _ => inferInstanceAs (Decidable False)

/-! ### Values of addresses -/

/-- One more byte at the end of a number. -/
theorem shiftLeft_or_byte (x k : ℕ) {b : ℕ} (hb : b < 256) :
    x <<< (8 + k) ||| b <<< k = (x * 256 + b) <<< k := by
  rw [Nat.shiftLeft_add, ← Nat.shiftLeft_or_distrib,
    ← Nat.shiftLeft_add_eq_or_of_lt (show b < 2 ^ 8 from hb), Nat.shiftLeft_eq x]

theorem toNat_be32 {l : Bytes} (h : l.length = 4) : (be32 l).toNat = be l := by
  match l, h with
  | [b0, b1, b2, b3], _ =>
    have h0 := b0.toNat_lt
    have h1 := b1.toNat_lt
    have h2 := b2.toNat_lt
    have h3 := b3.toNat_lt
    have hs : ∀ k ≤ 24, ∀ b < 256, b <<< k % 2 ^ 32 = b <<< k := by
      intro k hk b hb
      refine Nat.mod_eq_of_lt ?_
      rw [Nat.shiftLeft_eq]
      calc b * 2 ^ k ≤ b * 2 ^ 24 := Nat.mul_le_mul_left b (Nat.pow_le_pow_right (by omega) hk)
        _ < 2 ^ 32 := by omega
    simp only [be32, be, UInt32.toNat_or, UInt32.toNat_shiftLeft, UInt8.toNat_toUInt32,
      UInt32.reduceToNat, Nat.reduceMod, List.foldl_cons, List.foldl_nil]
    rw [hs 24 le_rfl _ h0, hs 16 (by omega) _ h1, hs 8 (by omega) _ h2,
      shiftLeft_or_byte b0.toNat 16 h1, shiftLeft_or_byte (b0.toNat * 256 + b1.toNat) 8 h2]
    have := shiftLeft_or_byte ((b0.toNat * 256 + b1.toNat) * 256 + b2.toNat) 0 h3
    rw [Nat.shiftLeft_zero, Nat.shiftLeft_zero] at this
    rw [this]
    ring

/-- The ends of the range of an IPv4 network. -/
theorem toNat_range4 {net : Bytes} (hnet : net.length = 4) {len : ℕ} (hlen : len ≤ 32) :
    (range4 (masked net (maskBytes 4 len)) (maskBytes 4 len)).start.toNat =
        be net / 2 ^ (8 * 4 - len) * 2 ^ (8 * 4 - len) ∧
      (range4 (masked net (maskBytes 4 len)) (maskBytes 4 len)).last.toNat =
        be net / 2 ^ (8 * 4 - len) * 2 ^ (8 * 4 - len) + (2 ^ (8 * 4 - len) - 1) := by
  have hstart : (be32 (masked net (maskBytes 4 len))).toNat =
      be net / 2 ^ (8 * 4 - len) * 2 ^ (8 * 4 - len) := by
    rw [toNat_be32 (by simp [masked, hnet]), be_masked hnet hlen]
  have hmask := be_maskBytes (n := 4) hlen
  have hpos : 0 < 2 ^ (8 * 4 - len) := by positivity
  have hnot : (~~~be32 (maskBytes 4 len)).toNat = 2 ^ (8 * 4 - len) - 1 := by
    rw [UInt32.toNat_not, toNat_be32 (length_maskBytes 4 len)]
    norm_num at hmask ⊢
    omega
  refine ⟨hstart, ?_⟩
  simp only [range4, UInt32.toNat_or]
  rw [hstart, hnot, Nat.mul_comm, Nat.two_pow_add_eq_or_of_lt (by omega)]

/-- `memcmp` of two arrays compares their values. -/
def Fixed.value {n : ℕ} (a : Fixed n) : ℕ := be a.1

theorem memcmp_le {n : ℕ} (a b : Fixed n) : memcmp a.1 b.1 ≤ 0 ↔ a.value ≤ b.value :=
  memcmp_nonpos (a.2.trans b.2.symm)

theorem memcmp_ge {n : ℕ} (a b : Fixed n) : memcmp a.1 b.1 ≥ 0 ↔ b.value ≤ a.value :=
  memcmp_nonneg (a.2.trans b.2.symm)

theorem memcmp_gt {n : ℕ} (a b : Fixed n) : memcmp a.1 b.1 > 0 ↔ b.value < a.value := by
  have := memcmp_le a b
  omega

theorem memcmp_zero {n : ℕ} (a b : Fixed n) : memcmp a.1 b.1 = 0 ↔ a = b :=
  (memcmp_eq_zero (a.2.trans b.2.symm)).trans Subtype.ext_iff.symm

/-! ### The order of the ranges -/

/-- By the start, and from the longest to the shortest. -/
theorem cmpR4_nonpos (x y : R4) : cmpR4 x y ≤ 0 ↔
    x.start.toNat < y.start.toNat ∨
      x.start.toNat = y.start.toNat ∧ y.last.toNat ≤ x.last.toNat := by
  unfold cmpR4
  simp only [ne_eq, ← UInt32.toNat_inj, UInt32.lt_iff_toNat_lt, gt_iff_lt]
  split_ifs <;> omega

theorem cmpR4_eq_zero (x y : R4) (h : cmpR4 x y = 0) : x = y := by
  obtain ⟨s, l⟩ := x
  obtain ⟨s', l'⟩ := y
  unfold cmpR4 at h
  simp only [ne_eq, ← UInt32.toNat_inj, UInt32.lt_iff_toNat_lt, gt_iff_lt] at h
  rw [R4.mk.injEq, ← UInt32.toNat_inj, ← UInt32.toNat_inj]
  split_ifs at h <;> omega

theorem cmpR6_nonpos (x y : R6) : cmpR6 x y ≤ 0 ↔
    x.start.value < y.start.value ∨
      x.start.value = y.start.value ∧ y.last.value ≤ x.last.value := by
  have hle := memcmp_le x.start y.start
  have hge := memcmp_ge x.start y.start
  have hlast := memcmp_ge x.last y.last
  unfold cmpR6
  simp only
  split <;> omega

theorem cmpR6_eq_zero (x y : R6) (h : cmpR6 x y = 0) : x = y := by
  obtain ⟨s, l⟩ := x
  obtain ⟨s', l'⟩ := y
  unfold cmpR6 at h
  simp only at h
  split at h
  · next hne => exact absurd h hne
  · next heq =>
    rw [not_not] at heq
    rw [neg_eq_zero] at h
    rw [(memcmp_zero s s').1 heq, (memcmp_zero l l').1 h]

theorem pairwise_r4 (q : Qsort) (l : List R4) :
    (sortUniq q cmpR4 l).Pairwise fun x y => x.start.toNat ≤ y.start.toNat := by
  refine (pairwise_sortUniq q l (fun x y => ?_) (fun x y z => ?_)).imp fun {x y} h => ?_
  · rw [cmpR4_nonpos, cmpR4_nonpos]
    omega
  · rw [cmpR4_nonpos, cmpR4_nonpos, cmpR4_nonpos]
    omega
  · rw [cmpR4_nonpos] at h
    omega

theorem pairwise_r6 (q : Qsort) (l : List R6) :
    (sortUniq q cmpR6 l).Pairwise fun x y => x.start.value ≤ y.start.value := by
  refine (pairwise_sortUniq q l (fun x y => ?_) (fun x y z => ?_)).imp fun {x y} h => ?_
  · rw [cmpR6_nonpos, cmpR6_nonpos]
    omega
  · rw [cmpR6_nonpos, cmpR6_nonpos, cmpR6_nonpos]
    omega
  · rw [cmpR6_nonpos] at h
    omega

/-! ### The lookup -/

/-- An address lies in a range of its family. -/
def InRange (r4 : List R4) (r6 : List R6) : Addr → Prop
  | .v4 a => ∃ r ∈ r4, r.start.toNat ≤ a.value ∧ a.value ≤ r.last.toNat
  | .v6 a => ∃ r ∈ r6, r.start.value ≤ a.value ∧ a.value ≤ r.last.value

/-- **The lookup finds the ranges the set was built from.** -/
theorem lookupCidr_iff {q : Qsort} {calloc : ℕ → Bool} {r4 : List R4} {r6 : List R6} {set : CidrSet}
    (h : buildCidr calloc (sortUniq q cmpR4 r4) (sortUniq q cmpR6 r6) = some set) (addr : Addr) :
    lookupCidr set addr = true ↔ InRange r4 r6 addr := by
  unfold buildCidr at h
  split at h
  case isFalse => cases h
  cases h
  cases addr with
  | v4 a =>
    set l := sortUniq q cmpR4 r4 with hl
    have hr := @reached_iff UInt32 (fun x y => decide (x > y)) ℕ _ UInt32.toNat
      (fun s => decide (s ≤ be32 a.1)) (fun c => decide (c ≥ be32 a.1)) a.value
      (fun x y => by simp [UInt32.lt_iff_toNat_lt])
      (fun x => by simp [UInt32.le_iff_toNat_le, toNat_be32 a.2, Fixed.value])
      (fun x => by simp [UInt32.le_iff_toNat_le, toNat_be32 a.2, Fixed.value])
      (l.map fun r => (r.start, r.last)) (List.pairwise_map.2 (pairwise_r4 q r4))
    rw [List.map_map] at hr
    have hmem : InRange r4 r6 (.v4 a) ↔ ∃ r ∈ l.map (fun r => (r.start, r.last)),
        r.1.toNat ≤ a.value ∧ a.value ≤ r.2.toNat := by
      simp [InRange, hl, mem_sortUniq q r4 cmpR4_eq_zero]
    rw [hmem, ← hr]
    unfold lookupCidr
    simp only
    split
    · next h0 =>
      have hnil : l = [] := by simpa using h0
      simp [hnil]
    · rfl
  | v6 a =>
    set l := sortUniq q cmpR6 r6 with hl
    have hr := @reached_iff (Fixed 16) (fun x y => decide (memcmp x.1 y.1 > 0)) ℕ _ Fixed.value
      (fun s => decide (memcmp s.1 a.1 ≤ 0)) (fun c => decide (memcmp c.1 a.1 ≥ 0)) a.value
      (fun x y => by rw [decide_eq_true_eq, memcmp_gt])
      (fun x => by rw [decide_eq_true_eq, memcmp_le])
      (fun x => by rw [decide_eq_true_eq, memcmp_ge])
      (l.map fun r => (r.start, r.last)) (List.pairwise_map.2 (pairwise_r6 q r6))
    rw [List.map_map] at hr
    have hmem : InRange r4 r6 (.v6 a) ↔ ∃ r ∈ l.map (fun r => (r.start, r.last)),
        r.1.value ≤ a.value ∧ a.value ≤ r.2.value := by
      simp [InRange, hl, mem_sortUniq q r6 cmpR6_eq_zero]
    rw [hmem, ← hr]
    unfold lookupCidr
    simp only
    split
    · next h0 =>
      have hnil : l = [] := by simpa using h0
      simp [hnil]
    · rfl

/-! ### Mapped addresses -/

theorem mapped_iff (a : Fixed 16) : Mapped a ↔
    a.1.take 10 = List.replicate 10 0 ∧ (a.1.drop 10).take 2 = [0xff, 0xff] := by
  have hsplit : a.1.take 12 = a.1.take 10 ++ (a.1.drop 10).take 2 :=
    List.take_add (i := 10) (j := 2)
  have hvalue : be (List.replicate 10 0 ++ [0xff, 0xff]) = 0xffff := by decide
  have hlen : (a.1.take 12).length = (List.replicate 10 0 ++ [(0xff : UInt8), 0xff]).length := by
    simp [a.2]
  have hdiv : be a.1 / 2 ^ 32 = be (a.1.take 12) := be_take (n := 12) (k := 4) a.2
  rw [Mapped, hdiv, ← hvalue]
  constructor
  · intro h
    rw [hsplit] at hlen h
    exact List.append_inj (be_injective hlen h) (by simp [a.2])
  · rintro ⟨h1, h2⟩
    rw [hsplit, h1, h2]

/-- **Normalising is counting mapped addresses as IPv4.** -/
theorem fold_eq (a : Fixed 16) : fold a = (Addr.v6 a).counted := by
  unfold fold Addr.counted
  by_cases h1 : a.1.take 10 = List.replicate 10 0
  · by_cases h2 : (a.1.drop 10).take 2 = [0xff, 0xff]
    · simp only [h1, h2, ne_eq, not_true, if_false, if_pos ((mapped_iff a).2 ⟨h1, h2⟩)]
    · simp only [h1, h2, ne_eq, not_true, if_false, not_false_iff, if_true,
        if_neg fun h => h2 ((mapped_iff a).1 h).2]
  · simp only [ne_eq, h1, not_false_iff, if_true, if_neg fun h => h1 ((mapped_iff a).1 h).1]

theorem dsAddr_of_presents {inetAddr : Bytes → Fixed 4} {inet6Addr : Bytes → Option (Fixed 16)}
    {value : Bytes} {binary : Bool} {a : Addr} (h : Presents inetAddr inet6Addr value binary a) :
    dsAddr inetAddr inet6Addr value binary = some a.counted := by
  cases h with
  | binary4 a => simp [dsAddr, a.2, Addr.counted]
  | binary6 a => simp [dsAddr, a.2, fold_eq]
  | text4 h => simp [dsAddr, h, Addr.counted]
  | text6 h h6 => simp [dsAddr, h, h6, fold_eq]

/-- **The test on the entry is the test on the network.** -/
theorem isMapped_iff (net : Fixed 16) {len : ℕ} (hlen : len ≤ 128) :
    isMapped (net.zip (· &&& ·) (Fixed.mask 16 len)).1 (Fixed.mask 16 len).1 = true ↔
      96 ≤ len ∧ Mapped net := by
  have hmask : (Fixed.mask 16 len).1.take 10 = List.replicate 10 0xff ∧
      ((Fixed.mask 16 len).1.drop 10).take 2 = [0xff, 0xff] ↔ 96 ≤ len := by
    have h10 := @take_maskBytes 16 10 len (by omega)
    have h2 := @take_maskBytes 6 2 (len - 8 * 10) (by omega)
    have hd := drop_maskBytes 6 10 len
    rw [Fixed.mask, h10, hd]
    rw [show ([0xff, 0xff] : Bytes) = List.replicate 2 0xff from rfl, h2]
    omega
  have hmapped : 96 ≤ len → (Mapped (net.zip (· &&& ·) (Fixed.mask 16 len)) ↔ Mapped net) := by
    intro h96
    have hb : be (net.zip (· &&& ·) (Fixed.mask 16 len)).1 =
        be net.1 / 2 ^ (8 * 16 - len) * 2 ^ (8 * 16 - len) := be_masked net.2 hlen
    obtain ⟨j, hj⟩ := Nat.exists_eq_add_of_le (show 8 * 16 - len ≤ 32 by omega)
    unfold Mapped
    rw [hb, hj, pow_add, ← Nat.div_div_eq_div_mul, Nat.mul_div_cancel _ (by positivity),
      Nat.div_div_eq_div_mul]
  have hcode : isMapped (net.zip (· &&& ·) (Fixed.mask 16 len)).1 (Fixed.mask 16 len).1 = true ↔
      Mapped (net.zip (· &&& ·) (Fixed.mask 16 len)) ∧ ((Fixed.mask 16 len).1.take 10 = List.replicate 10 0xff ∧
        ((Fixed.mask 16 len).1.drop 10).take 2 = [0xff, 0xff]) := by
    rw [mapped_iff]
    simp only [isMapped, Bool.and_eq_true, decide_eq_true_eq]
    constructor
    · rintro ⟨⟨⟨ha, hm⟩, ha'⟩, hm'⟩
      exact ⟨⟨ha', ha⟩, hm', hm⟩
    · rintro ⟨⟨ha', ha⟩, hm', hm⟩
      exact ⟨⟨⟨ha, hm⟩, ha'⟩, hm'⟩
  rw [hcode, hmask]
  constructor
  · rintro ⟨h, h96⟩
    exact ⟨h96, (hmapped h96).1 h⟩
  · rintro ⟨h96, h⟩
    exact ⟨(hmapped h96).2 h, h96⟩

/-! ### The ranges of the entries -/

/-- The range of a network of its family. -/
def rangeOf : Network → R4 ⊕ R6
  | .v4 net len _ =>
    .inl (range4 (net.zip (· &&& ·) (Fixed.mask 4 len)).1 (Fixed.mask 4 len).1)
  | .v6 net len _ =>
    .inr ⟨net.zip (· &&& ·) (Fixed.mask 16 len),
      (net.zip (· &&& ·) (Fixed.mask 16 len)).zip (fun a m => a ||| ~~~m) (Fixed.mask 16 len)⟩

def push (r : List R4 × List R6) : R4 ⊕ R6 → List R4 × List R6
  | .inl e => (r.1 ++ [e], r.2)
  | .inr e => (r.1, r.2 ++ [e])

theorem entryCidr_eq {ptocidr : Bytes → Option Cidr} {text : Bytes} {n : Network}
    (h : ptocidr text = some n.cidr) (r : List R4 × List R6) :
    entryCidr ptocidr r text = some (push r (rangeOf n.counted)) := by
  unfold entryCidr
  rw [h]
  cases n with
  | v4 net len hlen => rfl
  | v6 net len hlen =>
    simp only [Network.cidr]
    by_cases hm : 96 ≤ len ∧ Mapped net
    · have htail : (net.zip (· &&& ·) (Fixed.mask 16 len)).tail.1 =
          (net.tail.zip (· &&& ·) (Fixed.mask 4 (len - 96))).1 ∧
          (Fixed.mask 16 len).tail.1 = (Fixed.mask 4 (len - 96)).1 := by
        have hd : (maskBytes 16 len).drop 12 = maskBytes 4 (len - 96) := drop_maskBytes 4 12 len
        simp only [Fixed.tail, Fixed.zip, Fixed.mask, List.drop_zipWith, hd, and_self]
      rw [if_pos ((isMapped_iff net hlen).2 hm), htail.1, htail.2]
      simp only [Network.counted, if_pos hm, rangeOf, push]
    · rw [if_neg fun h => hm ((isMapped_iff net hlen).1 h)]
      simp only [Network.counted, if_neg hm, rangeOf, push]

/-- A range holds the addresses of its network. -/
theorem inRange_push (r : List R4 × List R6) (n : Network) (addr : Addr) :
    InRange (push r (rangeOf n)).1 (push r (rangeOf n)).2 addr ↔
      InRange r.1 r.2 addr ∨ n.Contains addr := by
  cases n with
  | v4 net len hlen =>
    cases addr with
    | v4 a =>
      have hr := toNat_range4 net.2 hlen
      simp only [push, rangeOf, InRange, Network.Contains, List.mem_append, List.mem_singleton,
        or_and_right, exists_or, exists_eq_left, agree_iff]
      rw [← hr.2, ← hr.1]
      rfl
    | v6 a => simp [push, rangeOf, InRange, Network.Contains]
  | v6 net len hlen =>
    cases addr with
    | v4 a => simp [push, rangeOf, InRange, Network.Contains]
    | v6 a =>
      simp only [push, rangeOf, InRange, Network.Contains, List.mem_append, List.mem_singleton,
        or_and_right, exists_or, exists_eq_left, agree_iff]
      rw [← be_filled net.2 hlen, ← be_masked net.2 hlen]
      rfl

section build

variable {q : Qsort} {ptocidr : Bytes → Option Cidr} {network : Bytes → Option Network}
  {entries : List Bytes}

/-- The ranges of the entries hold the addresses of their networks. -/
theorem foldlM_entryCidr (hp : ∀ t, ptocidr t = (network t).map Network.cidr)
    (hnet : ∀ t ∈ entries, (network t).isSome) (r : List R4 × List R6) :
    ∃ r', entries.foldlM (entryCidr ptocidr) r = some r' ∧ ∀ addr, InRange r'.1 r'.2 addr ↔
      InRange r.1 r.2 addr ∨
        ∃ t ∈ entries, ∃ n, network t = some n ∧ n.counted.Contains addr := by
  induction entries generalizing r with
  | nil => exact ⟨r, rfl, fun addr => by simp⟩
  | cons t l ih =>
    obtain ⟨n, hn⟩ := Option.isSome_iff_exists.1 (hnet t (List.mem_cons_self ..))
    have hcidr : ptocidr t = some n.cidr := by rw [hp, hn, Option.map_some]
    obtain ⟨r', hr', hiff⟩ :=
      ih (fun t' ht' => hnet t' (List.mem_cons_of_mem t ht')) (push r (rangeOf n.counted))
    refine ⟨r', ?_, fun addr => ?_⟩
    · rw [List.foldlM_cons, entryCidr_eq hcidr r]
      exact hr'
    · rw [hiff, inRange_push, or_assoc]
      simp only [List.mem_cons, exists_eq_or_imp, hn, Option.some.injEq, exists_eq_left']

/-- A dataset of networks is built, and its lookup finds the networks. -/
theorem dsBuild_spec (hp : ∀ t, ptocidr t = (network t).map Network.cidr)
    (hnet : ∀ t ∈ entries, (network t).isSome) {calloc : ℕ → Bool} (hroom : ∀ n, calloc n = true) :
    ∃ set, dsBuild q ptocidr calloc entries = some set ∧ ∀ addr, internalHit set addr = true ↔
      ∃ t ∈ entries, ∃ n, network t = some n ∧ n.counted.Contains addr := by
  unfold dsBuild
  split
  · next h0 =>
    obtain rfl := List.eq_nil_of_length_eq_zero h0
    exact ⟨none, rfl, fun addr => by simp [internalHit]⟩
  · obtain ⟨⟨r4, r6⟩, hr, hiff⟩ := foldlM_entryCidr hp hnet ([], [])
    rw [hr]
    simp only
    cases hset : buildCidr calloc (sortUniq q cmpR4 r4) (sortUniq q cmpR6 r6) with
    | none =>
      unfold buildCidr at hset
      rw [if_pos (hroom _)] at hset
      cases hset
    | some set =>
      refine ⟨some set, rfl, fun addr => ?_⟩
      have hnone : ¬ InRange [] [] addr := by
        cases addr <;> simp [InRange]
      rw [internalHit, Option.any_some, lookupCidr_iff hset, hiff, or_iff_right hnone]

/-- **The lookup in an internal set is membership.**  A dataset whose entries are networks is built,
and for every value that stands for an address, the lookup of the normalised address answers whether
a configured network contains it, IPv4-mapped addresses and prefixes counted as IPv4. -/
theorem cidr_lookup_is_membership (hp : ∀ t, ptocidr t = (network t).map Network.cidr)
    (hnet : ∀ t ∈ entries, (network t).isSome) {calloc : ℕ → Bool} (hroom : ∀ n, calloc n = true) :
    ∃ set, dsBuild q ptocidr calloc entries = some set ∧
      ∀ inetAddr inet6Addr value binary a, Presents inetAddr inet6Addr value binary a →
        ∃ addr, dsAddr inetAddr inet6Addr value binary = some addr ∧
          (internalHit set addr = true ↔
            ∃ t ∈ entries, ∃ n, network t = some n ∧ n.counted.Contains a.counted) := by
  obtain ⟨set, hset, hiff⟩ := dsBuild_spec (q := q) hp hnet hroom
  refine ⟨set, hset, fun inetAddr inet6Addr value binary a ha => ?_⟩
  exact ⟨a.counted, dsAddr_of_presents ha, hiff a.counted⟩

end build

/-- `10.0.0.0/8`, `::ffff:10.1.0.0/112` and `192.168.7.9/16`. -/
def threeNetworks (t : Bytes) : Option Network :=
  if t = [1] then some (.v4 ⟨[10, 0, 0, 0], rfl⟩ 8 (by omega))
  else if t = [2] then
    some (.v6 ⟨[0, 0, 0, 0, 0, 0, 0, 0, 0, 0, 255, 255, 10, 1, 0, 0], rfl⟩ 112 (by omega))
  else some (.v4 ⟨[192, 168, 7, 9], rfl⟩ 16 (by omega))

theorem cidr_lookup_is_membership_mapped :
    ∃ set, dsBuild Qsort.merge (fun t => (threeNetworks t).map Network.cidr) (fun _ => true)
        [[1], [2], [3]] = some set ∧
      ∃ addr, dsAddr (fun _ => inaddrNone) (fun _ => none)
          [0, 0, 0, 0, 0, 0, 0, 0, 0, 0, 255, 255, 192, 168, 1, 1] true = some addr ∧
        internalHit set addr = true := by
  obtain ⟨set, hset, h⟩ := @cidr_lookup_is_membership Qsort.merge
    (fun t => (threeNetworks t).map Network.cidr) threeNetworks [[1], [2], [3]] (fun t => rfl)
    (by decide) (fun _ => true) (fun _ => rfl)
  refine ⟨set, hset, ?_⟩
  obtain ⟨addr, haddr, hiff⟩ := h (fun _ => inaddrNone) (fun _ => none) _ true _
    (.binary6 ⟨[0, 0, 0, 0, 0, 0, 0, 0, 0, 0, 255, 255, 192, 168, 1, 1], rfl⟩)
  refine ⟨addr, haddr, hiff.2 ⟨[3], by decide, _, rfl, ?_⟩⟩
  decide

end Dataset
