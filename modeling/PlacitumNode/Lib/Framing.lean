import PlacitumNode.Lib.Octets

/-!
# The framing of a message stream

The base framing of the WebSocket protocol: a two-byte lead, an extended length of two or eight
bytes, a masking key of four bytes, and the masked payload.

* `maskAt`: masking from an offset into the key;
* `be`, `beBytes`: numbers in network order;
* `Form`, `Header`, `readHeader`: the three length forms and the header of a frame;
* `Frame`, `Frame.encode`, `decode`: frames, their bytes, and the decoder of a byte stream;
* `Partial`, `after`, `deliveries`: what a receiver makes of a sequence of frames;
* `WellFormed`: the sequences a peer may send.
-/

namespace Framing

open Octets

/-! ### Masking -/

abbrev Key := Fin 4 → UInt8

instance neZero_key : NeZero 4 := ⟨by decide⟩
instance neZero_rsv : NeZero 8 := ⟨by decide⟩
instance neZero_opcode : NeZero 16 := ⟨by decide⟩

/-- The bytes under the key, the first of them at the offset `n` into it. -/
def maskAt (k : Key) (n : ℕ) (bs : Bytes) : Bytes :=
  bs.mapIdx fun i b => b ^^^ k (Fin.ofNat 4 (n + i))

@[simp] theorem length_maskAt (k : Key) (n : ℕ) (bs : Bytes) :
    (maskAt k n bs).length = bs.length := by
  simp [maskAt]

theorem maskAt_append (k : Key) (n : ℕ) (as bs : Bytes) :
    maskAt k n (as ++ bs) = maskAt k n as ++ maskAt k (n + as.length) bs := by
  simp [maskAt, List.mapIdx_append, Nat.add_assoc, Nat.add_comm as.length]

@[simp] theorem maskAt_maskAt (k : Key) (n : ℕ) (bs : Bytes) :
    maskAt k n (maskAt k n bs) = bs := by
  apply List.ext_getElem
  · simp
  · intro i h₁ h₂
    simp [maskAt]

/-- Masking under a key that may be absent. -/
def maskBy (k : Option Key) (bs : Bytes) : Bytes :=
  match k with
  | some k => maskAt k 0 bs
  | none => bs

@[simp] theorem length_maskBy (k : Option Key) (bs : Bytes) :
    (maskBy k bs).length = bs.length := by
  cases k <;> simp [maskBy]

@[simp] theorem maskBy_maskBy (k : Option Key) (bs : Bytes) : maskBy k (maskBy k bs) = bs := by
  cases k <;> simp [maskBy]

def keyBytes (k : Key) : Bytes := List.ofFn k

@[simp] theorem length_keyBytes (k : Key) : (keyBytes k).length = 4 := by simp [keyBytes]

/-- The key in the first four bytes. -/
def readKey (bs : Bytes) : Key := fun i => bs.getD i 0

theorem readKey_append (k : Key) (t : Bytes) : readKey (keyBytes k ++ t) = k := by
  funext i
  have hi : i.val < (keyBytes k).length := by simp
  simp only [readKey, List.getD_eq_getElem?_getD, List.getElem?_append_left hi]
  rw [List.getElem?_eq_getElem hi, Option.getD_some]
  simp only [keyBytes, List.getElem_ofFn]

/-! ### Numbers in network order -/

/-- The number written in the bytes, the first of them the most significant. -/
def be (bs : Bytes) : ℕ := bs.foldl (fun n b => n * 256 + b.toNat) 0

def beBytes : ℕ → ℕ → Bytes
  | 0, _ => []
  | w + 1, n => beBytes w (n / 256) ++ [UInt8.ofNat n]

@[simp] theorem length_beBytes (w n : ℕ) : (beBytes w n).length = w := by
  induction w generalizing n with
  | zero => rfl
  | succ w ih => simp [beBytes, ih]

theorem be_concat (bs : Bytes) (b : UInt8) : be (bs ++ [b]) = be bs * 256 + b.toNat := by
  simp [be]

theorem be_beBytes {w n : ℕ} (h : n < 256 ^ w) : be (beBytes w n) = n := by
  induction w generalizing n with
  | zero => simp at h; simp [h, be, beBytes]
  | succ w ih =>
    have hq : n / 256 < 256 ^ w := Nat.div_lt_of_lt_mul (by rw [← pow_succ']; exact h)
    rw [beBytes, be_concat, ih hq]
    simp only [UInt8.toNat_ofNat']
    omega

/-! ### Headers -/

/-- The three forms of a payload length. -/
inductive Form
  | short
  | medium
  | long
  deriving DecidableEq

def Form.width : Form → ℕ
  | short => 0
  | medium => 2
  | long => 8

/-- The lengths a form can hold. -/
def Form.Fits : Form → ℕ → Prop
  | short, n => n < 126
  | medium, n => n < 2 ^ 16
  | long, n => n < 2 ^ 63

instance (f : Form) (n : ℕ) : Decidable (f.Fits n) := by
  cases f <;> exact Nat.decLt _ _

/-- The seven bits of the second byte. -/
def Form.lead : Form → ℕ → ℕ
  | short, n => n
  | medium, _ => 126
  | long, _ => 127

def Form.ofLead (n : ℕ) : Form := if n = 126 then .medium else if n = 127 then .long else .short

/-- The shortest form of a length. -/
def Form.least (n : ℕ) : Form := if n < 126 then .short else if n ≤ 65535 then .medium else .long

theorem Form.fits_least {n : ℕ} (h : n < 2 ^ 63) : (Form.least n).Fits n := by
  unfold Form.least
  split
  · assumption
  · split
    · simp only [Form.Fits]
      omega
    · exact h

theorem Form.lt_of_fits {f : Form} {n : ℕ} (h : f.Fits n) : n < 2 ^ 63 := by
  cases f <;> simp only [Form.Fits] at h <;> omega

theorem Form.lead_lt {f : Form} {n : ℕ} (h : f.Fits n) : f.lead n < 128 := by
  cases f <;> simp only [Form.Fits] at h <;> simp only [Form.lead] <;> omega

theorem Form.ofLead_lead {f : Form} {n : ℕ} (h : f.Fits n) : Form.ofLead (f.lead n) = f := by
  cases f with
  | short =>
    have h' : n < 126 := h
    have hl : Form.lead .short n = n := rfl
    unfold Form.ofLead
    rw [hl, if_neg (by omega), if_neg (by omega)]
  | medium => rfl
  | long => rfl

structure Header where
  fin : Bool
  rsv : Fin 8
  opcode : Fin 16
  masked : Bool
  form : Form
  plen : ℕ
  deriving DecidableEq

def Header.hlen (h : Header) : ℕ := 2 + h.form.width + if h.masked then 4 else 0

/-- The bytes of the whole frame. -/
def Header.size (h : Header) : ℕ := h.hlen + h.plen

theorem Header.two_le_hlen (h : Header) : 2 ≤ h.hlen := by
  unfold Header.hlen
  omega

theorem Header.hlen_le (h : Header) : h.hlen ≤ 14 := by
  have : h.form.width ≤ 8 := by cases h.form <;> decide
  unfold Header.hlen
  split <;> omega

/-- The header that begins with `b0` and `b1`, its extended length at the front of `t`. -/
def headerOf (b0 b1 : UInt8) (t : Bytes) : Header :=
  let form := Form.ofLead (b1.toNat % 128)
  { fin := decide (128 ≤ b0.toNat)
    rsv := Fin.ofNat 8 (b0.toNat / 16)
    opcode := Fin.ofNat 16 b0.toNat
    masked := decide (128 ≤ b1.toNat)
    form := form
    plen := if form = .short then b1.toNat % 128 else be (t.take form.width) }

/-- The header at the front of the bytes, once they hold all of it. -/
def readHeader : Bytes → Option Header
  | b0 :: b1 :: t => if t.length + 2 < (headerOf b0 b1 t).hlen then none else some (headerOf b0 b1 t)
  | _ => none

theorem readHeader_eq_some {bs : Bytes} {h : Header} : readHeader bs = some h ↔
    ∃ b0 b1 t, bs = b0 :: b1 :: t ∧ h = headerOf b0 b1 t ∧ h.hlen ≤ t.length + 2 := by
  constructor
  · intro hr
    match bs, hr with
    | b0 :: b1 :: t, hr =>
      simp only [readHeader] at hr
      by_cases hlt : t.length + 2 < (headerOf b0 b1 t).hlen
      · rw [if_pos hlt] at hr
        cases hr
      · rw [if_neg hlt] at hr
        obtain rfl := Option.some.inj hr
        exact ⟨b0, b1, t, rfl, rfl, by omega⟩
  · rintro ⟨b0, b1, t, rfl, rfl, hle⟩
    exact if_neg (by omega)

theorem width_le_hlen (h : Header) : 2 + h.form.width ≤ h.hlen := by
  unfold Header.hlen
  omega

/-- The header depends only on the bytes of the header. -/
theorem headerOf_congr {b0 b1 : UInt8} {s t : Bytes}
    (h : s.take (headerOf b0 b1 t).form.width = t.take (headerOf b0 b1 t).form.width) :
    headerOf b0 b1 s = headerOf b0 b1 t := by
  simp only [headerOf] at h ⊢
  rw [h]

/-- More bytes do not change the header. -/
theorem readHeader_append {bs : Bytes} {h : Header} (hr : readHeader bs = some h) (t : Bytes) :
    readHeader (bs ++ t) = some h := by
  obtain ⟨b0, b1, s, rfl, rfl, hle⟩ := readHeader_eq_some.1 hr
  have hw := width_le_hlen (headerOf b0 b1 s)
  refine readHeader_eq_some.2 ⟨b0, b1, s ++ t, rfl, (headerOf_congr ?_).symm, ?_⟩
  · exact List.take_append_of_le_length (by omega)
  · simp only [List.length_append]
    omega

/-- Bytes past the header do not change it. -/
theorem readHeader_take {bs : Bytes} {h : Header} (hr : readHeader bs = some h) {n : ℕ}
    (hn : h.hlen ≤ n) : readHeader (bs.take n) = some h := by
  obtain ⟨b0, b1, s, rfl, rfl, hle⟩ := readHeader_eq_some.1 hr
  have hw := width_le_hlen (headerOf b0 b1 s)
  obtain ⟨m, rfl⟩ : ∃ m, n = m + 2 := ⟨n - 2, by omega⟩
  refine readHeader_eq_some.2 ⟨b0, b1, s.take m, rfl, (headerOf_congr ?_).symm, ?_⟩
  · rw [List.take_take, Nat.min_eq_left (by omega)]
  · simp only [List.length_take]
    omega

/-! ### Frames -/

structure Frame where
  fin : Bool
  rsv : Fin 8
  opcode : Fin 16
  form : Form
  key : Option Key
  payload : Bytes
  fits : form.Fits payload.length

def Frame.header (f : Frame) : Header :=
  ⟨f.fin, f.rsv, f.opcode, f.key.isSome, f.form, f.payload.length⟩

/-- The bytes of a header, with the key as the last of them. -/
def headBytes (fin : Bool) (rsv : Fin 8) (opcode : Fin 16) (form : Form) (key : Option Key)
    (n : ℕ) : Bytes :=
  UInt8.ofNat ((if fin then 128 else 0) + 16 * rsv.val + opcode.val) ::
    UInt8.ofNat ((if key.isSome then 128 else 0) + form.lead n) ::
      ((if form = .short then [] else beBytes form.width n) ++ (key.map keyBytes).getD [])

def Frame.head (f : Frame) : Bytes :=
  headBytes f.fin f.rsv f.opcode f.form f.key f.payload.length

def Frame.encode (f : Frame) : Bytes := f.head ++ maskBy f.key f.payload

def encodeAll (fs : List Frame) : Bytes := fs.flatMap Frame.encode

theorem length_headBytes (fin : Bool) (rsv : Fin 8) (opcode : Fin 16) (form : Form)
    (key : Option Key) (n : ℕ) : (headBytes fin rsv opcode form key n).length =
      2 + form.width + if key.isSome then 4 else 0 := by
  cases form <;> cases key <;> simp [headBytes, Form.width]

@[simp] theorem Frame.length_head (f : Frame) : f.head.length = f.header.hlen :=
  length_headBytes ..

@[simp] theorem Frame.length_encode (f : Frame) : f.encode.length = f.header.size := by
  simp [Frame.encode, Header.size, Frame.header]

theorem lead_bits (fin : Bool) (rsv : Fin 8) (opcode : Fin 16) :
    let b := (UInt8.ofNat ((if fin then 128 else 0) + 16 * rsv.val + opcode.val)).toNat
    decide (128 ≤ b) = fin ∧ Fin.ofNat 8 (b / 16) = rsv ∧ Fin.ofNat 16 b = opcode := by
  revert fin rsv opcode
  decide +kernel

/-- The two bytes of a header, by number. -/
theorem header_bytes :
    (∀ m : Bool, ∀ n < 128, decide (128 ≤ (UInt8.ofNat ((if m then 128 else 0) + n)).toNat) = m ∧
      (UInt8.ofNat ((if m then 128 else 0) + n)).toNat % 128 = n) ∧
    (∀ n < 256, UInt8.ofNat ((if decide (128 ≤ n) then 128 else 0) +
      16 * (Fin.ofNat 8 (n / 16)).val + (Fin.ofNat 16 n).val) = UInt8.ofNat n) ∧
    ∀ n < 256, UInt8.ofNat ((if decide (128 ≤ n) then 128 else 0) + n % 128) = UInt8.ofNat n := by
  decide +kernel

theorem length_bits (masked : Bool) {n : ℕ} (h : n < 128) :
    let b := (UInt8.ofNat ((if masked then 128 else 0) + n)).toNat
    decide (128 ≤ b) = masked ∧ b % 128 = n :=
  header_bytes.1 masked n h

/-- The header read back from its bytes. -/
theorem readHeader_headBytes (fin : Bool) (rsv : Fin 8) (opcode : Fin 16) {form : Form}
    (key : Option Key) {n : ℕ} (hf : form.Fits n) (t : Bytes) :
    readHeader (headBytes fin rsv opcode form key n ++ t) =
      some ⟨fin, rsv, opcode, key.isSome, form, n⟩ := by
  obtain ⟨h₁, h₂, h₃⟩ := lead_bits fin rsv opcode
  obtain ⟨h₄, h₅⟩ := length_bits key.isSome (Form.lead_lt hf)
  have hlen : (if form = .short then form.lead n
      else be (((if form = .short then [] else beBytes form.width n) ++
        (key.map keyBytes).getD [] ++ t).take form.width)) = n := by
    cases form with
    | short => rfl
    | medium =>
      simp only [reduceCtorEq, if_false, List.append_assoc]
      rw [List.take_left' (length_beBytes ..)]
      exact be_beBytes hf
    | long =>
      simp only [reduceCtorEq, if_false, List.append_assoc]
      rw [List.take_left' (length_beBytes ..)]
      exact be_beBytes (lt_trans hf (by norm_num [Form.width]))
  have hl := length_headBytes fin rsv opcode form key n
  simp only [headBytes, List.length_cons] at hl
  refine readHeader_eq_some.2 ⟨_, _, _, List.cons_append.trans (congrArg _ List.cons_append), ?_, ?_⟩
  · simp only [headerOf, h₁, h₂, h₃, h₄, h₅, Form.ofLead_lead hf, hlen]
  · simp only [Header.hlen, List.length_append] at hl ⊢
    omega

theorem Frame.readHeader_head (f : Frame) (t : Bytes) :
    readHeader (f.head ++ t) = some f.header :=
  readHeader_headBytes f.fin f.rsv f.opcode f.key f.fits t

theorem Frame.readHeader_encode (f : Frame) (t : Bytes) :
    readHeader (f.encode ++ t) = some f.header := by
  rw [Frame.encode, List.append_assoc]
  exact f.readHeader_head _

/-- Bytes that begin a frame and have a header have that frame's header. -/
theorem Frame.readHeader_begins {f : Frame} {u v w : Bytes} {h : Header}
    (he : u ++ v = f.encode ++ w) (hr : readHeader u = some h) : h = f.header := by
  have h₁ := readHeader_append hr v
  rw [he, f.readHeader_encode] at h₁
  exact (Option.some.inj h₁).symm

/-- The masking key is the last part of the header. -/
theorem Frame.drop_head {f : Frame} {k : Key} (hk : f.key = some k) :
    f.head.drop (f.header.hlen - 4) = keyBytes k := by
  have hl : f.header.hlen - 4 = 2 + f.form.width := by
    simp [Header.hlen, Frame.header, hk]
  rw [hl, Frame.head, hk]
  cases f.form <;> simp [headBytes, Form.width]

/-! ### Bytes that begin with a frame -/

theorem beBytes_be (bs : Bytes) : beBytes bs.length (be bs) = bs := by
  induction bs using List.reverseRecOn with
  | nil => rfl
  | append_singleton bs b ih =>
    have hb := b.toNat_lt
    have hq : (be bs * 256 + b.toNat) / 256 = be bs := by omega
    have hr : UInt8.ofNat (be bs * 256 + b.toNat) = b := by
      apply UInt8.toNat_inj.1
      rw [UInt8.toNat_ofNat']
      omega
    rw [List.length_append, List.length_singleton, beBytes, be_concat, hq, ih, hr]

theorem be_lt (bs : Bytes) : be bs < 256 ^ bs.length := by
  induction bs using List.reverseRecOn with
  | nil => decide
  | append_singleton bs b ih =>
    have hb := b.toNat_lt
    rw [be_concat, List.length_append, List.length_singleton, pow_succ]
    omega

theorem keyBytes_readKey {bs : Bytes} (h : 4 ≤ bs.length) : keyBytes (readKey bs) = bs.take 4 := by
  apply List.ext_getElem
  · simp [h]
  · intro i h₁ h₂
    simp only [keyBytes, readKey, List.getElem_ofFn, List.getElem_take]
    rw [List.getD_eq_getElem?_getD, List.getElem?_eq_getElem (by simp at h₂; omega), Option.getD_some]

/-- The first byte of a header, put together again. -/
theorem lead_byte (b : UInt8) : UInt8.ofNat ((if decide (128 ≤ b.toNat) then 128 else 0) +
    16 * (Fin.ofNat 8 (b.toNat / 16)).val + (Fin.ofNat 16 b.toNat).val) = b := by
  rw [header_bytes.2.1 _ b.toNat_lt, UInt8.ofNat_toNat]

theorem length_byte (b : UInt8) :
    UInt8.ofNat ((if decide (128 ≤ b.toNat) then 128 else 0) + b.toNat % 128) = b := by
  rw [header_bytes.2.2 _ b.toNat_lt, UInt8.ofNat_toNat]

theorem lead_headerOf (b0 b1 : UInt8) (t : Bytes) :
    (headerOf b0 b1 t).form.lead (headerOf b0 b1 t).plen = b1.toNat % 128 := by
  simp only [headerOf, Form.ofLead]
  split
  · simp_all [Form.lead]
  · split
    · simp_all [Form.lead]
    · rfl

theorem fits_headerOf {b0 b1 : UInt8} {t : Bytes} (hp : (headerOf b0 b1 t).plen < 2 ^ 63) :
    (headerOf b0 b1 t).form.Fits (headerOf b0 b1 t).plen := by
  have hlt := be_lt (t.take 2)
  have hlen : (t.take 2).length ≤ 2 := by simp
  have hpow : 256 ^ (t.take 2).length ≤ 256 ^ 2 := Nat.pow_le_pow_right (by decide) hlen
  simp only [headerOf, Form.ofLead] at hp ⊢
  by_cases h₁ : b1.toNat % 128 = 126
  · simp only [if_pos h₁, reduceCtorEq, if_false, Form.width, Form.Fits]
    omega
  · by_cases h₂ : b1.toNat % 128 = 127
    · simp only [if_neg h₁, if_pos h₂, reduceCtorEq, if_false, Form.width, Form.Fits] at hp ⊢
      exact hp
    · simp only [if_neg h₁, if_neg h₂, if_true, Form.Fits]
      omega

/-- The bytes of a header, put together again. -/
theorem headBytes_headerOf {b0 b1 : UInt8} {t : Bytes}
    (hle : (headerOf b0 b1 t).hlen ≤ t.length + 2) :
    let h := headerOf b0 b1 t
    headBytes h.fin h.rsv h.opcode h.form
        (if h.masked then some (readKey ((b0 :: b1 :: t).drop (h.hlen - 4))) else none) h.plen =
      (b0 :: b1 :: t).take h.hlen := by
  intro h
  have hw : h.hlen = 2 + h.form.width + if h.masked then 4 else 0 := rfl
  have hle' : h.hlen ≤ t.length + 2 := hle
  have hext : (if h.form = .short then [] else beBytes h.form.width h.plen) =
      t.take h.form.width := by
    by_cases hs : h.form = .short
    · rw [if_pos hs, hs]
      rfl
    · have hplen : h.plen = be (t.take h.form.width) := if_neg hs
      have hwl : (t.take h.form.width).length = h.form.width := by
        rw [List.length_take]
        omega
      rw [if_neg hs, hplen]
      nth_rewrite 1 [← hwl]
      exact beBytes_be _
  have hsplit : h.hlen = (h.form.width + if h.masked then 4 else 0) + 2 := by omega
  have hb0 : UInt8.ofNat ((if h.fin then 128 else 0) + 16 * h.rsv.val + h.opcode.val) = b0 :=
    lead_byte b0
  have hb1 : UInt8.ofNat ((if h.masked then 128 else 0) + h.form.lead h.plen) = b1 := by
    rw [lead_headerOf]
    exact length_byte b1
  rw [headBytes, hext, hb0, hsplit, List.take_succ_cons, List.take_succ_cons, List.take_add]
  cases hm : h.masked with
  | false =>
    simp only [hm, Bool.false_eq_true, if_false] at hb1 ⊢
    simp only [Option.isSome_none, Bool.false_eq_true, if_false, hb1]
    simp
  | true =>
    simp only [hm, if_true] at hb1 hsplit ⊢
    have hd : (b0 :: b1 :: t).drop (h.form.width + 4 + 2 - 4) = t.drop h.form.width := rfl
    rw [hd, Option.isSome_some, if_pos rfl, hb1, Option.map_some, Option.getD_some,
      keyBytes_readKey]
    rw [List.length_drop]
    omega

/-- A whole frame at the front of the bytes. -/
theorem exists_frame {bs : Bytes} {h : Header} (hr : readHeader bs = some h)
    (hp : h.plen < 2 ^ 63) (hl : h.size ≤ bs.length) :
    ∃ f : Frame, f.header = h ∧ bs.take h.size = f.encode := by
  obtain ⟨b0, b1, t, rfl, rfl, hle⟩ := readHeader_eq_some.1 hr
  have hhead := headBytes_headerOf hle
  have hfit := fits_headerOf hp
  dsimp only at hhead
  generalize headerOf b0 b1 t = h at *
  generalize hkey : (if h.masked then some (readKey ((b0 :: b1 :: t).drop (h.hlen - 4)))
    else none) = key at hhead
  have hsome : key.isSome = h.masked := by
    rw [← hkey]
    cases h.masked <;> rfl
  generalize hraw : ((b0 :: b1 :: t).drop h.hlen).take h.plen = raw
  have hlen : (maskBy key raw).length = h.plen := by
    rw [length_maskBy, ← hraw, List.length_take, List.length_drop]
    simp only [Header.size, List.length_cons] at hl ⊢
    omega
  refine ⟨⟨h.fin, h.rsv, h.opcode, h.form, key, maskBy key raw, by rwa [hlen]⟩, ?_, ?_⟩
  · simp only [Frame.header, hlen, hsome]
  · simp only [Frame.encode, Frame.head, maskBy_maskBy]
    rw [hlen, hhead, ← hraw, Header.size, List.take_add]

/-! ### Decoding -/

/-- The first frame of the bytes and what follows it. -/
def decodeFrame (bs : Bytes) : Option (Frame × Bytes) :=
  match readHeader bs with
  | none => none
  | some h =>
    let key := if h.masked then some (readKey (bs.drop (h.hlen - 4))) else none
    let payload := maskBy key ((bs.drop h.hlen).take h.plen)
    if hf : h.form.Fits payload.length then
      if h.size ≤ bs.length then
        some (⟨h.fin, h.rsv, h.opcode, h.form, key, payload, hf⟩, bs.drop h.size)
      else none
    else none

/-- The frames of a byte stream that is a whole number of frames, at most `n` of them. -/
def decodeUpTo : ℕ → Bytes → Option (List Frame)
  | _, [] => some []
  | 0, _ => none
  | n + 1, bs =>
    match decodeFrame bs with
    | none => none
    | some (f, t) => (decodeUpTo n t).map (f :: ·)

def decode (bs : Bytes) : Option (List Frame) := decodeUpTo bs.length bs

theorem Frame.drop_encode_append (f : Frame) (t : Bytes) :
    (f.encode ++ t).drop f.header.size = t :=
  List.drop_left' f.length_encode

theorem Frame.payload_encode (f : Frame) (t : Bytes) :
    ((f.encode ++ t).drop f.header.hlen).take f.header.plen = maskBy f.key f.payload := by
  rw [Frame.encode, List.append_assoc, List.drop_left' f.length_head]
  exact List.take_left' (length_maskBy ..)

theorem Frame.readKey_encode {f : Frame} {k : Key} (hk : f.key = some k) (t : Bytes) :
    readKey ((f.encode ++ t).drop (f.header.hlen - 4)) = k := by
  have hl : f.header.hlen - 4 ≤ f.head.length := by
    rw [f.length_head]
    omega
  rw [Frame.encode, List.append_assoc, List.drop_append_of_le_length hl, Frame.drop_head hk]
  exact readKey_append k _

theorem decodeFrame_encode (f : Frame) (t : Bytes) : decodeFrame (f.encode ++ t) = some (f, t) := by
  have hkey : (if f.header.masked then
      some (readKey ((f.encode ++ t).drop (f.header.hlen - 4))) else none) = f.key := by
    cases hk : f.key with
    | none => simp [Frame.header, hk]
    | some k =>
      rw [Frame.readKey_encode hk]
      simp [Frame.header, hk]
  have hle : f.header.size ≤ (f.encode ++ t).length := by simp
  simp only [decodeFrame, f.readHeader_encode, hkey, f.payload_encode, maskBy_maskBy,
    f.drop_encode_append, if_pos hle]
  exact dif_pos f.fits

theorem Frame.encode_ne_nil (f : Frame) : f.encode ≠ [] := by
  rw [← List.length_pos_iff, f.length_encode]
  have := f.header.two_le_hlen
  unfold Header.size
  omega

theorem decodeUpTo_encodeAll {n : ℕ} {fs : List Frame} (h : fs.length ≤ n) :
    decodeUpTo n (encodeAll fs) = some fs := by
  induction fs generalizing n with
  | nil => cases n <;> rfl
  | cons f fs ih =>
    obtain ⟨m, rfl⟩ : ∃ m, n = m + 1 := ⟨n - 1, by simp at h; omega⟩
    have hm : fs.length ≤ m := by simpa using h
    have hne : encodeAll (f :: fs) ≠ [] := by
      simp [encodeAll, f.encode_ne_nil]
    have hd : decodeFrame (encodeAll (f :: fs)) = some (f, encodeAll fs) := decodeFrame_encode f _
    cases hc : encodeAll (f :: fs) with
    | nil => exact absurd hc hne
    | cons b bs => simp only [decodeUpTo, ← hc, hd, ih hm, Option.map_some]

/-- Decoding is the inverse of encoding. -/
theorem decode_encodeAll (fs : List Frame) : decode (encodeAll fs) = some fs := by
  refine decodeUpTo_encodeAll ?_
  induction fs with
  | nil => simp
  | cons f fs ih =>
    have := List.length_pos_iff.2 f.encode_ne_nil
    simp only [encodeAll, List.flatMap_cons, List.length_append, List.length_cons] at ih ⊢
    omega

@[simp] theorem encodeAll_append (fs gs : List Frame) :
    encodeAll (fs ++ gs) = encodeAll fs ++ encodeAll gs := by
  simp [encodeAll]

@[simp] theorem encodeAll_cons (f : Frame) (fs : List Frame) :
    encodeAll (f :: fs) = f.encode ++ encodeAll fs := by
  simp [encodeAll]

@[simp] theorem encodeAll_nil : encodeAll [] = [] := rfl

/-! ### Messages -/

def Frame.IsControl (f : Frame) : Prop := 8 ≤ f.opcode.val

instance (f : Frame) : Decidable f.IsControl := inferInstanceAs (Decidable (8 ≤ _))

/-- A message whose last fragment has not come: its first frame and the payload so far. -/
structure Partial where
  lead : Frame
  payload : Bytes

/-- The message that a data frame begins or goes on with. -/
def joined (p : Option Partial) (f : Frame) : Partial :=
  match p with
  | some m => if f.opcode = 0 then ⟨m.lead, m.payload ++ f.payload⟩ else ⟨f, f.payload⟩
  | none => ⟨f, f.payload⟩

/-- The message left open after a frame. -/
def after (p : Option Partial) (f : Frame) : Option Partial :=
  if f.IsControl then p else if f.fin then none else some (joined p f)

/-- What a receiver hands to its user. -/
inductive Delivery
  | data (opcode : Fin 16) (payload : Bytes)
  | control (opcode : Fin 16) (payload : Bytes)
  deriving DecidableEq

def deliver (p : Option Partial) (f : Frame) : List Delivery :=
  if f.IsControl then [.control f.opcode f.payload]
  else if f.fin then [.data (joined p f).lead.opcode (joined p f).payload]
  else []

def pending (p : Option Partial) (fs : List Frame) : Option Partial := fs.foldl after p

/-- The messages and control frames of a sequence, in the order in which they are complete. -/
def deliveries : Option Partial → List Frame → List Delivery
  | _, [] => []
  | p, f :: fs => deliver p f ++ deliveries (after p f) fs

theorem deliveries_append (p : Option Partial) (fs gs : List Frame) :
    deliveries p (fs ++ gs) = deliveries p fs ++ deliveries (pending p fs) gs := by
  induction fs generalizing p with
  | nil => rfl
  | cons f fs ih => simp [deliveries, pending, ih, List.append_assoc]

theorem pending_append (p : Option Partial) (fs gs : List Frame) :
    pending p (fs ++ gs) = pending (pending p fs) gs := List.foldl_append ..

/-- The data messages among the deliveries. -/
def Delivery.message : Delivery → Option (Fin 16 × Bytes)
  | data o p => some (o, p)
  | control _ _ => none

/-! ### What a peer may send -/

/-- A frame without extension bits, masked as its direction asks: a whole control frame of at most
125 bytes, or a data frame of a known kind. -/
structure Frame.Sound (masked : Bool) (f : Frame) : Prop where
  mask : f.key.isSome = masked
  rsv : f.rsv = 0
  control : f.IsControl → f.fin = true ∧ f.opcode.val ≤ 10 ∧ f.payload.length ≤ 125
  data : ¬f.IsControl → f.opcode.val ≤ 2

instance (masked : Bool) (f : Frame) : Decidable (f.Sound masked) :=
  decidable_of_iff (f.key.isSome = masked ∧ f.rsv = 0 ∧
      (f.IsControl → f.fin = true ∧ f.opcode.val ≤ 10 ∧ f.payload.length ≤ 125) ∧
      (¬f.IsControl → f.opcode.val ≤ 2))
    ⟨fun ⟨a, b, c, d⟩ => ⟨a, b, c, d⟩, fun ⟨a, b, c, d⟩ => ⟨a, b, c, d⟩⟩

/-- A data frame continues the open message if and only if there is one, and no message is longer
than `limit`. -/
def Fitting (limit : ℕ) (p : Option Partial) (f : Frame) : Prop :=
  ¬f.IsControl → (f.opcode = 0 ↔ p.isSome) ∧ (joined p f).payload.length ≤ limit

instance (limit : ℕ) (p : Option Partial) (f : Frame) : Decidable (Fitting limit p f) :=
  inferInstanceAs (Decidable (¬_ → _))

/-- The frame sequences of one direction; the last message may be unfinished. -/
def WellFormed (masked : Bool) (limit : ℕ) : Option Partial → List Frame → Prop
  | _, [] => True
  | p, f :: fs => f.Sound masked ∧ Fitting limit p f ∧ WellFormed masked limit (after p f) fs

instance WellFormed.instDecidable (masked : Bool) (limit : ℕ) :
    ∀ p fs, Decidable (WellFormed masked limit p fs)
  | _, [] => inferInstanceAs (Decidable True)
  | p, f :: fs =>
    have := WellFormed.instDecidable masked limit (after p f) fs
    inferInstanceAs (Decidable (_ ∧ _ ∧ _))

theorem wellFormed_append {masked : Bool} {limit : ℕ} {p : Option Partial} {fs gs : List Frame} :
    WellFormed masked limit p (fs ++ gs) ↔
      WellFormed masked limit p fs ∧ WellFormed masked limit (pending p fs) gs := by
  induction fs generalizing p with
  | nil => simp [WellFormed, pending]
  | cons f fs ih => simp [WellFormed, pending, ih, and_assoc]

end Framing
