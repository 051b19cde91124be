import PlacitumNode.Lib.Utf8

/-!
# The validator of UTF-8 sequences (`codec/ngx_http_waf_json.c`)

Writer and reader of JSON strings look at one sequence at a time with `utf8Valid`: the length of
the encoded character at the front of the input, or the length of the ill-formed part that one
U+FFFD stands for.

* `utf8Valid_char`, `utf8Valid_ok`: the validator accepts exactly the encoded characters;
* `utf8Valid_bad`: what it refuses is the maximal subpart.
-/

namespace Codec

open Octets String Utf8

/-- `ngx_http_waf_utf8_encode` -/
def utf8Encode (u : ℕ) : Bytes :=
  if u < 0x80 then [UInt8.ofNat u]
  else if u < 0x800 then [UInt8.ofNat (0xc0 ||| u >>> 6), UInt8.ofNat (0x80 ||| u &&& 0x3f)]
  else if u < 0x10000 then
    [UInt8.ofNat (0xe0 ||| u >>> 12), UInt8.ofNat (0x80 ||| (u >>> 6) &&& 0x3f),
      UInt8.ofNat (0x80 ||| u &&& 0x3f)]
  else
    [UInt8.ofNat (0xf0 ||| u >>> 18), UInt8.ofNat (0x80 ||| (u >>> 12) &&& 0x3f),
      UInt8.ofNat (0x80 ||| (u >>> 6) &&& 0x3f), UInt8.ofNat (0x80 ||| u &&& 0x3f)]

/-- What a lead byte announces: how many bytes follow and the bounds of the first of them. -/
def utf8Lead (c : UInt8) : Option (ℕ × UInt8 × UInt8) :=
  if 0xc2 ≤ c ∧ c ≤ 0xdf then some (1, 0x80, 0xbf)
  else if c = 0xe0 then some (2, 0xa0, 0xbf)
  else if 0xe1 ≤ c ∧ c ≤ 0xef then some (2, 0x80, if c = 0xed then 0x9f else 0xbf)
  else if c = 0xf0 then some (3, 0x90, 0xbf)
  else if 0xf1 ≤ c ∧ c ≤ 0xf3 then some (3, 0x80, 0xbf)
  else if c = 0xf4 then some (3, 0x80, 0x8f)
  else none

/-- The loop over the bytes that follow the lead, of which `i` is the next and `need` are left. -/
def utf8Tail : (need i : ℕ) → (lo hi : UInt8) → Bytes → Except ℕ ℕ
  | 0, i, _, _, _ => .ok i
  | _ + 1, i, _, _, [] => .error i
  | need + 1, i, lo, hi, b :: rest =>
    if b < lo ∨ hi < b then .error i else utf8Tail need (i + 1) 0x80 0xbf rest

/-- `ngx_http_waf_utf8_valid`: the length of the well-formed sequence at the front of the input, or
`bad` as an error. -/
def utf8Valid : Bytes → Except ℕ ℕ
  | [] => .error 0
  | c :: rest =>
    if c < 0x80 then .ok 1
    else match utf8Lead c with
      | some (need, lo, hi) => utf8Tail need 1 lo hi rest
      | none => .error 1

/-! ### The bytes of an encoded character -/

/-- The bytes that may follow a lead byte. -/
def Follows : (need : ℕ) → (lo hi : UInt8) → Bytes → Prop
  | 0, _, _, s => s = []
  | need + 1, lo, hi, s => ∃ b t, s = b :: t ∧ lo ≤ b ∧ b ≤ hi ∧ Follows need 0x80 0xbf t

theorem utf8Lead_toNat (c : UInt8) : utf8Lead c =
    if 0xc2 ≤ c.toNat ∧ c.toNat ≤ 0xdf then some (1, 0x80, 0xbf)
    else if c.toNat = 0xe0 then some (2, 0xa0, 0xbf)
    else if 0xe1 ≤ c.toNat ∧ c.toNat ≤ 0xef then
      some (2, 0x80, if c.toNat = 0xed then 0x9f else 0xbf)
    else if c.toNat = 0xf0 then some (3, 0x90, 0xbf)
    else if 0xf1 ≤ c.toNat ∧ c.toNat ≤ 0xf3 then some (3, 0x80, 0xbf)
    else if c.toNat = 0xf4 then some (3, 0x80, 0x8f)
    else none := by
  simp only [utf8Lead, UInt8.le_iff_toNat_le, ← UInt8.toNat_inj, UInt8.reduceToNat]

theorem toNat_ofNat_lt {n : ℕ} (h : n < 256) : (UInt8.ofNat n).toNat = n := by
  rw [UInt8.toNat_ofNat', Nat.mod_eq_of_lt h]

theorem follows_cons (lo hi : ℕ) {need a : ℕ} {t : Bytes} (hlo : lo ≤ a) (hhi : a ≤ hi) (h256 : hi < 256)
    (h : Follows need 0x80 0xbf t) :
    Follows (need + 1) (UInt8.ofNat lo) (UInt8.ofNat hi) (UInt8.ofNat a :: t) := by
  refine ⟨_, t, rfl, ?_, ?_, h⟩
  · rw [UInt8.le_iff_toNat_le, toNat_ofNat_lt (by omega), toNat_ofNat_lt (by omega)]
    exact hlo
  · rw [UInt8.le_iff_toNat_le, toNat_ofNat_lt (by omega), toNat_ofNat_lt h256]
    exact hhi

/-- A continuation byte. -/
theorem follows_mod {need : ℕ} (n : ℕ) {t : Bytes} (h : Follows need 0x80 0xbf t) :
    Follows (need + 1) 0x80 0xbf (UInt8.ofNat (n % 0x40 + 0x80) :: t) :=
  follows_cons 0x80 0xbf (by omega) (by omega) (by omega) h

theorem le_ofNat {n : ℕ} (h : 0x80 ≤ n) (h' : n < 256) : 0x80 ≤ UInt8.ofNat n := by
  rw [UInt8.le_iff_toNat_le, toNat_ofNat_lt h']
  exact h

/-- Every encoded character beyond ASCII is a lead byte and the bytes it announces. -/
theorem char_follows {c : Char} (hc : 0x80 ≤ c.val.toNat) :
    ∃ b t need lo hi, utf8EncodeChar c = b :: t ∧ 0x80 ≤ b ∧
      utf8Lead b = some (need, lo, hi) ∧ Follows need lo hi t := by
  have hvalid : c.val.toNat < 55296 ∨ 57343 < c.val.toNat ∧ c.val.toNat < 1114112 := c.valid
  unfold utf8EncodeChar
  generalize c.val.toNat = v at hc hvalid
  simp only
  rw [if_neg (by omega)]
  split_ifs with h2 h3
  · have hb : v / 64 % 0x20 + 0xc0 < 256 := by omega
    refine ⟨_, _, 1, 0x80, 0xbf, rfl, le_ofNat (by omega) hb, ?_, follows_mod v rfl⟩
    rw [utf8Lead_toNat, toNat_ofNat_lt hb, if_pos (by omega)]
  · have hb : v / 4096 % 0x10 + 0xe0 < 256 := by omega
    have hlead := utf8Lead_toNat (UInt8.ofNat (v / 4096 % 0x10 + 0xe0))
    rw [toNat_ofNat_lt hb, if_neg (by omega)] at hlead
    -- the first byte that follows is bounded after 0xe0 and after 0xed
    rcases Nat.lt_or_ge v 0x1000 with hlow | hlow
    · rw [if_pos (by omega)] at hlead
      exact ⟨_, _, 2, 0xa0, 0xbf, rfl, le_ofNat (by omega) hb, hlead,
        follows_cons 0xa0 0xbf (by omega) (by omega) (by omega) (follows_mod v rfl)⟩
    · rw [if_neg (by omega), if_pos (by omega)] at hlead
      by_cases hed : v / 4096 % 0x10 + 0xe0 = 0xed
      · rw [if_pos hed] at hlead
        exact ⟨_, _, 2, 0x80, 0x9f, rfl, le_ofNat (by omega) hb, hlead,
          follows_cons 0x80 0x9f (by omega) (by omega) (by omega)
            (follows_mod v rfl)⟩
      · rw [if_neg hed] at hlead
        exact ⟨_, _, 2, 0x80, 0xbf, rfl, le_ofNat (by omega) hb, hlead,
          follows_mod (v / 64) (follows_mod v rfl)⟩
  · have hb : v / 262144 % 0x08 + 0xf0 < 256 := by omega
    have hlead := utf8Lead_toNat (UInt8.ofNat (v / 262144 % 0x08 + 0xf0))
    rw [toNat_ofNat_lt hb, if_neg (by omega), if_neg (by omega), if_neg (by omega)] at hlead
    rcases Nat.lt_or_ge v 0x40000 with hlow | hlow
    · rw [if_pos (by omega)] at hlead
      exact ⟨_, _, 3, 0x90, 0xbf, rfl, le_ofNat (by omega) hb, hlead,
        follows_cons 0x90 0xbf (by omega) (by omega) (by omega)
          (follows_mod (v / 64) (follows_mod v rfl))⟩
    · rw [if_neg (by omega)] at hlead
      rcases Nat.lt_or_ge v 0x100000 with hmid | hmid
      · rw [if_pos (by omega)] at hlead
        exact ⟨_, _, 3, 0x80, 0xbf, rfl, le_ofNat (by omega) hb, hlead,
          follows_mod (v / 4096) (follows_mod (v / 64) (follows_mod v rfl))⟩
      · rw [if_neg (by omega), if_pos (by omega)] at hlead
        exact ⟨_, _, 3, 0x80, 0x8f, rfl, le_ofNat (by omega) hb, hlead,
          follows_cons 0x80 0x8f (by omega) (by omega) (by omega)
            (follows_mod (v / 64) (follows_mod v rfl))⟩

theorem exists_char {v : ℕ} (h : v < 55296 ∨ 57343 < v ∧ v < 1114112) : ∃ c : Char, c.val.toNat = v :=
  ⟨Char.ofNatAux v h, rfl⟩

theorem ofNat_of_toNat {n : ℕ} {b : UInt8} (h : n = b.toNat) : UInt8.ofNat n = b := by
  rw [h]
  exact UInt8.ofNat_toNat

theorem char_two {a x : UInt8} (ha : 0xc2 ≤ a.toNat) (ha' : a.toNat ≤ 0xdf) (hx : 0x80 ≤ x.toNat)
    (hx' : x.toNat ≤ 0xbf) : ∃ c : Char, 0x80 ≤ c.val.toNat ∧ utf8EncodeChar c = [a, x] := by
  obtain ⟨c, hc⟩ := exists_char (v := (a.toNat - 0xc0) * 64 + (x.toNat - 0x80)) (by omega)
  refine ⟨c, by omega, ?_⟩
  simp only [utf8EncodeChar, hc]
  rw [if_neg (by omega), if_pos (by omega), ofNat_of_toNat (b := a) (by omega),
    ofNat_of_toNat (b := x) (by omega)]

theorem char_three {a x y : UInt8} (ha : 0xe0 ≤ a.toNat) (ha' : a.toNat ≤ 0xef)
    (hx : 0x80 ≤ x.toNat) (hx' : x.toNat ≤ 0xbf) (hy : 0x80 ≤ y.toNat) (hy' : y.toNat ≤ 0xbf)
    (hlow : a.toNat = 0xe0 → 0xa0 ≤ x.toNat) (hsur : a.toNat = 0xed → x.toNat ≤ 0x9f) :
    ∃ c : Char, 0x80 ≤ c.val.toNat ∧ utf8EncodeChar c = [a, x, y] := by
  obtain ⟨c, hc⟩ := exists_char
    (v := (a.toNat - 0xe0) * 4096 + (x.toNat - 0x80) * 64 + (y.toNat - 0x80)) (by omega)
  refine ⟨c, by omega, ?_⟩
  simp only [utf8EncodeChar, hc]
  rw [if_neg (by omega), if_neg (by omega), if_pos (by omega), ofNat_of_toNat (b := a) (by omega),
    ofNat_of_toNat (b := x) (by omega), ofNat_of_toNat (b := y) (by omega)]

theorem char_four {a x y z : UInt8} (ha : 0xf0 ≤ a.toNat) (ha' : a.toNat ≤ 0xf4)
    (hx : 0x80 ≤ x.toNat) (hx' : x.toNat ≤ 0xbf) (hy : 0x80 ≤ y.toNat) (hy' : y.toNat ≤ 0xbf)
    (hz : 0x80 ≤ z.toNat) (hz' : z.toNat ≤ 0xbf) (hlow : a.toNat = 0xf0 → 0x90 ≤ x.toNat)
    (hhigh : a.toNat = 0xf4 → x.toNat ≤ 0x8f) :
    ∃ c : Char, 0x80 ≤ c.val.toNat ∧ utf8EncodeChar c = [a, x, y, z] := by
  obtain ⟨c, hc⟩ := exists_char
    (v := (a.toNat - 0xf0) * 262144 + (x.toNat - 0x80) * 4096 + (y.toNat - 0x80) * 64
      + (z.toNat - 0x80)) (by omega)
  refine ⟨c, by omega, ?_⟩
  simp only [utf8EncodeChar, hc]
  rw [if_neg (by omega), if_neg (by omega), if_neg (by omega), ofNat_of_toNat (b := a) (by omega),
    ofNat_of_toNat (b := x) (by omega), ofNat_of_toNat (b := y) (by omega),
    ofNat_of_toNat (b := z) (by omega)]

theorem follows_two {lo hi : UInt8} {t : Bytes} (h : Follows 1 lo hi t) :
    ∃ x, t = [x] ∧ lo.toNat ≤ x.toNat ∧ x.toNat ≤ hi.toNat := by
  obtain ⟨x, _, rfl, hx, hx', rfl⟩ := h
  exact ⟨x, rfl, UInt8.le_iff_toNat_le.1 hx, UInt8.le_iff_toNat_le.1 hx'⟩

theorem follows_three {lo hi : UInt8} {t : Bytes} (h : Follows 2 lo hi t) :
    ∃ x y, t = [x, y] ∧ lo.toNat ≤ x.toNat ∧ x.toNat ≤ hi.toNat ∧ 0x80 ≤ y.toNat ∧
      y.toNat ≤ 0xbf := by
  obtain ⟨x, t, rfl, hx, hx', ht⟩ := h
  obtain ⟨y, rfl, hy, hy'⟩ := follows_two ht
  exact ⟨x, y, rfl, UInt8.le_iff_toNat_le.1 hx, UInt8.le_iff_toNat_le.1 hx', hy, hy'⟩

theorem follows_four {lo hi : UInt8} {t : Bytes} (h : Follows 3 lo hi t) :
    ∃ x y z, t = [x, y, z] ∧ lo.toNat ≤ x.toNat ∧ x.toNat ≤ hi.toNat ∧ 0x80 ≤ y.toNat ∧
      y.toNat ≤ 0xbf ∧ 0x80 ≤ z.toNat ∧ z.toNat ≤ 0xbf := by
  obtain ⟨x, t, rfl, hx, hx', ht⟩ := h
  obtain ⟨y, z, rfl, hy, hy', hz⟩ := follows_three ht
  exact ⟨x, y, z, rfl, UInt8.le_iff_toNat_le.1 hx, UInt8.le_iff_toNat_le.1 hx', hy, hy', hz⟩

/-- The bytes that a lead byte announces complete the encoding of a character. -/
theorem char_of_follows {b : UInt8} {need : ℕ} {lo hi : UInt8} {t : Bytes}
    (hb : utf8Lead b = some (need, lo, hi)) (ht : Follows need lo hi t) :
    ∃ c : Char, 0x80 ≤ c.val.toNat ∧ utf8EncodeChar c = b :: t := by
  rw [utf8Lead_toNat] at hb
  split_ifs at hb with h₁ h₂ h₃ hed h₄ h₅ h₆
  all_goals
    simp only [Option.some.injEq, Prod.mk.injEq] at hb
    obtain ⟨rfl, rfl, rfl⟩ := hb
  · obtain ⟨x, rfl, hx, hx'⟩ := follows_two ht
    exact char_two h₁.1 h₁.2 hx hx'
  · obtain ⟨x, y, rfl, hx, hx', hy, hy'⟩ := follows_three ht
    simp only [UInt8.reduceToNat] at hx hx'
    exact char_three (by omega) (by omega) (by omega) (by omega) hy hy' (by omega) (by omega)
  · obtain ⟨x, y, rfl, hx, hx', hy, hy'⟩ := follows_three ht
    simp only [UInt8.reduceToNat] at hx hx'
    exact char_three (by omega) (by omega) (by omega) (by omega) hy hy' (by omega) (by omega)
  · obtain ⟨x, y, rfl, hx, hx', hy, hy'⟩ := follows_three ht
    simp only [UInt8.reduceToNat] at hx hx'
    exact char_three (by omega) (by omega) (by omega) (by omega) hy hy' (by omega) (by omega)
  · obtain ⟨x, y, z, rfl, hx, hx', hy, hy', hz, hz'⟩ := follows_four ht
    simp only [UInt8.reduceToNat] at hx hx'
    exact char_four (by omega) (by omega) (by omega) (by omega) hy hy' hz hz' (by omega) (by omega)
  · obtain ⟨x, y, z, rfl, hx, hx', hy, hy', hz, hz'⟩ := follows_four ht
    simp only [UInt8.reduceToNat] at hx hx'
    exact char_four (by omega) (by omega) (by omega) (by omega) hy hy' hz hz' (by omega) (by omega)
  · obtain ⟨x, y, z, rfl, hx, hx', hy, hy', hz, hz'⟩ := follows_four ht
    simp only [UInt8.reduceToNat] at hx hx'
    exact char_four (by omega) (by omega) (by omega) (by omega) hy hy' hz hz' (by omega) (by omega)

theorem char_ascii {c : Char} (h : c.val.toNat < 0x80) :
    utf8EncodeChar c = [UInt8.ofNat c.val.toNat] := by
  simp only [utf8EncodeChar]
  rw [if_pos (by omega)]

theorem char_of_byte {b : UInt8} (h : b < 0x80) :
    ∃ c : Char, c.val.toNat = b.toNat ∧ utf8EncodeChar c = [b] := by
  have h : b.toNat < 0x80 := UInt8.lt_iff_toNat_lt.1 h
  obtain ⟨c, hc⟩ := exists_char (v := b.toNat) (by omega)
  exact ⟨c, hc, by rw [char_ascii (by omega), hc, UInt8.ofNat_toNat]⟩

/-! ### The validator -/

/-- The loop accepts the bytes that a lead byte announces. -/
theorem utf8Tail_follows {need : ℕ} {lo hi : UInt8} {t : Bytes} (h : Follows need lo hi t) (i : ℕ)
    (rest : Bytes) : utf8Tail need i lo hi (t ++ rest) = .ok (i + need) ∧ t.length = need := by
  induction need generalizing lo hi t i with
  | zero =>
    cases h
    exact ⟨by simp [utf8Tail], rfl⟩
  | succ need ih =>
    obtain ⟨b, t, rfl, hlo, hhi, ht⟩ := h
    obtain ⟨hrun, hlen⟩ := ih ht (i + 1)
    have hin : ¬(b < lo ∨ hi < b) := by
      rw [not_or]
      exact ⟨UInt8.not_lt.2 hlo, UInt8.not_lt.2 hhi⟩
    rw [List.cons_append, utf8Tail, if_neg hin, hrun, List.length_cons, hlen]
    exact ⟨by rw [Nat.add_assoc, Nat.add_comm 1], rfl⟩

/-- **An encoded character is accepted** whatever follows it. -/
theorem utf8Valid_char (c : Char) (rest : Bytes) :
    utf8Valid (utf8EncodeChar c ++ rest) = .ok (utf8EncodeChar c).length := by
  rcases Nat.lt_or_ge c.val.toNat 0x80 with hc | hc
  · rw [char_ascii hc]
    have hlt : UInt8.ofNat c.val.toNat < 0x80 := by
      rw [UInt8.lt_iff_toNat_lt, toNat_ofNat_lt (by omega)]
      exact hc
    simp only [List.cons_append, utf8Valid, if_pos hlt, List.length_singleton]
  · obtain ⟨b, t, need, lo, hi, henc, hb, hlead, ht⟩ := char_follows hc
    obtain ⟨hrun, hlen⟩ := utf8Tail_follows ht 1 rest
    rw [henc, List.cons_append, utf8Valid, if_neg (UInt8.not_lt.2 hb), hlead, List.length_cons, hlen]
    simp only [hrun, Nat.add_comm]

/-- What the loop makes of its input: the announced bytes, or a part of them that the next byte or
the end of the input cuts off. -/
theorem utf8Tail_cases (need i : ℕ) (lo hi : UInt8) (s : Bytes) (hlo : lo ≤ hi) :
    (∃ t rest, s = t ++ rest ∧ Follows need lo hi t ∧ utf8Tail need i lo hi s = .ok (i + need)) ∨
      ∃ t rest, s = t ++ rest ∧ utf8Tail need i lo hi s = .error (i + t.length) ∧
        t.length < need ∧ (∃ u, Follows need lo hi (t ++ u)) ∧
        ∀ b r, rest = b :: r → ∀ u, ¬Follows need lo hi (t ++ b :: u) := by
  induction need generalizing i lo hi s with
  | zero => exact Or.inl ⟨[], s, rfl, rfl, rfl⟩
  | succ need ih =>
    have hext : ∀ need, ∃ u, Follows need 0x80 0xbf u := by
      intro need
      induction need with
      | zero => exact ⟨[], rfl⟩
      | succ need ih =>
        obtain ⟨u, hu⟩ := ih
        exact ⟨0x80 :: u, 0x80, u, rfl, UInt8.le_refl _, by decide, hu⟩
    obtain ⟨u, hu⟩ := hext need
    cases s with
    | nil =>
      refine Or.inr ⟨[], [], rfl, rfl, Nat.succ_pos _, ⟨lo :: u, lo, u, rfl, UInt8.le_refl _, hlo, hu⟩, ?_⟩
      intro b r h
      cases h
    | cons b s =>
      by_cases hb : b < lo ∨ hi < b
      · refine Or.inr ⟨[], b :: s, rfl, by rw [utf8Tail, if_pos hb]; rfl, Nat.succ_pos _,
          ⟨lo :: u, lo, u, rfl, UInt8.le_refl _, hlo, hu⟩, ?_⟩
        rintro b' r h u ⟨b'', u', h', hl, hh, -⟩
        cases h
        cases h'
        exact hb.elim (UInt8.not_lt.2 hl) (UInt8.not_lt.2 hh)
      · rw [not_or, UInt8.not_lt, UInt8.not_lt] at hb
        rw [utf8Tail, if_neg (by rw [not_or, UInt8.not_lt, UInt8.not_lt]; exact hb)]
        obtain ⟨t, rest, rfl, ht, hrun⟩ | ⟨t, rest, rfl, hrun, hlen, ⟨v, hv⟩, hno⟩ :=
          ih (i + 1) 0x80 0xbf s (by decide)
        · refine Or.inl ⟨b :: t, rest, rfl, ⟨b, t, rfl, hb.1, hb.2, ht⟩, ?_⟩
          rw [hrun, Nat.add_assoc, Nat.add_comm 1]
        · refine Or.inr ⟨b :: t, rest, rfl, ?_, Nat.succ_lt_succ hlen,
            ⟨v, b, t ++ v, rfl, hb.1, hb.2, hv⟩, ?_⟩
          · rw [hrun, List.length_cons, Nat.add_assoc, Nat.add_comm 1]
          · rintro b' r h w ⟨b'', u', h', hl, hh, hf⟩
            cases h'
            exact hno b' r h w hf

theorem utf8Lead_bounds {b : UInt8} {need : ℕ} {lo hi : UInt8}
    (h : utf8Lead b = some (need, lo, hi)) : lo ≤ hi := by
  unfold utf8Lead at h
  split_ifs at h
  all_goals
    cases h
    decide

/-- **What is accepted is an encoded character.** -/
theorem utf8Valid_ok {s : Bytes} {n : ℕ} (h : utf8Valid s = .ok n) :
    ∃ c rest, s = utf8EncodeChar c ++ rest ∧ n = (utf8EncodeChar c).length := by
  cases s with
  | nil => cases h
  | cons b s =>
    rw [utf8Valid] at h
    split_ifs at h with hb
    · cases h
      obtain ⟨c, -, hc⟩ := char_of_byte hb
      exact ⟨c, s, by rw [hc]; rfl, by rw [hc]; rfl⟩
    · split at h
      · next need lo hi hlead =>
        obtain ⟨t, rest, rfl, ht, hrun⟩ | ⟨t, rest, -, hrun, -⟩ :=
          utf8Tail_cases need 1 lo hi s (utf8Lead_bounds hlead)
        · obtain ⟨c, -, hc⟩ := char_of_follows hlead ht
          have hlen := (utf8Tail_follows ht 1 rest).2
          rw [hrun] at h
          cases h
          refine ⟨c, rest, by rw [hc]; rfl, ?_⟩
          rw [hc, List.length_cons, hlen, Nat.add_comm]
        · rw [hrun] at h
          cases h
      · cases h

/-- The first byte of an encoded character. -/
theorem begins_cons {b : UInt8} {p : Bytes} (h : Begins (b :: p)) (hb : ¬b < 0x80) :
    ∃ need lo hi t, utf8Lead b = some (need, lo, hi) ∧ Follows need lo hi t ∧ p <+: t := by
  obtain ⟨c, hc⟩ := h
  rcases Nat.lt_or_ge c.val.toNat 0x80 with hlt | hge
  · rw [char_ascii hlt, List.cons_prefix_cons] at hc
    refine absurd ?_ hb
    rw [hc.1, UInt8.lt_iff_toNat_lt, toNat_ofNat_lt (by omega)]
    exact hlt
  · obtain ⟨b', t, need, lo, hi, henc, -, hlead, ht⟩ := char_follows hge
    rw [henc, List.cons_prefix_cons] at hc
    exact ⟨need, lo, hi, t, hc.1 ▸ hlead, ht, hc.2⟩

/-- **What is refused is the maximal subpart** at the front of the input. -/
theorem utf8Valid_bad {s : Bytes} {bad : ℕ} (hs : s ≠ []) (h : utf8Valid s = .error bad) :
    ∃ p rest, s = p ++ rest ∧ p.length = bad ∧ Subpart p rest := by
  have hill : ∀ c, ¬utf8EncodeChar c <+: s := by
    rintro c ⟨rest, rfl⟩
    rw [utf8Valid_char] at h
    cases h
  cases s with
  | nil => exact absurd rfl hs
  | cons b s =>
    rw [utf8Valid] at h
    split_ifs at h with hb
    split at h
    · next need lo hi hlead =>
      obtain ⟨t, rest, -, -, hrun⟩ | ⟨t, rest, rfl, hrun, hlen, ⟨u, hu⟩, hno⟩ :=
        utf8Tail_cases need 1 lo hi s (utf8Lead_bounds hlead)
      · rw [hrun] at h
        cases h
      · rw [hrun] at h
        cases h
        refine ⟨b :: t, rest, rfl, by rw [List.length_cons, Nat.add_comm], Nat.succ_pos _, hill,
          Or.inr ?_, ?_⟩
        · obtain ⟨c, -, hc⟩ := char_of_follows hlead hu
          exact ⟨c, u, by rw [hc]; rfl⟩
        · -- a longer part would contain the byte at which the loop stopped
          intro q hq hlt hbeg
          obtain ⟨r, hr⟩ := hq
          have hpre : b :: t <+: q := by
            refine List.prefix_of_prefix_length_le (List.prefix_append _ rest) ?_ hlt.le
            exact ⟨r, hr⟩
          obtain ⟨w, rfl⟩ := hpre
          cases w with
          | nil => simp at hlt
          | cons x w =>
            rw [List.append_assoc, List.append_cancel_left_eq] at hr
            obtain ⟨need', lo', hi', t', hlead', ht', hp⟩ :=
              begins_cons (p := t ++ x :: w) hbeg hb
            rw [hlead] at hlead'
            cases hlead'
            obtain ⟨v, rfl⟩ := hp
            rw [List.append_assoc] at ht'
            exact hno x _ hr.symm _ ht'
    · next hlead =>
      cases h
      refine ⟨[b], s, rfl, rfl, Nat.one_pos, hill, Or.inl rfl, ?_⟩
      intro q hq hlt hbeg
      cases q with
      | nil => simp at hlt
      | cons x q =>
        obtain ⟨rfl, -⟩ := List.cons_prefix_cons.1 hq
        obtain ⟨need, lo, hi, t, hlead', -⟩ := begins_cons hbeg hb
        rw [hlead] at hlead'
        cases hlead'

end Codec
