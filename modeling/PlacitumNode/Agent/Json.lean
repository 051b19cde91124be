import PlacitumNode.Lib.Numerals
import PlacitumNode.Lib.Runes
import PlacitumNode.Codec.Document
import PlacitumNode.Codec.RoundTrip

/-!
# `encoding/json` as the agent uses it

What `json.Marshal` and `json.Unmarshal` of the standard library do with the values that the agent
passes through them.  A document is first scanned as a whole; then the literals that were found are
read.  Scanner and reader take ill-formed UTF-8, which is read as U+FFFD.

* `quote`: a string as `json.Marshal` writes it;
* `scanString`, `unquoteChars`: the extent of a string literal and what it stands for;
* `skip`: the extent of a value;
* `readQuoted`: what `quote` writes is scanned whole and read back.
-/

namespace GoJson

open Octets String Utf8 JsonText Codec

/-! ### Writing strings -/

/-- What `appendString` writes for a byte below 0x80. -/
def quoteByte (b : UInt8) : Bytes :=
  if b = 34 ∨ b = 92 then [92, b]
  else if b = 8 then [92, 98]
  else if b = 12 then [92, 102]
  else if b = 10 then [92, 110]
  else if b = 13 then [92, 114]
  else if b = 9 then [92, 116]
  else if b < 0x20 ∨ b = 38 ∨ b = 60 ∨ b = 62 then
    [92, 117, 48, 48, hexDigit (b.toNat / 16), hexDigit (b.toNat % 16)]
  else [b]

/-- What `appendString` writes for a character beyond ASCII. -/
def quoteWide (c : Char) : Bytes :=
  if c = '\u2028' then ascii "\\u2028"
  else if c = '\u2029' then ascii "\\u2029"
  else utf8EncodeChar c

/-- The loop of `appendString`, with `escapeHTML`. -/
def quoteBody : Bytes → Bytes
  | [] => []
  | b :: s =>
    if b < 0x80 then quoteByte b ++ quoteBody s
    else
      (if decodeRune (b :: s) = ('\uFFFD', 1) then ascii "\\ufffd"
        else quoteWide (decodeRune (b :: s)).1) ++
        quoteBody (s.drop ((decodeRune (b :: s)).2 - 1))
termination_by s => s.length
decreasing_by all_goals simp only [List.length_drop, List.length_cons]; omega

/-- `json.Marshal` of a string -/
def quote (s : Bytes) : Bytes := 34 :: (quoteBody s ++ [34])

/-- Elements or members, with a comma between two of them. -/
def commaJoin : List Bytes → Bytes
  | [] => []
  | [x] => x
  | x :: y :: l => x ++ 44 :: commaJoin (y :: l)

/-! ### Reading strings -/

/-- The scanner inside a string literal: the bytes up to the closing quote, and the rest. -/
def scanString : Bytes → Option (Bytes × Bytes)
  | [] => none
  | c :: s =>
    if c = 34 then some ([], s)
    else if c = 92 then
      match s with
      | [] => none
      | e :: s =>
        if e = 117 then
          match s with
          | a :: b :: c :: d :: s =>
            if (hexValue a).isSome ∧ (hexValue b).isSome ∧ (hexValue c).isSome ∧ (hexValue d).isSome then
              (scanString s).map fun r => (92 :: 117 :: a :: b :: c :: d :: r.1, r.2)
            else none
          | _ => none
        else if (escape e).isSome then (scanString s).map fun r => (92 :: e :: r.1, r.2)
        else none
    else if c < 0x20 then none
    else (scanString s).map fun r => (c :: r.1, r.2)

/-- `getu4`, after the scanner has found four digits. -/
def hexRead (ds : Bytes) : ℕ := (ds.take 4).foldl (fun v c => v * 16 + (hexValue c).getD 0) 0

/-- `utf16.DecodeRune` of two code units of which the first is a surrogate. -/
def surrogatePair (hi lo : ℕ) : Option Char :=
  if hi < 0xdc00 ∧ 0xdc00 ≤ lo ∧ lo < 0xe000 then
    some (Char.ofNat ((hi - 0xd800) * 0x400 + (lo - 0xdc00) + 0x10000))
  else none

/-- `unquote`: the characters of a literal that the scanner has accepted. -/
def unquoteChars : Bytes → List Char
  | [] => []
  | c :: s =>
    if c = 92 then
      match s with
      | [] => []
      | e :: s =>
        if e = 117 then
          if 0xd800 ≤ hexRead s ∧ hexRead s < 0xe000 then
            match if (s.drop 4).take 2 = [92, 117] then surrogatePair (hexRead s) (hexRead (s.drop 6))
              else none with
            | some pair => pair :: unquoteChars (s.drop 10)
            | none => '\uFFFD' :: unquoteChars (s.drop 4)
          else Char.ofNat (hexRead s) :: unquoteChars (s.drop 4)
        else Char.ofNat ((escape e).getD 0).toNat :: unquoteChars s
    else (decodeRune (c :: s)).1 :: unquoteChars (s.drop ((decodeRune (c :: s)).2 - 1))
termination_by s => s.length
decreasing_by all_goals simp only [List.length_drop, List.length_cons]; omega

/-- The string that a literal stands for. -/
def unquote (body : Bytes) : Bytes := encode (unquoteChars body)

/-! ### Scanning values -/

/-- `maxNestingDepth` -/
def maxNestingDepth : ℕ := 10000

/-- The name of a member, as a literal, and what follows its colon. -/
def scanName (s : Bytes) : Option (Bytes × Bytes) :=
  match jpByte 34 s with
  | none => none
  | some t =>
    match scanString t with
    | none => none
    | some (body, r) => (jpByte 58 (jpWs r)).map fun v => (body, jpWs v)

/-- The scanner: the rest after a value, or after the elements or members of a container.  White
space and numbers are those of the module's reader. -/
def skip : Sym → ℕ → ℕ → Bytes → Option Bytes
  | _, 0, _, _ => none
  | .value, n + 1, d, s =>
    match s with
    | [] => none
    | c :: t =>
      if c = 34 then (scanString t).map Prod.snd
      else if c = 123 then
        if maxNestingDepth ≤ d then none
        else
          match jpByte 125 (jpWs t) with
          | some r => some r
          | none => skip .members n (d + 1) (jpWs t)
      else if c = 91 then
        if maxNestingDepth ≤ d then none
        else
          match jpByte 93 (jpWs t) with
          | some r => some r
          | none => skip .elements n (d + 1) (jpWs t)
      else if c = 110 then jpLiteral (ascii "null") (c :: t)
      else if c = 116 then jpLiteral (ascii "true") (c :: t)
      else if c = 102 then jpLiteral (ascii "false") (c :: t)
      else (jpNumberSkip (c :: t)).toOption
  | .elements, n + 1, d, s =>
    match skip .value n d s with
    | none => none
    | some r =>
      match jpByte 44 (jpWs r) with
      | some t => skip .elements n d (jpWs t)
      | none => jpByte 93 (jpWs r)
  | .members, n + 1, d, s =>
    match scanName s with
    | none => none
    | some (_, v) =>
      match skip .value n d v with
      | none => none
      | some r =>
        match jpByte 44 (jpWs r) with
        | some t => skip .members n d (jpWs t)
        | none => jpByte 125 (jpWs r)

/-- The members of an object, in the order of the text: names decoded, values as they stand. -/
def readMembers : ℕ → Bytes → Option (List (Bytes × Bytes) × Bytes)
  | 0, _ => none
  | n + 1, s =>
    match scanName s with
    | none => none
    | some (body, v) =>
      match skip .value (v.length + 1) 1 v with
      | none => none
      | some r =>
        match jpByte 44 (jpWs r) with
        | some t =>
          (readMembers n (jpWs t)).map fun p =>
            ((unquote body, v.take (v.length - r.length)) :: p.1, p.2)
        | none =>
          (jpByte 125 (jpWs r)).map fun t => ([(unquote body, v.take (v.length - r.length))], t)

/-- `json.Unmarshal` into `map[string]json.RawMessage`, with all members in their order.  The outer
`none` is the error, the inner one the nil map that `null` leaves. -/
def unmarshalFields (raw : Bytes) : Option (Option (List (Bytes × Bytes))) :=
  match jpByte 123 (jpWs raw) with
  | some t =>
    match (match jpByte 125 (jpWs t) with
      | some r => some ([], r)
      | none => readMembers (jpWs t).length (jpWs t)) with
    | some (ms, r) => if jpWs r = [] then some (some ms) else none
    | none => none
  | none =>
    match jpLiteral (ascii "null") (jpWs raw) with
    | some r => if jpWs r = [] then some none else none
    | none => none

/-! ### What the scanner accepts -/

/-- The inside of a string literal. -/
inductive Body : Bytes → Prop
  | nil : Body []
  | short {e : UInt8} {s : Bytes} : (escape e).isSome → Body s → Body (92 :: e :: s)
  | code {a b c d : UInt8} {s : Bytes} : (hexValue a).isSome → (hexValue b).isSome →
      (hexValue c).isSome → (hexValue d).isSome → Body s → Body (92 :: 117 :: a :: b :: c :: d :: s)
  | byte {c : UInt8} {s : Bytes} : c ≠ 34 → c ≠ 92 → 0x20 ≤ c → Body s → Body (c :: s)

theorem scanString_body {t : Bytes} (h : Body t) (r : Bytes) :
    scanString (t ++ 34 :: r) = some (t, r) := by
  induction h with
  | nil => rw [List.nil_append, scanString.eq_def]; rfl
  | @short e s he _ ih =>
    have hne : e ≠ 117 := by rintro rfl; cases he
    rw [List.cons_append, List.cons_append, scanString.eq_def]
    simp only
    rw [if_neg (by decide), if_pos trivial, if_neg hne, if_pos he, ih]
    rfl
  | code ha hb hc hd _ ih =>
    rw [scanString.eq_def]
    simp only [List.cons_append]
    simp [ha, hb, hc, hd, ih]
  | byte h34 h92 h20 _ ih =>
    rw [List.cons_append, scanString.eq_def]
    simp only
    rw [if_neg h34, if_neg h92, if_neg (UInt8.not_lt.2 h20), ih]
    rfl

theorem body_of_scan {s t r : Bytes} (h : scanString s = some (t, r)) :
    Body t ∧ s = t ++ 34 :: r := by
  induction hn : s.length using Nat.strong_induction_on generalizing s t with
  | _ n ih =>
    subst hn
    cases s with
    | nil => simp [scanString] at h
    | cons c s =>
      rw [scanString.eq_def] at h
      simp only at h
      split_ifs at h with h34 h92 h20
      · cases h
        exact ⟨.nil, by rw [h34]; rfl⟩
      · cases s with
        | nil => cases h
        | cons e s =>
          simp only at h
          split_ifs at h with h117 he
          · split at h
            · next a b c d s =>
              split_ifs at h with hhex
              obtain ⟨⟨t', r'⟩, hs, heq⟩ := Option.map_eq_some_iff.1 h
              cases heq
              obtain ⟨hbody, rfl⟩ := ih _ (by simp only [List.length_cons]; omega) hs rfl
              rw [h92, h117]
              exact ⟨.code hhex.1 hhex.2.1 hhex.2.2.1 hhex.2.2.2 hbody, rfl⟩
            · cases h
          · obtain ⟨⟨t', r'⟩, hs, heq⟩ := Option.map_eq_some_iff.1 h
            cases heq
            obtain ⟨hbody, rfl⟩ := ih _ (by simp only [List.length_cons]; omega) hs rfl
            rw [h92]
            exact ⟨.short he hbody, rfl⟩
      · obtain ⟨⟨t', r'⟩, hs, heq⟩ := Option.map_eq_some_iff.1 h
        cases heq
        obtain ⟨hbody, rfl⟩ := ih _ (by simp only [List.length_cons]; omega) hs rfl
        exact ⟨.byte h34 h92 (UInt8.not_lt.1 h20) hbody, rfl⟩

theorem body_append {s t : Bytes} (hs : Body s) (ht : Body t) : Body (s ++ t) := by
  induction hs with
  | nil => exact ht
  | short he _ ih => exact .short he ih
  | code ha hb hc hd _ ih => exact .code ha hb hc hd ih
  | byte h34 h92 h20 _ ih => exact .byte h34 h92 h20 ih

/-- No byte needs an escape. -/
def Clean (s : Bytes) : Prop := ∀ b ∈ s, b ≠ 34 ∧ b ≠ 92 ∧ 0x20 ≤ b

theorem body_of_clean {s : Bytes} (h : Clean s) : Body s := by
  induction s with
  | nil => exact .nil
  | cons b s ih =>
    obtain ⟨h34, h92, h20⟩ := h b List.mem_cons_self
    exact .byte h34 h92 h20 (ih fun x hx => h x (List.mem_cons_of_mem _ hx))

theorem clean_of_body {s : Bytes} (h : Body s) (h92 : 92 ∉ s) : Clean s := by
  induction h with
  | nil => exact fun b hb => absurd hb List.not_mem_nil
  | short _ _ _ => exact absurd List.mem_cons_self h92
  | code _ _ _ _ _ _ => exact absurd List.mem_cons_self h92
  | byte h34 hne h20 _ ih =>
    rw [List.mem_cons, not_or] at h92
    intro b hb
    rcases List.mem_cons.1 hb with rfl | hb
    · exact ⟨h34, hne, h20⟩
    · exact ih h92.2 b hb

/-! ### What the reader makes of a literal -/

@[simp] theorem unquoteChars_nil : unquoteChars [] = [] := by rw [unquoteChars]

theorem unquoteChars_byte {c : UInt8} (hc : c ≠ 92) (s : Bytes) : unquoteChars (c :: s) =
    (decodeRune (c :: s)).1 :: unquoteChars (s.drop ((decodeRune (c :: s)).2 - 1)) := by
  rw [unquoteChars.eq_def]
  simp only
  rw [if_neg hc]

theorem unquoteChars_short {e : UInt8} (he : e ≠ 117) (s : Bytes) :
    unquoteChars (92 :: e :: s) = Char.ofNat ((escape e).getD 0).toNat :: unquoteChars s := by
  rw [unquoteChars.eq_def]
  simp only
  rw [if_pos trivial, if_neg he]

theorem unquoteChars_code {s : Bytes} (h : ¬(0xd800 ≤ hexRead s ∧ hexRead s < 0xe000)) :
    unquoteChars (92 :: 117 :: s) = Char.ofNat (hexRead s) :: unquoteChars (s.drop 4) := by
  rw [unquoteChars.eq_def]
  simp only
  rw [if_pos trivial, if_pos trivial, if_neg h]

/-- A surrogate with its pair, or alone. -/
theorem unquoteChars_surrogate {s : Bytes} (h : 0xd800 ≤ hexRead s ∧ hexRead s < 0xe000) :
    unquoteChars (92 :: 117 :: s) = '\uFFFD' :: unquoteChars (s.drop 4) ∨
      ∃ c : Char, (s.drop 4).take 2 = [92, 117] ∧ 0x10000 ≤ c.toNat ∧
        unquoteChars (92 :: 117 :: s) = c :: unquoteChars (s.drop 10) := by
  rw [unquoteChars.eq_def]
  simp only
  rw [if_pos trivial, if_pos trivial, if_pos h]
  split_ifs with htwo
  · cases hpair : surrogatePair (hexRead s) (hexRead (s.drop 6)) with
    | none => exact .inl rfl
    | some c =>
      refine .inr ⟨c, htwo, ?_, rfl⟩
      unfold surrogatePair at hpair
      split_ifs at hpair with hlo
      rw [← Option.some.inj hpair]
      have hge : 0x10000 ≤ (hexRead s - 0xd800) * 0x400 + (hexRead (s.drop 6) - 0xdc00) + 0x10000 :=
        Nat.le_add_left _ _
      have hlt : (hexRead s - 0xd800) * 0x400 + (hexRead (s.drop 6) - 0xdc00) + 0x10000 < 0x110000 := by
        omega
      generalize (hexRead s - 0xd800) * 0x400 + (hexRead (s.drop 6) - 0xdc00) + 0x10000 = v at hge hlt
      have hchar : (Char.ofNat v).toNat = v := by
        rw [Char.ofNat, dif_pos (.inr ⟨by omega, hlt⟩)]
        rfl
      rw [hchar]
      exact hge
  · exact .inl rfl

theorem unquoteChars_char {c : Char} (hc : c ≠ '\\') (s : Bytes) :
    unquoteChars (utf8EncodeChar c ++ s) = c :: unquoteChars s := by
  have hpos := length_char_pos c
  have hlen := length_utf8EncodeChar c
  have hdec := decodeRune_char c s
  cases he : utf8EncodeChar c with
  | nil => rw [he] at hpos; exact absurd hpos (Nat.lt_irrefl 0)
  | cons b t =>
    have hb : b ≠ 92 := by
      rintro rfl
      have h92 : utf8EncodeChar '\\' ++ t = utf8EncodeChar c ++ [] := by
        rw [he, List.append_nil]
        rfl
      exact hc (char_of_append_eq h92).1.symm
    rw [he, List.cons_append] at hdec
    rw [he, List.length_cons] at hlen
    rw [List.cons_append, unquoteChars_byte hb, hdec]
    simp only
    rw [← hlen, Nat.add_sub_cancel, List.drop_left]

theorem unquoteChars_ill {b : UInt8} {s : Bytes} (h : IllAt (b :: s)) (hb : b ≠ 92) :
    unquoteChars (b :: s) = '\uFFFD' :: unquoteChars s := by
  rw [unquoteChars_byte hb, decodeRune_ill h]
  rfl

/-- Without escapes a literal is read rune by rune. -/
theorem unquoteChars_plain {s : Bytes} (h : 92 ∉ s) : unquoteChars s = runes s := by
  induction s using rune_induction with
  | nil => simp
  | char c s ih =>
    rw [List.mem_append, not_or] at h
    have hc : c ≠ '\\' := by
      rintro rfl
      exact h.1 List.mem_cons_self
    rw [unquoteChars_char hc, runes_char, ih h.2]
  | ill b s hill ih =>
    rw [List.mem_cons, not_or] at h
    rw [unquoteChars_ill hill (Ne.symm h.1), runes_ill hill, ih h.2]

theorem unquote_clean {cs : List Char} (h : Clean (encode cs)) : unquote (encode cs) = encode cs := by
  have h92 : 92 ∉ encode cs := fun hmem => (h 92 hmem).2.1 rfl
  rw [unquote, unquoteChars_plain h92, runes_encode]

theorem clean_runes {s : Bytes} (h : Clean s) : Clean (encode (runes s)) := by
  induction s using rune_induction with
  | nil => exact fun b hb => absurd hb (by simp)
  | char c s ih =>
    have hrest := ih fun b hb => h b (List.mem_append_right _ hb)
    rw [runes_char, encode_cons]
    intro b hb
    rcases List.mem_append.1 hb with hb | hb
    · exact h b (List.mem_append_left _ hb)
    · exact hrest b hb
  | ill b s hill ih =>
    have hrest := ih fun b hb => h b (List.mem_cons_of_mem _ hb)
    rw [runes_ill hill, encode_cons, ← replacement_eq]
    intro x hx
    rcases List.mem_append.1 hx with hx | hx
    · have hrep : ∀ y ∈ replacement, y ≠ 34 ∧ y ≠ 92 ∧ 0x20 ≤ y := by decide +kernel
      exact hrep x hx
    · exact hrest x hx

theorem clean_unquote {s : Bytes} (hs : Body s) (h92 : 92 ∉ s) : Clean (unquote s) := by
  rw [unquote, unquoteChars_plain h92]
  exact clean_runes (clean_of_body hs h92)

/-! ### What is written is read back -/

theorem quoteByte_cases (b : UInt8) (hb : b < 0x80) :
    (∃ e, quoteByte b = [92, e] ∧ e ≠ 117 ∧ escape e = some b) ∨
      (∃ a c, quoteByte b = 92 :: 117 :: [48, 48, a, c] ∧ (hexValue a).isSome ∧ (hexValue c).isSome ∧
        hexRead [48, 48, a, c] = b.toNat) ∨
      quoteByte b = [b] ∧ b ≠ 34 ∧ b ≠ 92 ∧ 0x20 ≤ b := by
  unfold quoteByte
  split_ifs with h1 h2 h3 h4 h5 h6 h7
  · rcases h1 with rfl | rfl
    · exact .inl ⟨34, rfl, by decide, rfl⟩
    · exact .inl ⟨92, rfl, by decide, rfl⟩
  · exact .inl ⟨98, rfl, by decide, by rw [h2]; rfl⟩
  · exact .inl ⟨102, rfl, by decide, by rw [h3]; rfl⟩
  · exact .inl ⟨110, rfl, by decide, by rw [h4]; rfl⟩
  · exact .inl ⟨114, rfl, by decide, by rw [h5]; rfl⟩
  · exact .inl ⟨116, rfl, by decide, by rw [h6]; rfl⟩
  · have hlt : b.toNat < 128 := UInt8.lt_iff_toNat_lt.1 hb
    have hhigh := hexValue_hexDigit (d := b.toNat / 16) (by omega)
    have hlow := hexValue_hexDigit (d := b.toNat % 16) (by omega)
    have hzero : hexValue 48 = some 0 := rfl
    refine .inr (.inl ⟨_, _, rfl, by rw [hhigh]; rfl, by rw [hlow]; rfl, ?_⟩)
    simp only [hexRead, List.take_succ_cons, List.take_zero, List.foldl_cons, List.foldl_nil, hhigh,
      hlow, hzero, Option.getD_some]
    omega
  · simp only [not_or] at h1 h7
    exact .inr (.inr ⟨rfl, h1.1, h1.2, UInt8.not_lt.1 h7.1⟩)

theorem ofNat_toNat_char {c : Char} {b : UInt8} (h : c.val.toNat = b.toNat) :
    Char.ofNat b.toNat = c := by
  rw [← h]
  exact Char.ofNat_toNat c

theorem body_quoteByte {b : UInt8} (hb : b < 0x80) : Body (quoteByte b) := by
  rcases quoteByte_cases b hb with ⟨e, he, _, hesc⟩ | ⟨a, c, hq, ha, hc, _⟩ | ⟨hq, h34, h92, h20⟩
  · rw [he]
    exact .short (by rw [hesc]; rfl) .nil
  · rw [hq]
    exact .code rfl rfl ha hc .nil
  · rw [hq]
    exact .byte h34 h92 h20 .nil

theorem unquoteChars_quoteByte {c : Char} {b : UInt8} (hb : b < 0x80) (hc : c.val.toNat = b.toNat)
    (henc : utf8EncodeChar c = [b]) (s : Bytes) :
    unquoteChars (quoteByte b ++ s) = c :: unquoteChars s := by
  have hlt : b.toNat < 128 := UInt8.lt_iff_toNat_lt.1 hb
  rcases quoteByte_cases b hb with ⟨e, he, hne, hesc⟩ | ⟨x, y, hq, _, _, hread⟩ | ⟨hq, _, h92, _⟩
  · rw [he, List.cons_append, List.singleton_append, unquoteChars_short hne, hesc, Option.getD_some,
      ofNat_toNat_char hc]
  · have hread' : hexRead ([48, 48, x, y] ++ s) = b.toNat := hread
    rw [hq, List.cons_append, List.cons_append, unquoteChars_code (by rw [hread']; omega), hread',
      ofNat_toNat_char hc]
    rfl
  · have hne : c ≠ '\\' := by
      rintro rfl
      exact h92 (List.singleton_inj.1 henc).symm
    rw [hq, ← henc, unquoteChars_char hne]

theorem body_high {s t : Bytes} (hs : ∀ b ∈ s, 0x80 ≤ b) (ht : Body t) : Body (s ++ t) := by
  induction s with
  | nil => exact ht
  | cons b s ih =>
    have hb := hs b List.mem_cons_self
    refine .byte ?_ ?_ (UInt8.le_trans (by decide : 0x20 ≤ 0x80) hb)
      (ih fun x hx => hs x (List.mem_cons_of_mem _ hx))
    · rintro rfl
      exact absurd hb (by decide)
    · rintro rfl
      exact absurd hb (by decide)

theorem body_quoteWide {c : Char} (hc : 0x80 ≤ c.val.toNat) : Body (quoteWide c) := by
  unfold quoteWide
  split_ifs
  · exact .code rfl rfl rfl rfl .nil
  · exact .code rfl rfl rfl rfl .nil
  · rw [← List.append_nil (utf8EncodeChar c)]
    exact body_high (char_high hc) .nil

theorem unquoteChars_quoteWide {c : Char} (hc : 0x80 ≤ c.val.toNat) (s : Bytes) :
    unquoteChars (quoteWide c ++ s) = c :: unquoteChars s := by
  have hline : ∀ {d : UInt8} {x : Char}, hexRead [50, 48, 50, d] = x.toNat → x.toNat < 0xd800 →
      unquoteChars (92 :: 117 :: 50 :: 48 :: 50 :: d :: s) = x :: unquoteChars s := by
    intro d x hx hlt
    have hread : hexRead (50 :: 48 :: 50 :: d :: s) = x.toNat := hx
    rw [unquoteChars_code (by rw [hread]; omega), hread, Char.ofNat_toNat]
    rfl
  unfold quoteWide
  split_ifs with h1 h2
  · rw [h1]
    exact hline (by decide) (by decide)
  · rw [h2]
    exact hline (by decide) (by decide)
  · refine unquoteChars_char ?_ s
    rintro rfl
    exact absurd hc (by decide)

theorem quoteBody_ascii {b : UInt8} (hb : b < 0x80) (s : Bytes) :
    quoteBody (b :: s) = quoteByte b ++ quoteBody s := by
  rw [quoteBody, if_pos hb]

theorem quoteBody_wide {c : Char} (hc : 0x80 ≤ c.val.toNat) (s : Bytes) :
    quoteBody (utf8EncodeChar c ++ s) = quoteWide c ++ quoteBody s := by
  have hdec := decodeRune_char c s
  have hlen := length_utf8EncodeChar c
  obtain ⟨b, t, need, lo, hi, he, hb, _, _⟩ := char_follows hc
  rw [he, List.cons_append] at hdec
  rw [he, List.length_cons] at hlen
  have hsize : c.utf8Size ≠ 1 := by
    intro h1
    have := Char.utf8Size_eq_one_iff.1 h1
    have hle : c.val.toNat ≤ 0x7f := UInt32.le_iff_toNat_le.1 this
    omega
  have hne : (c, c.utf8Size) ≠ ('\uFFFD', 1) := fun h => hsize (Prod.mk.inj h).2
  rw [he, List.cons_append, quoteBody, if_neg (UInt8.not_lt.2 hb), hdec, if_neg hne]
  simp only
  rw [← hlen, Nat.add_sub_cancel, List.drop_left]

theorem ill_high {b : UInt8} {s : Bytes} (h : IllAt (b :: s)) : 0x80 ≤ b := by
  by_contra hb
  obtain ⟨c, _, henc⟩ := char_of_byte (UInt8.not_le.1 hb)
  exact h c ⟨s, by rw [henc]; rfl⟩

theorem quoteBody_ill {b : UInt8} {s : Bytes} (h : IllAt (b :: s)) :
    quoteBody (b :: s) = ascii "\\ufffd" ++ quoteBody s := by
  rw [quoteBody, if_neg (UInt8.not_lt.2 (ill_high h)), decodeRune_ill h, if_pos rfl]
  rfl

/-- **What `json.Marshal` writes is one literal, and reads as the runes of the string.** -/
theorem readQuoted (s : Bytes) : Body (quoteBody s) ∧ unquoteChars (quoteBody s) = runes s := by
  induction s using rune_induction with
  | nil =>
    rw [quoteBody]
    exact ⟨.nil, by simp⟩
  | char c s ih =>
    rcases Nat.lt_or_ge c.val.toNat 0x80 with hc | hc
    · have hb : UInt8.ofNat c.val.toNat < 0x80 := by
        rw [UInt8.lt_iff_toNat_lt, toNat_ofNat_lt (by omega)]
        exact hc
      have henc := char_ascii hc
      rw [runes_char, henc, List.singleton_append, quoteBody_ascii hb,
        unquoteChars_quoteByte hb (toNat_ofNat_lt (by omega)).symm henc, ih.2]
      exact ⟨body_append (body_quoteByte hb) ih.1, rfl⟩
    · rw [quoteBody_wide hc, unquoteChars_quoteWide hc, runes_char, ih.2]
      exact ⟨body_append (body_quoteWide hc) ih.1, rfl⟩
  | ill b s hill ih =>
    have hread : hexRead (102 :: 102 :: 102 :: 100 :: quoteBody s) = 0xfffd := rfl
    rw [quoteBody_ill hill, runes_ill hill]
    refine ⟨body_append (.code rfl rfl rfl rfl .nil) ih.1, ?_⟩
    change unquoteChars (92 :: 117 :: 102 :: 102 :: 102 :: 100 :: quoteBody s) = _
    rw [unquoteChars_code (by rw [hread]; omega), hread]
    exact congrArg _ ih.2

theorem unquote_quoteBody (s : Bytes) : unquote (quoteBody s) = encode (runes s) := by
  rw [unquote, (readQuoted s).2]

/-! ### What the scanner of values accepts -/

/-- The text is scanned whole, whatever follows that does not continue a number. -/
def Scans (sym : Sym) (d : ℕ) (w : Bytes) : Prop :=
  w ≠ [] ∧ ∀ m, w.length < m → ∀ r, Stop r → skip sym m d (w ++ r) = some r

/-- White space that was skipped once is not there. -/
theorem jpWs_again {t w r : Bytes} (h : jpWs t = w ++ r) (hw : w ≠ []) (r' : Bytes) :
    jpWs (w ++ r') = w ++ r' := by
  cases w with
  | nil => exact absurd rfl hw
  | cons b w =>
    have hidem := jpWs_jpWs t
    rw [h, List.cons_append] at hidem
    refine jpWs_cons (fun hb => ?_) _
    rw [jpWs, List.dropWhile_cons_of_pos hb] at hidem
    have hlen := congrArg List.length hidem
    have hle : ((w ++ r).dropWhile isWs).length ≤ (w ++ r).length := List.length_dropWhile_le _ _
    rw [List.length_cons] at hlen
    omega

theorem scanName_some {s body v : Bytes} (h : scanName s = some (body, v)) :
    ∃ w, s = 34 :: (body ++ 34 :: (w ++ v)) ∧ 58 ∈ w ∧ Body body ∧ jpWs v = v ∧
      ∀ v', jpWs v' = v' → scanName (34 :: (body ++ 34 :: (w ++ v'))) = some (body, v') := by
  unfold scanName at h
  cases h34 : jpByte 34 s with
  | none => rw [h34] at h; cases h
  | some t =>
    rw [h34] at h
    simp only at h
    cases hscan : scanString t with
    | none => rw [hscan] at h; cases h
    | some p =>
      obtain ⟨b, r⟩ := p
      rw [hscan] at h
      obtain ⟨v₀, hcolon, heq⟩ := Option.map_eq_some_iff.1 h
      obtain ⟨rfl, rfl⟩ := Prod.mk.inj heq
      obtain ⟨hbody, rfl⟩ := body_of_scan hscan
      obtain ⟨w₁, hw₁, hws₁⟩ := jpWs_sound r
      obtain ⟨w₂, hw₂, hws₂⟩ := jpWs_sound v₀
      rw [jpByte_eq_some.1 hcolon] at hw₁
      refine ⟨w₁ ++ 58 :: w₂, ?_, by simp, hbody, jpWs_jpWs v₀, fun v' hv' => ?_⟩
      · rw [jpByte_eq_some.1 h34, hw₁, List.append_assoc, List.cons_append, ← hw₂]
      · rw [scanName, jpByte_cons]
        simp only
        rw [scanString_body hbody]
        simp only
        rw [List.append_assoc, List.cons_append, jpWs_mark hws₁ (by decide), jpByte_cons, Option.map_some,
          jpWs_append hws₂, hv']

/-- The rest of a container after one of its parts: the end, or a comma and more. -/
theorem scan_rest {sym : Sym} {n d : ℕ} {close : UInt8} {r out : Bytes}
    (hclose : close = 93 ∨ close = 125)
    (h : (match jpByte 44 (jpWs r) with
      | some t => skip sym n d (jpWs t)
      | none => jpByte close (jpWs r)) = some out)
    (ih : ∀ s r, skip sym n d s = some r → ∃ w, s = w ++ r ∧ Scans sym d w) :
    ∃ w, r = w ++ out ∧ w ≠ [] ∧ (∀ x, Stop (w ++ x)) ∧ ∀ m, w.length ≤ m → ∀ x, Stop x →
      (match jpByte 44 (jpWs (w ++ x)) with
        | some t => skip sym m d (jpWs t)
        | none => jpByte close (jpWs (w ++ x))) = some x := by
  obtain ⟨w₁, hw₁, hws₁⟩ := jpWs_sound r
  cases hcomma : jpByte 44 (jpWs r) with
  | none =>
    rw [hcomma] at h
    have hend := jpByte_eq_some.1 h
    have hne : close ≠ 44 ∧ isWs close = false := by
      rcases hclose with rfl | rfl <;> decide
    refine ⟨w₁ ++ [close], ?_, by simp, fun x => ?_, fun m _ x _ => ?_⟩
    · rw [hw₁, hend, List.append_assoc, List.singleton_append]
    · rw [List.append_assoc, List.singleton_append]
      exact stop_of_ws hws₁ (stop_cons (by tauto) x)
    · rw [List.append_assoc, List.singleton_append, jpWs_mark hws₁ hne.2,
        jpByte_eq_none.2 (by simpa using hne.1), jpByte_cons]
  | some t =>
    rw [hcomma] at h
    obtain ⟨w₂, hw₂, hws₂⟩ := jpWs_sound t
    obtain ⟨w₃, hw₃, hne₃, hscan⟩ := ih _ _ h
    have ht := jpByte_eq_some.1 hcomma
    refine ⟨w₁ ++ 44 :: (w₂ ++ w₃), ?_, by simp, fun x => ?_, fun m hm x hx => ?_⟩
    · rw [hw₁, ht, hw₂, hw₃]
      simp only [List.append_assoc, List.cons_append]
    · rw [List.append_assoc, List.cons_append]
      exact stop_of_ws hws₁ (stop_cons (.inl rfl) _)
    · simp only [List.length_append, List.length_cons] at hm
      rw [List.append_assoc, List.cons_append, jpWs_mark hws₁ (by decide), jpByte_cons]
      simp only
      rw [List.append_assoc, jpWs_append hws₂, jpWs_again hw₃ hne₃]
      exact hscan m (by omega) x hx

/-- A container after its opening bracket. -/
theorem scan_container {sym : Sym} {n d : ℕ} {close : UInt8} {t r : Bytes}
    (h : (match jpByte close (jpWs t) with
      | some r => some r
      | none => skip sym n d (jpWs t)) = some r)
    (hclose : isWs close = false)
    (ih : ∀ s r, skip sym n d s = some r → ∃ w, s = w ++ r ∧ Scans sym d w) :
    ∃ w, t = w ++ r ∧ ∀ m, w.length < m → ∀ x, Stop x →
      (match jpByte close (jpWs (w ++ x)) with
        | some r => some r
        | none => skip sym m d (jpWs (w ++ x))) = some x := by
  obtain ⟨w₁, hw₁, hws₁⟩ := jpWs_sound t
  cases hend : jpByte close (jpWs t) with
  | some r' =>
    rw [hend] at h
    cases h
    have ht := jpByte_eq_some.1 hend
    refine ⟨w₁ ++ [close], ?_, fun m _ x _ => ?_⟩
    · rw [hw₁, ht, List.append_assoc, List.singleton_append]
    · rw [List.append_assoc, List.singleton_append, jpWs_mark hws₁ hclose, jpByte_cons]
  | none =>
    rw [hend] at h
    obtain ⟨w₂, hw₂, hne₂, hscan⟩ := ih _ _ h
    refine ⟨w₁ ++ w₂, by rw [hw₁, hw₂, List.append_assoc], fun m hm x hx => ?_⟩
    rw [List.length_append] at hm
    rw [List.append_assoc, jpWs_append hws₁, jpWs_again hw₂ hne₂]
    have hno : jpByte close (w₂ ++ x) = none := by
      rw [hw₂] at hend
      rw [jpByte_eq_none] at hend ⊢
      cases w₂ with
      | nil => exact absurd rfl hne₂
      | cons b w => exact hend
    rw [hno]
    exact hscan m (by omega) x hx

theorem number_ne_nil {n : Bytes} (h : Number n) : n ≠ [] := by
  obtain ⟨c, t, rfl, _⟩ := number_head h
  exact List.cons_ne_nil c t

/-- A literal word is its own extent. -/
theorem scan_literal {lit t r : Bytes} {c : UInt8} (h : jpLiteral lit (c :: t) = some r)
    (hlit : ∃ u, lit = c :: u) : ∃ u, c :: t = (c :: u) ++ r ∧
      ∀ x, jpLiteral lit (c :: (u ++ x)) = some x := by
  obtain ⟨u, rfl⟩ := hlit
  exact ⟨u, jpLiteral_eq_some.1 h, fun x => jpLiteral_eq_some.2 rfl⟩

/-- The extents of what is skipped within `n` turns do not depend on what follows. -/
def Extents (n : ℕ) : Prop :=
  ∀ (sym : Sym) (d : ℕ) (s r : Bytes), skip sym n d s = some r → ∃ w, s = w ++ r ∧ Scans sym d w

/-- A text that is longer than another is read in at least one turn more. -/
theorem turns_succ {m k : ℕ} (h : k < m) : ∃ m', m = m' + 1 ∧ k ≤ m' := ⟨m - 1, by omega, by omega⟩

theorem elements_scans {n d : ℕ} {s r : Bytes} (ih : Extents n)
    (h : skip .elements (n + 1) d s = some r) : ∃ w, s = w ++ r ∧ Scans .elements d w := by
  rw [skip] at h
  cases hv : skip .value n d s with
  | none => rw [hv] at h; cases h
  | some r₁ =>
    rw [hv] at h
    obtain ⟨v, rfl, hne, hscan⟩ := ih _ _ _ _ hv
    obtain ⟨w, rfl, hw, hstop, hrest⟩ := scan_rest (.inl rfl) h (ih .elements d)
    refine ⟨v ++ w, by rw [List.append_assoc], by simp [hne], fun m hm x hx => ?_⟩
    obtain ⟨m, rfl, hle⟩ := turns_succ hm
    rw [List.length_append] at hle
    have hpos := List.length_pos_iff.2 hw
    rw [List.append_assoc, skip, hscan m (by omega) _ (hstop x)]
    exact hrest m (by omega) x hx

theorem members_scans {n d : ℕ} {s r : Bytes} (ih : Extents n)
    (h : skip .members (n + 1) d s = some r) : ∃ w, s = w ++ r ∧ Scans .members d w := by
  rw [skip] at h
  cases hname : scanName s with
  | none => rw [hname] at h; cases h
  | some p =>
    obtain ⟨body, v₀⟩ := p
    rw [hname] at h
    simp only at h
    obtain ⟨u, rfl, _, _, hws, hagain⟩ := scanName_some hname
    cases hv : skip .value n d v₀ with
    | none => rw [hv] at h; cases h
    | some r₁ =>
      rw [hv] at h
      obtain ⟨v, rfl, hne, hscan⟩ := ih _ _ _ _ hv
      obtain ⟨w, rfl, hw, hstop, hrest⟩ := scan_rest (.inr rfl) h (ih .members d)
      refine ⟨34 :: (body ++ 34 :: (u ++ (v ++ w))), ?_, by simp, fun m hm x hx => ?_⟩
      · simp only [List.append_assoc, List.cons_append]
      · obtain ⟨m, rfl, hle⟩ := turns_succ hm
        simp only [List.length_append, List.length_cons] at hle
        have hpos := List.length_pos_iff.2 hw
        have hname' := hagain (v ++ (w ++ x)) (jpWs_again hws hne _)
        simp only [List.append_assoc, List.cons_append]
        rw [skip, hname']
        simp only
        rw [hscan m (by omega) _ (hstop x)]
        exact hrest m (by omega) x hx

/-- A value of which the first byte stays. -/
theorem scans_cons {d : ℕ} {c : UInt8} {u : Bytes}
    (h : ∀ m, u.length < m → ∀ x, Stop x → skip .value (m + 1) d (c :: (u ++ x)) = some x) :
    Scans .value d (c :: u) := by
  refine ⟨List.cons_ne_nil _ _, fun m hm x hx => ?_⟩
  obtain ⟨m, rfl, hle⟩ := turns_succ hm
  rw [List.length_cons] at hle
  exact h m (by omega) x hx

theorem value_scans {n d : ℕ} {s r : Bytes} (ih : Extents n)
    (h : skip .value (n + 1) d s = some r) : ∃ w, s = w ++ r ∧ Scans .value d w := by
  cases s with
  | nil => cases h
  | cons c t =>
    rw [skip] at h
    -- The first byte decides what the value is.
    split_ifs at h with h34 h123 hdeep h91 hdeep' h110 h116 h102
    · obtain ⟨⟨body, r'⟩, hscan, heq⟩ := Option.map_eq_some_iff.1 h
      obtain rfl : r' = r := heq
      obtain ⟨hbody, rfl⟩ := body_of_scan hscan
      refine ⟨c :: (body ++ [34]), by simp, scans_cons fun m _ x _ => ?_⟩
      rw [skip, if_pos h34, List.append_assoc, List.singleton_append, scanString_body hbody]
      rfl
    · obtain ⟨w, rfl, hw⟩ := scan_container h (by decide) (ih .members (d + 1))
      refine ⟨c :: w, rfl, scans_cons fun m hm x hx => ?_⟩
      rw [skip, if_neg h34, if_pos h123, if_neg hdeep]
      exact hw m hm x hx
    · obtain ⟨w, rfl, hw⟩ := scan_container h (by decide) (ih .elements (d + 1))
      refine ⟨c :: w, rfl, scans_cons fun m hm x hx => ?_⟩
      rw [skip, if_neg h34, if_neg h123, if_pos h91, if_neg hdeep']
      exact hw m hm x hx
    · obtain ⟨u, hu, hagain⟩ := scan_literal h ⟨_, by rw [h110]; rfl⟩
      refine ⟨c :: u, hu, scans_cons fun m _ x _ => ?_⟩
      rw [skip, if_neg h34, if_neg h123, if_neg h91, if_pos h110, hagain]
    · obtain ⟨u, hu, hagain⟩ := scan_literal h ⟨_, by rw [h116]; rfl⟩
      refine ⟨c :: u, hu, scans_cons fun m _ x _ => ?_⟩
      rw [skip, if_neg h34, if_neg h123, if_neg h91, if_neg h110, if_pos h116, hagain]
    · obtain ⟨u, hu, hagain⟩ := scan_literal h ⟨_, by rw [h102]; rfl⟩
      refine ⟨c :: u, hu, scans_cons fun m _ x _ => ?_⟩
      rw [skip, if_neg h34, if_neg h123, if_neg h91, if_neg h110, if_neg h116, if_pos h102, hagain]
    · cases hnum : jpNumberSkip (c :: t) with
      | error e => rw [hnum] at h; cases h
      | ok r' =>
        rw [hnum] at h
        cases h
        obtain ⟨w, hw, hn⟩ := jpNumberSkip_sound hnum
        cases w with
        | nil => exact absurd rfl (number_ne_nil hn)
        | cons b u =>
          obtain ⟨rfl, rfl⟩ := List.cons.inj hw
          refine ⟨c :: u, rfl, scans_cons fun m _ x hx => ?_⟩
          have hagain := jpNumberSkip_complete hn hx
          rw [List.cons_append] at hagain
          rw [skip, if_neg h34, if_neg h123, if_neg h91, if_neg h110, if_neg h116, if_neg h102, hagain]
          rfl

/-- **The extent of a value does not depend on what follows it.** -/
theorem skip_scans (n : ℕ) : Extents n := by
  induction n with
  | zero => intro sym d s r h; cases sym <;> cases h
  | succ n ih =>
    intro sym d s r h
    cases sym with
    | elements => exact elements_scans ih h
    | members => exact members_scans ih h
    | value => exact value_scans ih h

/-! ### ASCII bytes are not made up -/

def asciiCount (s : Bytes) : ℕ := s.countP (· < 0x80)

@[simp] theorem asciiCount_append (s t : Bytes) : asciiCount (s ++ t) = asciiCount s + asciiCount t :=
  List.countP_append

theorem asciiCount_cons_low {b : UInt8} (hb : b < 0x80) (s : Bytes) :
    asciiCount (b :: s) = asciiCount s + 1 :=
  List.countP_cons_of_pos (by simpa using hb)

theorem asciiCount_cons_high {b : UInt8} (hb : 0x80 ≤ b) (s : Bytes) :
    asciiCount (b :: s) = asciiCount s :=
  List.countP_cons_of_neg (by simpa using hb)

theorem asciiCount_le_cons (b : UInt8) (s : Bytes) :
    asciiCount s ≤ asciiCount (b :: s) ∧ asciiCount (b :: s) ≤ asciiCount s + 1 := by
  rcases UInt8.lt_or_le b 0x80 with hb | hb
  · rw [asciiCount_cons_low hb]
    omega
  · rw [asciiCount_cons_high hb]
    omega

theorem asciiCount_high {s : Bytes} (h : ∀ b ∈ s, 0x80 ≤ b) : asciiCount s = 0 :=
  List.countP_eq_zero.2 fun b hb => by simpa using h b hb

theorem asciiCount_char_le (c : Char) : asciiCount (utf8EncodeChar c) ≤ 1 := by
  rcases Nat.lt_or_ge c.val.toNat 0x80 with hc | hc
  · rw [char_ascii hc]
    exact (asciiCount_le_cons _ []).2
  · rw [asciiCount_high (char_high hc)]
    exact Nat.zero_le 1

theorem hex_low {c : UInt8} (h : (hexValue c).isSome) : c < 0x80 := by
  obtain ⟨d, hd⟩ := Option.isSome_iff_exists.1 h
  have hhex := (hexValue_isSome c).1 ⟨d, hd⟩
  simp only [Hex, UInt8.le_iff_toNat_le, UInt8.reduceToNat] at hhex
  rw [UInt8.lt_iff_toNat_lt]
  simp only [UInt8.reduceToNat]
  omega

theorem escape_low {e : UInt8} (h : (escape e).isSome) : e < 0x80 := by
  obtain ⟨b, hb⟩ := Option.isSome_iff_exists.1 h
  have hmem := (escape_isSome e).1 ⟨b, hb⟩
  have hall : ∀ x ∈ ([34, 92, 47, 98, 102, 110, 114, 116] : Bytes), x < 0x80 := by decide +kernel
  exact hall e hmem

theorem body_of_high {u s : Bytes} (hu : ∀ b ∈ u, 0x80 ≤ b) (h : Body (u ++ s)) : Body s := by
  induction u with
  | nil => exact h
  | cons b u ih =>
    have hb := hu b List.mem_cons_self
    refine ih (fun x hx => hu x (List.mem_cons_of_mem _ hx)) ?_
    rw [List.cons_append] at h
    generalize u ++ s = t at h ⊢
    cases h with
    | short _ _ => exact absurd hb (by decide)
    | code _ _ _ _ _ => exact absurd hb (by decide)
    | byte _ _ _ h => exact h

theorem asciiCount_encode_cons (c : Char) (cs : List Char) :
    asciiCount (encode (c :: cs)) = asciiCount (utf8EncodeChar c) + asciiCount (encode cs) :=
  asciiCount_append _ _

/-- An escape by number inside a literal. -/
theorem body_escape {s : Bytes} (h : Body s) (htwo : s.take 2 = [92, 117]) :
    6 ≤ s.length ∧ Body (s.drop 6) ∧
      asciiCount s = asciiCount (s.drop 6) + 6 := by
  cases h with
  | nil => cases htwo
  | @short e s he _ =>
    obtain rfl : e = 117 := by simpa using htwo
    cases he
  | @code a b c d s ha hb hc hd hs =>
    refine ⟨by simp, hs, ?_⟩
    rw [asciiCount_cons_low (by decide), asciiCount_cons_low (by decide),
      asciiCount_cons_low (hex_low ha), asciiCount_cons_low (hex_low hb),
      asciiCount_cons_low (hex_low hc), asciiCount_cons_low (hex_low hd)]
    rfl
  | @byte b s _ h92 _ _ =>
    cases s <;> simp [h92] at htwo

/-- **An escape costs more bytes than it stands for**: reading a literal makes up no ASCII, and
keeps its ASCII only if there is no escape. -/
theorem count_unquote {t : Bytes} (h : Body t) : asciiCount (unquote t) ≤ asciiCount t ∧
    (asciiCount (unquote t) = asciiCount t → 92 ∉ t) := by
  unfold unquote
  induction hn : t.length using Nat.strong_induction_on generalizing t with
  | _ n ih =>
    subst hn
    cases h with
    | nil => simp [asciiCount]
    -- Escapes: two bytes or more of ASCII become one character, so that the count falls.
    | @short e s he hs =>
      have hne : e ≠ 117 := by rintro rfl; cases he
      have hrest := (ih _ (by simp only [List.length_cons]; omega) hs rfl).1
      have hchar := asciiCount_char_le (Char.ofNat ((escape e).getD 0).toNat)
      rw [unquoteChars_short hne, asciiCount_encode_cons, asciiCount_cons_low (by decide),
        asciiCount_cons_low (escape_low he)]
      refine ⟨by omega, fun heq => by omega⟩
    | @code a b c d s ha hb hc hd hs =>
      have hcount : asciiCount (92 :: 117 :: a :: b :: c :: d :: s) = asciiCount s + 6 := by
        rw [asciiCount_cons_low (by decide), asciiCount_cons_low (by decide),
          asciiCount_cons_low (hex_low ha), asciiCount_cons_low (hex_low hb),
          asciiCount_cons_low (hex_low hc), asciiCount_cons_low (hex_low hd)]
      have hrest := (ih _ (by simp only [List.length_cons]; omega) hs rfl).1
      have hone : ∀ x : Char, asciiCount (encode (x :: unquoteChars s)) ≤ asciiCount s + 1 := by
        intro x
        have hchar := asciiCount_char_le x
        rw [asciiCount_encode_cons]
        omega
      rw [hcount]
      by_cases hsur : 0xd800 ≤ hexRead (a :: b :: c :: d :: s) ∧ hexRead (a :: b :: c :: d :: s) < 0xe000
      · rcases unquoteChars_surrogate hsur with heq | ⟨x, htwo, _, heq⟩
        · rw [heq]
          have := hone '\uFFFD'
          exact ⟨le_trans this (by omega), fun h => by
            change asciiCount (encode ('\uFFFD' :: unquoteChars s)) = _ at h
            omega⟩
        · -- the pair is an escape of its own
          rw [heq]
          change s.take 2 = [92, 117] at htwo
          change asciiCount (encode (x :: unquoteChars (s.drop 6))) ≤ _ ∧
            (asciiCount (encode (x :: unquoteChars (s.drop 6))) = _ → _)
          have hchar := asciiCount_char_le x
          obtain ⟨hlen, hdrop, hcount'⟩ := body_escape hs htwo
          have hrest' := (ih _ (by simp only [List.length_cons, List.length_drop]; omega) hdrop rfl).1
          rw [asciiCount_encode_cons]
          exact ⟨by omega, fun h => by omega⟩
      · rw [unquoteChars_code hsur]
        have := hone (Char.ofNat (hexRead (a :: b :: c :: d :: s)))
        exact ⟨le_trans this (by omega), fun h => by
          change asciiCount (encode (_ :: unquoteChars s)) = _ at h
          omega⟩
    -- Other bytes: a byte that begins no character is replaced, and a character is taken whole.
    | @byte b s h34 h92 h20 hs =>
      by_cases hill : IllAt (b :: s)
      · have hrest := ih _ (by simp only [List.length_cons]; omega) hs rfl
        have hrep : asciiCount (utf8EncodeChar '\uFFFD') = 0 := by decide
        rw [unquoteChars_ill hill h92, asciiCount_encode_cons, hrep, asciiCount_cons_high (ill_high hill),
          Nat.zero_add, List.mem_cons, not_or]
        exact ⟨hrest.1, fun heq => ⟨Ne.symm h92, hrest.2 heq⟩⟩
      · obtain ⟨c, u, hu⟩ : ∃ c u, utf8EncodeChar c ++ u = b :: s := by
          unfold IllAt at hill
          push Not at hill
          exact hill
        have hc : c ≠ '\\' := by
          rintro rfl
          exact h92 (List.cons.inj hu).1.symm
        have h92c : 92 ∉ utf8EncodeChar c := by
          rcases Nat.lt_or_ge c.val.toNat 0x80 with hlow | hhigh
          · rw [char_ascii hlow, List.singleton_append] at hu
            rw [char_ascii hlow, (List.cons.inj hu).1, List.mem_singleton]
            exact Ne.symm h92
          · exact fun hmem => absurd (char_high hhigh 92 hmem) (by decide)
        have hbody : Body u := by
          rcases Nat.lt_or_ge c.val.toNat 0x80 with hlow | hhigh
          · rw [char_ascii hlow, List.singleton_append] at hu
            rw [(List.cons.inj hu).2]
            exact hs
          · refine body_of_high (char_high hhigh) ?_
            rw [hu]
            exact .byte h34 h92 h20 hs
        have hpos := length_char_pos c
        have hlen := congrArg List.length hu
        rw [List.length_append] at hlen
        have hrest := ih _ (by omega) hbody rfl
        rw [← hu, unquoteChars_char hc, asciiCount_encode_cons, asciiCount_append, List.mem_append, not_or]
        exact ⟨by omega, fun heq => ⟨h92c, hrest.2 (by omega)⟩⟩

/-! ### Objects -/

/-- A value as `json.RawMessage` holds it. -/
def Raw (v : Bytes) : Prop := Scans .value 1 v ∧ ∀ x, jpWs (v ++ x) = v ++ x

theorem asciiCount_jpWs_le (s : Bytes) : asciiCount (jpWs s) ≤ asciiCount s :=
  (List.dropWhile_suffix isWs).sublist.countP_le

theorem asciiCount_pos {b : UInt8} {s : Bytes} (h : b ∈ s) (hb : b < 0x80) : 1 ≤ asciiCount s :=
  List.countP_pos_iff.2 ⟨b, h, by simpa using hb⟩

/-- A member that was read: its bytes are those of its literal, its value and four marks. -/
theorem readMembers_sound {n : ℕ} {s r : Bytes} {ms : List (Bytes × Bytes)}
    (h : readMembers n s = some (ms, r)) : ∃ bodies : List Bytes, ms.map Prod.fst = bodies.map unquote ∧
      (∀ b ∈ bodies, Body b) ∧ (∀ m ∈ ms, Raw m.2) ∧
      asciiCount r + (bodies.map asciiCount).sum + (ms.map fun m => asciiCount m.2).sum +
        4 * ms.length ≤ asciiCount s := by
  induction n generalizing s ms with
  | zero => cases h
  | succ n ih =>
    rw [readMembers] at h
    cases hname : scanName s with
    | none => rw [hname] at h; cases h
    | some p =>
      obtain ⟨body, v⟩ := p
      rw [hname] at h
      simp only at h
      obtain ⟨w, rfl, hcolon, hbody, hws, _⟩ := scanName_some hname
      cases hv : skip .value (v.length + 1) 1 v with
      | none => rw [hv] at h; cases h
      | some r₁ =>
        rw [hv] at h
        obtain ⟨val, rfl, hscan⟩ := skip_scans _ _ _ _ _ hv
        have htake : (val ++ r₁).take ((val ++ r₁).length - r₁.length) = val := by
          rw [List.length_append, Nat.add_sub_cancel, List.take_left]
        have hraw : Raw val := ⟨hscan, jpWs_again hws hscan.1⟩
        have hcolon' := asciiCount_pos hcolon (by decide)
        have hcount : asciiCount (34 :: (body ++ 34 :: (w ++ (val ++ r₁)))) =
            asciiCount body + asciiCount w + asciiCount val + asciiCount r₁ + 2 := by
          rw [asciiCount_cons_low (by decide), asciiCount_append, asciiCount_cons_low (by decide),
            asciiCount_append, asciiCount_append]
          omega
        have hrest := asciiCount_jpWs_le r₁
        simp only [htake] at h
        cases hcomma : jpByte 44 (jpWs r₁) with
        | some t =>
          rw [hcomma] at h
          obtain ⟨⟨ms', r'⟩, hms, heq⟩ := Option.map_eq_some_iff.1 h
          obtain ⟨rfl, rfl⟩ := Prod.mk.inj heq
          obtain ⟨bodies, hnames, hbodies, hraws, hle⟩ := ih hms
          rw [jpByte_eq_some.1 hcomma, asciiCount_cons_low (by decide)] at hrest
          have ht := asciiCount_jpWs_le t
          refine ⟨body :: bodies, by simp [hnames], List.forall_mem_cons.2 ⟨hbody, hbodies⟩,
            List.forall_mem_cons.2 ⟨hraw, hraws⟩, ?_⟩
          rw [hcount]
          simp only [List.map_cons, List.sum_cons, List.length_cons] at hle ⊢
          omega
        | none =>
          rw [hcomma] at h
          obtain ⟨t, ht, heq⟩ := Option.map_eq_some_iff.1 h
          obtain ⟨rfl, rfl⟩ := Prod.mk.inj heq
          rw [jpByte_eq_some.1 ht, asciiCount_cons_low (by decide)] at hrest
          refine ⟨[body], rfl, List.forall_mem_singleton.2 hbody, List.forall_mem_singleton.2 hraw, ?_⟩
          rw [hcount]
          simp only [List.map_cons, List.map_nil, List.sum_cons, List.sum_nil, List.length_cons,
            List.length_nil]
          omega

/-- A member whose name is written as it stands. -/
def memberText (m : Bytes × Bytes) : Bytes := 34 :: (m.1 ++ 34 :: 58 :: m.2)

/-- What is read of a member whose name needs no escape. -/
def Readable (m : Bytes × Bytes) : Prop := Body m.1 ∧ unquote m.1 = m.1 ∧ Raw m.2

theorem read_member {m : Bytes × Bytes} (h : Readable m) {x : Bytes} (hx : Stop x) :
    ∃ v, scanName (memberText m ++ x) = some (m.1, v) ∧ skip .value (v.length + 1) 1 v = some x ∧
      v.take (v.length - x.length) = m.2 := by
  obtain ⟨hbody, _, hscan, hws⟩ := h
  refine ⟨m.2 ++ x, ?_, ?_, ?_⟩
  · rw [memberText, List.cons_append, List.append_assoc, List.cons_append, List.cons_append, scanName,
      jpByte_cons]
    simp only
    rw [scanString_body hbody]
    simp only
    rw [jpWs_cons (by decide), jpByte_cons, Option.map_some, hws]
  · exact hscan.2 _ (by rw [List.length_append]; omega) x hx
  · rw [List.length_append, Nat.add_sub_cancel, List.take_left]

/-- **Members written with plain names are read back.** -/
theorem readMembers_join {ms : List (Bytes × Bytes)} (hne : ms ≠ []) (h : ∀ m ∈ ms, Readable m) (n : ℕ)
    (hn : ms.length ≤ n) (r : Bytes) :
    readMembers n (commaJoin (ms.map memberText) ++ 125 :: r) = some (ms, r) := by
  induction ms generalizing n with
  | nil => exact absurd rfl hne
  | cons m ms ih =>
    obtain ⟨n, rfl⟩ : ∃ k, n = k + 1 := ⟨n - 1, by rw [List.length_cons] at hn; omega⟩
    have hm := h m List.mem_cons_self
    cases ms with
    | nil =>
      obtain ⟨v, hname, hskip, htake⟩ := read_member hm (stop_cons (.inr (.inr rfl)) r)
      have hws : jpWs (125 :: r) = 125 :: r := jpWs_cons (by decide) r
      have hno : jpByte 44 (125 :: r) = none := jpByte_eq_none.2 (by simp)
      rw [List.map_cons, List.map_nil, commaJoin, readMembers, hname]
      simp only
      rw [hskip]
      simp only
      rw [hws, hno, jpByte_cons, htake, hm.2.1]
      rfl
    | cons m' ms' =>
      obtain ⟨v, hname, hskip, htake⟩ := read_member hm
        (stop_cons (.inl rfl) (commaJoin ((m' :: ms').map memberText) ++ 125 :: r))
      have hrest := ih (by simp) (fun x hx => h x (List.mem_cons_of_mem _ hx)) n
        (by rw [List.length_cons] at hn; omega)
      have hws : ∀ u, jpWs (44 :: u) = 44 :: u := fun u => jpWs_cons (by decide) u
      have hws' : jpWs (commaJoin ((m' :: ms').map memberText) ++ 125 :: r) =
          commaJoin ((m' :: ms').map memberText) ++ 125 :: r := by
        cases ms' with
        | nil => exact jpWs_cons (by decide) _
        | cons y ys => exact jpWs_cons (by decide) _
      rw [List.map_cons, List.map_cons, commaJoin, ← List.map_cons, List.append_assoc, List.cons_append,
        readMembers, hname]
      simp only
      rw [hskip]
      simp only
      rw [hws, jpByte_cons]
      simp only
      rw [hws', hrest, htake, hm.2.1]
      rfl

/-- Every object that was written with plain names is read back. -/
theorem unmarshal_object {ms : List (Bytes × Bytes)} (h : ∀ m ∈ ms, Readable m) :
    unmarshalFields (123 :: (commaJoin (ms.map memberText) ++ [125])) = some (some ms) := by
  rw [unmarshalFields, jpWs_cons (by decide), jpByte_cons]
  simp only
  cases ms with
  | nil =>
    rw [List.map_nil, commaJoin, List.nil_append, jpWs_cons (by decide), jpByte_cons]
    rfl
  | cons m ms =>
    have hws : jpWs (commaJoin ((m :: ms).map memberText) ++ [125]) =
        commaJoin ((m :: ms).map memberText) ++ [125] := by
      cases ms with
      | nil => exact jpWs_cons (by decide) _
      | cons y ys => exact jpWs_cons (by decide) _
    have hno : jpByte 125 (commaJoin ((m :: ms).map memberText) ++ [125]) = none := by
      rw [jpByte_eq_none]
      cases ms with
      | nil => simp [commaJoin, memberText]
      | cons y ys => simp [commaJoin, memberText]
    have hlen : ∀ l : List (Bytes × Bytes), l.length ≤ (commaJoin (l.map memberText)).length := by
      intro l
      induction l with
      | nil => exact Nat.zero_le _
      | cons y l ih =>
        cases l with
        | nil => simp [commaJoin, memberText]
        | cons z l =>
          simp only [List.map_cons, commaJoin, List.length_append, List.length_cons] at ih ⊢
          omega
    have hfuel := hlen (m :: ms)
    rw [hws, hno]
    simp only
    rw [readMembers_join (by simp) h _ (by rw [List.length_append]; omega)]
    rfl

/-! ### Values -/

theorem digits_decimal (n : ℕ) : Digits (Numerals.decimal n) ∧
    (0 < n → (Numerals.decimal n).head? ≠ some 48) := by
  have hdigit : ∀ d < 10, Digit (UInt8.ofNat (48 + d)) ∧ (0 < d → UInt8.ofNat (48 + d) ≠ 48) := by
    unfold Digit
    decide
  induction n using Nat.strong_induction_on with
  | _ n ih =>
    rw [Numerals.decimal_eq_if]
    split_ifs with h
    · obtain ⟨hd, hne⟩ := hdigit n h
      exact ⟨⟨by simp, by simpa using hd⟩, fun hpos => by simpa using hne hpos⟩
    · obtain ⟨⟨hnil, hall⟩, hhead⟩ := ih (n / 10) (by omega)
      refine ⟨⟨by simp, fun c hc => ?_⟩, fun _ => ?_⟩
      · rcases List.mem_append.1 hc with hc | hc
        · exact hall c hc
        · rw [List.mem_singleton.1 hc]
          exact (hdigit _ (Nat.mod_lt _ (by norm_num))).1
      · rw [List.head?_append_of_ne_nil _ hnil]
        exact hhead (by omega)

/-- What `strconv.FormatInt` writes of a natural number. -/
theorem number_decimal (n : ℕ) : Number (Numerals.decimal n) := by
  obtain ⟨hdigits, hhead⟩ := digits_decimal n
  refine ⟨[], Numerals.decimal n, [], [], by simp, .inl rfl, ?_, .inl rfl, .inl rfl⟩
  rcases Nat.eq_zero_or_pos n with rfl | hpos
  · exact .inl rfl
  · exact .inr ⟨hdigits, hhead hpos⟩

theorem raw_of_head {v : Bytes} {b : UInt8} {t : Bytes} (hv : v = b :: t) (hb : isWs b = false)
    (h : ∀ m, ∀ r, Stop r → skip .value (m + 1) 1 (v ++ r) = some r) : Raw v := by
  subst hv
  refine ⟨⟨List.cons_ne_nil b t, fun m hm r hr => ?_⟩, fun x => ?_⟩
  · obtain ⟨m, rfl⟩ : ∃ k, m = k + 1 := ⟨m - 1, by omega⟩
    exact h m r hr
  · exact jpWs_cons (by rw [hb]; exact Bool.false_ne_true) _

theorem raw_quote (s : Bytes) : Raw (quote s) := by
  refine raw_of_head rfl (by decide) fun m r _ => ?_
  rw [quote, List.cons_append, skip, if_pos rfl, List.append_assoc, List.singleton_append,
    scanString_body (readQuoted s).1]
  rfl

theorem raw_true : Raw (ascii "true") :=
  raw_of_head rfl (by decide) fun m r _ => by
    change skip .value (m + 1) 1 (116 :: ([114, 117, 101] ++ r)) = some r
    rw [skip, if_neg (by decide), if_neg (by decide), if_neg (by decide), if_neg (by decide), if_pos rfl]
    exact jpLiteral_eq_some.2 rfl

theorem raw_false : Raw (ascii "false") :=
  raw_of_head rfl (by decide) fun m r _ => by
    change skip .value (m + 1) 1 (102 :: ([97, 108, 115, 101] ++ r)) = some r
    rw [skip, if_neg (by decide), if_neg (by decide), if_neg (by decide), if_neg (by decide),
      if_neg (by decide), if_pos rfl]
    exact jpLiteral_eq_some.2 rfl

theorem raw_decimal (n : ℕ) : Raw (Numerals.decimal n) := by
  obtain ⟨c, t, hct, _⟩ := number_head (number_decimal n)
  have hc : Digit c := (digits_decimal n).1.2 c (by rw [hct]; exact List.mem_cons_self)
  have hne : c ≠ 34 ∧ c ≠ 123 ∧ c ≠ 91 ∧ c ≠ 110 ∧ c ≠ 116 ∧ c ≠ 102 ∧ isWs c = false := by
    unfold Digit at hc
    have hall : ∀ n < 256, 48 ≤ UInt8.ofNat n ∧ UInt8.ofNat n ≤ 57 → UInt8.ofNat n ≠ 34 ∧
        UInt8.ofNat n ≠ 123 ∧ UInt8.ofNat n ≠ 91 ∧ UInt8.ofNat n ≠ 110 ∧ UInt8.ofNat n ≠ 116 ∧
        UInt8.ofNat n ≠ 102 ∧ isWs (UInt8.ofNat n) = false := by decide +kernel
    have h := hall c.toNat c.toNat_lt
    rw [UInt8.ofNat_toNat] at h
    exact h hc
  obtain ⟨h34, h123, h91, h110, h116, h102, hws⟩ := hne
  refine raw_of_head hct hws fun m r hr => ?_
  have hnum := jpNumberSkip_complete (number_decimal n) hr
  rw [hct, List.cons_append] at hnum ⊢
  rw [skip, if_neg h34, if_neg h123, if_neg h91, if_neg h110, if_neg h116, if_neg h102, hnum]
  rfl

end GoJson
