import PlacitumNode.Codec.Tokens

/-!
# Strings written and read back

`jwString` writes one text for each character, for each byte below 0x80 or for each ill-formed part
of its input (`Writes`).  Each text is one unit for the reader, which gets the bytes of the
character back, or U+FFFD; so reading what was written yields the lossy copy of the input.

* `Piece`, `Writes`: the pieces of an input, each with its text and what is read from it;
* `read_pieces`: `jpString` reads the pieces back;
* `write_ok`, `write_room`: what the writer leaves in a buffer of any size;
* `string_round_trip`.
-/

namespace Codec

open Octets String Utf8

/-- The text of a piece of the input, and the bytes a reader makes of it. -/
structure Piece where
  text : Bytes
  read : Bytes

/-- How `jwString` cuts its input. -/
inductive Writes : Bytes → List Piece → Prop
  | nil : Writes [] []
  | char {c : UInt8} {rest : Bytes} {n : ℕ} {ps : List Piece} : 0x80 ≤ c →
      utf8Valid (c :: rest) = .ok n → Writes ((c :: rest).drop n) ps →
      Writes (c :: rest) (⟨(c :: rest).take n, (c :: rest).take n⟩ :: ps)
  | bad {c : UInt8} {rest : Bytes} {n : ℕ} {ps : List Piece} : 0x80 ≤ c →
      utf8Valid (c :: rest) = .error n → Writes ((c :: rest).drop n) ps →
      Writes (c :: rest) (⟨replacement, replacement⟩ :: ps)
  | byte {c : UInt8} {rest : Bytes} {ps : List Piece} : ¬0x80 ≤ c → Writes rest ps →
      Writes (c :: rest) (⟨charText c, [c]⟩ :: ps)

/-- The text of all pieces. -/
def texts (ps : List Piece) : Bytes := (ps.map Piece.text).flatten

/-- What is read from all pieces. -/
def reads (ps : List Piece) : Bytes := (ps.map Piece.read).flatten

@[simp] theorem texts_nil : texts [] = [] := rfl

@[simp] theorem texts_cons (p : Piece) (ps : List Piece) : texts (p :: ps) = p.text ++ texts ps := rfl

@[simp] theorem reads_nil : reads [] = [] := rfl

@[simp] theorem reads_cons (p : Piece) (ps : List Piece) : reads (p :: ps) = p.read ++ reads ps := rfl

theorem utf8Valid_pos {s : Bytes} {n : ℕ} (h : utf8Valid s = .ok n) : 0 < n ∧ n ≤ s.length := by
  obtain ⟨c, rest, rfl, rfl⟩ := utf8Valid_ok h
  exact ⟨length_char_pos c, by rw [List.length_append]; exact Nat.le_add_right _ _⟩

theorem utf8Valid_bad_pos {s : Bytes} {n : ℕ} (hs : s ≠ []) (h : utf8Valid s = .error n) :
    0 < n ∧ n ≤ s.length := by
  obtain ⟨p, rest, rfl, rfl, hp⟩ := utf8Valid_bad hs h
  exact ⟨hp.pos, by rw [List.length_append]; exact Nat.le_add_right _ _⟩

theorem exists_writes (s : Bytes) : ∃ ps, Writes s ps := by
  induction hn : s.length using Nat.strong_induction_on generalizing s with
  | h n ih =>
    subst hn
    cases s with
    | nil => exact ⟨[], .nil⟩
    | cons c rest =>
      by_cases hc : 0x80 ≤ c
      · cases hv : utf8Valid (c :: rest) with
        | ok n =>
          have hpos := utf8Valid_pos hv
          obtain ⟨ps, hps⟩ := ih _ (by rw [List.length_drop]; omega) ((c :: rest).drop n) rfl
          exact ⟨_, .char hc hv hps⟩
        | error n =>
          have hpos := utf8Valid_bad_pos (List.cons_ne_nil c rest) hv
          obtain ⟨ps, hps⟩ := ih _ (by rw [List.length_drop]; omega) ((c :: rest).drop n) rfl
          exact ⟨_, .bad hc hv hps⟩
      · obtain ⟨ps, hps⟩ := ih rest.length (Nat.lt_succ_self _) rest rfl
        exact ⟨_, .byte hc hps⟩

/-- What is read from the pieces is the lossy copy of the input. -/
theorem writes_lossy {s : Bytes} {ps : List Piece} (h : Writes s ps) : Lossy s (reads ps) := by
  induction h with
  | nil => exact .nil
  | @char c rest n ps hc hv _ ih =>
    obtain ⟨x, rest', heq, rfl⟩ := utf8Valid_ok hv
    rw [heq] at ih ⊢
    rw [List.drop_left] at ih
    simp only [reads_cons, List.take_left]
    exact .char x ih
  | @bad c rest n ps hc hv _ ih =>
    obtain ⟨p, rest', heq, rfl, hp⟩ := utf8Valid_bad (List.cons_ne_nil c rest) hv
    rw [heq] at ih ⊢
    rw [List.drop_left] at ih
    exact .bad hp ih
  | @byte c rest ps hc _ ih =>
    obtain ⟨x, -, hx⟩ := char_of_byte (UInt8.not_le.1 hc)
    have := Lossy.char x ih
    rwa [hx] at this

/-! ### Reading one piece -/

/-- A piece is read as one unit, does not begin with a quote, hides no quote from the search for the
closing one, and is no shorter than what is read from it. -/
structure Piece.Good (p : Piece) : Prop where
  unit : ∀ rest, jpUnit (p.text ++ rest) = .ok (p.read, rest)
  head : ∃ b t, p.text = b :: t ∧ b ≠ 34
  scan : ∀ rest, quoteAt false (p.text ++ rest) = (quoteAt false rest).map (· + p.text.length)
  short : p.read.length ≤ p.text.length

theorem quoteAt_plain {u : Bytes} (h : ∀ b ∈ u, b ≠ 34 ∧ b ≠ 92) (rest : Bytes) :
    quoteAt false (u ++ rest) = (quoteAt false rest).map (· + u.length) := by
  induction u with
  | nil => simp
  | cons b u ih =>
    obtain ⟨hq, hb⟩ := h b List.mem_cons_self
    rw [List.cons_append, quoteAt, if_neg hq, decide_eq_false hb,
      ih fun x hx => h x (List.mem_cons_of_mem b hx), Option.map_map]
    rfl

theorem quoteAt_escape (e : UInt8) (rest : Bytes) :
    quoteAt false (92 :: e :: rest) = (quoteAt false rest).map (· + 2) := by
  rw [quoteAt, if_neg (by decide), decide_eq_true rfl, quoteAt, Option.map_map]
  rfl

theorem follows_high {need : ℕ} {lo hi : UInt8} {t : Bytes} (h : Follows need lo hi t)
    (hlo : 0x80 ≤ lo) : ∀ b ∈ t, 0x80 ≤ b := by
  induction need generalizing lo hi t with
  | zero =>
    cases h
    exact fun _ hb => absurd hb List.not_mem_nil
  | succ need ih =>
    obtain ⟨b, t, rfl, hb, -, ht⟩ := h
    intro x hx
    rcases List.mem_cons.1 hx with rfl | hx
    · exact UInt8.le_trans hlo hb
    · exact ih ht (UInt8.le_refl _) x hx

theorem utf8Lead_high {b : UInt8} {need : ℕ} {lo hi : UInt8}
    (h : utf8Lead b = some (need, lo, hi)) : 0x80 ≤ lo := by
  unfold utf8Lead at h
  split_ifs at h
  all_goals
    cases h
    decide

theorem char_high {x : Char} (h : 0x80 ≤ x.val.toNat) : ∀ b ∈ utf8EncodeChar x, 0x80 ≤ b := by
  obtain ⟨b, t, need, lo, hi, henc, hb, hlead, ht⟩ := char_follows h
  rw [henc]
  intro y hy
  rcases List.mem_cons.1 hy with rfl | hy
  · exact hb
  · exact follows_high ht (utf8Lead_high hlead) y hy

theorem ne_of_high {b c : UInt8} (h : 0x80 ≤ b) (hc : c < 0x80) : b ≠ c := by
  rintro rfl
  exact UInt8.not_lt.2 h hc

theorem good_char {x : Char} (h : 0x80 ≤ x.val.toNat) :
    Piece.Good ⟨utf8EncodeChar x, utf8EncodeChar x⟩ := by
  have hhigh := char_high h
  obtain ⟨b, t, hbt⟩ := List.exists_cons_of_length_pos (length_char_pos x)
  have hb := hhigh b (hbt ▸ List.mem_cons_self)
  refine ⟨fun rest => ?_, ⟨b, t, hbt, ne_of_high hb (by decide)⟩, ?_, le_refl _⟩
  · have hv := utf8Valid_char x rest
    have hcons : utf8EncodeChar x ++ rest = b :: (t ++ rest) := by rw [hbt, List.cons_append]
    have hctl : ¬b < 0x20 := by
      intro hlt
      exact absurd (UInt8.lt_of_le_of_lt hb hlt) (by decide)
    rw [hcons] at hv ⊢
    simp only [jpUnit, if_neg hctl, if_pos hb, hv]
    rw [← hcons, List.take_left, List.drop_left]
  · exact quoteAt_plain fun y hy =>
      ⟨ne_of_high (hhigh y hy) (by decide), ne_of_high (hhigh y hy) (by decide)⟩

/-- An escape of one character. -/
theorem good_short {e b : UInt8} (h : escape e = some b) : Piece.Good ⟨[92, e], [b]⟩ := by
  have h₁ : ¬(92 : UInt8) < 0x20 := by decide
  have h₂ : ¬(0x80 : UInt8) ≤ 92 := by decide
  refine ⟨fun rest => ?_, ⟨92, [e], rfl, by decide⟩, fun rest => quoteAt_escape e rest, ?_⟩
  · simp only [List.cons_append, List.nil_append, jpUnit, if_neg h₁, if_neg h₂, ne_eq,
      not_true_eq_false, if_false, h]
  · simp

theorem hexValue_hexDigit {d : ℕ} (h : d < 16) : hexValue (hexDigit d) = some d := by
  have hall : ∀ d < 16, hexValue (hexDigit d) = some d := by decide
  exact hall d h

theorem hexDigit_plain {d : ℕ} (h : d < 16) : hexDigit d ≠ 34 ∧ hexDigit d ≠ 92 := by
  have hall : ∀ d < 16, hexDigit d ≠ 34 ∧ hexDigit d ≠ 92 := by decide
  exact hall d h

/-- The escape of a control character by its number. -/
theorem good_code {c : UInt8} (h : c < 0x20) :
    Piece.Good ⟨[92, 117, 48, 48, hexDigit (c.toNat / 16 % 16), hexDigit (c.toNat % 16)], [c]⟩ := by
  have hlt : c.toNat < 0x20 := UInt8.lt_iff_toNat_lt.1 h
  have hd₁ : c.toNat / 16 % 16 < 16 := Nat.mod_lt _ (by norm_num)
  have hd₂ : c.toNat % 16 < 16 := Nat.mod_lt _ (by norm_num)
  have h₁ : ¬(92 : UInt8) < 0x20 := by decide
  have h₂ : ¬(0x80 : UInt8) ≤ 92 := by decide
  have h₃ : escape 117 = none := by decide
  have h₄ : hexValue 48 = some 0 := by decide
  refine ⟨fun rest => ?_, ⟨92, _, rfl, by decide⟩, fun rest => ?_, by simp⟩
  · have hhex : jpHex4 (48 :: 48 :: hexDigit (c.toNat / 16 % 16) :: hexDigit (c.toNat % 16) :: rest)
        = .ok (c.toNat, rest) := by
      rw [jpHex4, if_neg (by simp)]
      simp only [hexDigits, h₄, hexValue_hexDigit hd₁, hexValue_hexDigit hd₂]
      congr 2
      omega
    simp only [List.cons_append, List.nil_append, jpUnit, if_neg h₁, if_neg h₂, ne_eq,
      not_true_eq_false, if_false, h₃, jpCodePoint, hhex]
    rw [if_neg (by omega), if_neg (by omega), utf8Encode, if_pos (by omega), UInt8.ofNat_toNat]
  · have hplain := quoteAt_plain
      (u := [48, 48, hexDigit (c.toNat / 16 % 16), hexDigit (c.toNat % 16)]) (by
        have h48 : (48 : UInt8) ≠ 34 ∧ (48 : UInt8) ≠ 92 := by decide
        simp only [List.mem_cons, List.not_mem_nil, or_false]
        rintro b (rfl | rfl | rfl | rfl)
        · exact h48
        · exact h48
        · exact hexDigit_plain hd₁
        · exact hexDigit_plain hd₂) rest
    have hesc := quoteAt_escape 117
      ([48, 48, hexDigit (c.toNat / 16 % 16), hexDigit (c.toNat % 16)] ++ rest)
    rw [hplain, Option.map_map] at hesc
    exact hesc

theorem good_byte {c : UInt8} (h : ¬0x80 ≤ c) : Piece.Good ⟨charText c, [c]⟩ := by
  unfold charText controlText
  split_ifs with hq hlow h₁ h₂ h₃ h₄ h₅
  · rcases hq with rfl | rfl
    · exact good_short (by decide)
    · exact good_short (by decide)
  · rw [not_or] at hq
    have hctl : ¬c < 0x20 := UInt8.not_lt.2 hlow
    refine ⟨fun rest => ?_, ⟨c, [], rfl, hq.1⟩, quoteAt_plain (by simpa using hq), le_refl _⟩
    simp only [List.cons_append, List.nil_append, jpUnit, if_neg hctl, if_neg h, ne_eq, hq.2,
      not_false_eq_true, if_true]
  · subst h₁
    exact good_short (by decide)
  · subst h₂
    exact good_short (by decide)
  · subst h₃
    exact good_short (by decide)
  · subst h₄
    exact good_short (by decide)
  · subst h₅
    exact good_short (by decide)
  · exact good_code (UInt8.not_le.1 hlow)

theorem char_high_of_head {x : Char} {c : UInt8} {rest s : Bytes}
    (h : c :: rest = utf8EncodeChar x ++ s) (hc : 0x80 ≤ c) : 0x80 ≤ x.val.toNat := by
  by_contra hlt
  rw [char_ascii (by omega)] at h
  have hb := (List.cons.inj h).1
  rw [hb, UInt8.le_iff_toNat_le, toNat_ofNat_lt (by omega)] at hc
  exact hlt hc

/-- Every piece the writer makes is read back. -/
theorem writes_good {s : Bytes} {ps : List Piece} (h : Writes s ps) : ∀ p ∈ ps, p.Good := by
  induction h with
  | nil => exact fun _ hp => absurd hp List.not_mem_nil
  | @char c rest n ps hc hv _ ih =>
    obtain ⟨x, rest', heq, rfl⟩ := utf8Valid_ok hv
    have hx := char_high_of_head heq hc
    intro p hp
    rcases List.mem_cons.1 hp with rfl | hp
    · rw [heq, List.take_left]
      exact good_char hx
    · exact ih p hp
  | bad _ _ _ ih =>
    intro p hp
    rcases List.mem_cons.1 hp with rfl | hp
    · rw [replacement_eq]
      exact good_char (by decide)
    · exact ih p hp
  | byte hc _ ih =>
    intro p hp
    rcases List.mem_cons.1 hp with rfl | hp
    · exact good_byte hc
    · exact ih p hp

/-! ### Reading all pieces -/

theorem quoteAt_texts {ps : List Piece} (h : ∀ p ∈ ps, p.Good) (tail : Bytes) :
    quoteAt false (texts ps ++ 34 :: tail) = some (texts ps).length := by
  induction ps with
  | nil => simp [quoteAt]
  | cons p ps ih =>
    rw [texts_cons, List.append_assoc, (h p List.mem_cons_self).scan,
      ih fun q hq => h q (List.mem_cons_of_mem p hq), List.length_append]
    exact congrArg some (Nat.add_comm _ _)

theorem strLoop_texts {ps : List Piece} (h : ∀ p ∈ ps, p.Good) {size : ℕ} {out tail : Bytes}
    (hsize : out.length + (texts ps).length ≤ size) :
    Loop.exec (strStep size) (fun s => s.rest.length) ⟨out, false, texts ps ++ 34 :: tail⟩
      = some (.ok (some (out ++ reads ps), tail)) := by
  induction ps generalizing out with
  | nil =>
    apply Loop.exec_inr
    simp [strStep]
  | cons p ps ih =>
    have hp := h p List.mem_cons_self
    obtain ⟨b, t, hbt, hb⟩ := hp.head
    have hunit := hp.unit (texts ps ++ 34 :: tail)
    have hshort := hp.short
    rw [texts_cons, List.length_append] at hsize
    have hroom : ¬(false = true ∨ size - out.length < p.read.length) := by
      simp only [Bool.false_eq_true, false_or, not_lt]
      omega
    have hstep : strStep size ⟨out, false, texts (p :: ps) ++ 34 :: tail⟩
        = .inl ⟨out ++ p.read, false, texts ps ++ 34 :: tail⟩ := by
      rw [texts_cons, List.append_assoc]
      rw [hbt, List.cons_append] at hunit ⊢
      simp only [strStep, if_neg hb, hunit, if_neg hroom]
    rw [Loop.exec_inl (strStep_shrinks size) hstep,
      ih (fun q hq => h q (List.mem_cons_of_mem p hq)) (by rw [List.length_append]; omega),
      reads_cons, List.append_assoc]

/-- **What was written is read back** and consumed exactly. -/
theorem read_pieces {ps : List Piece} (h : ∀ p ∈ ps, p.Good) (tail : Bytes) :
    jpString (34 :: (texts ps ++ 34 :: tail)) = .ok (some (reads ps), tail) := by
  have hq : ¬isWs 34 = true := by decide
  have hloop := @strLoop_texts ps h (texts ps).length [] tail (by simp)
  rw [jpString, jpWs_cons hq]
  simp only [ne_eq, not_true_eq_false, if_false, quoteAt_texts h]
  rw [jpStringBuf, jpWs_cons hq]
  simp only [ne_eq, not_true_eq_false, if_false, hloop, Option.getD_some, List.nil_append]

/-! ### The writer -/

theorem length_charText {c : UInt8} : (charText c).length ≤ 6 := by
  unfold charText controlText
  split_ifs <;> simp

theorem writes_length {s : Bytes} {ps : List Piece} (h : Writes s ps) :
    (texts ps).length ≤ 6 * s.length := by
  induction h with
  | nil => simp
  | @char c rest n ps hc hv _ ih =>
    have := utf8Valid_pos hv
    rw [List.length_drop] at ih
    simp only [texts_cons, List.length_append, List.length_take]
    omega
  | @bad c rest n ps hc hv _ ih =>
    have := utf8Valid_bad_pos (List.cons_ne_nil c rest) hv
    rw [List.length_drop] at ih
    have : replacement.length = 3 := rfl
    simp only [texts_cons, List.length_append]
    omega
  | @byte c rest ps hc _ ih =>
    have := length_charText (c := c)
    simp only [texts_cons, List.length_append, List.length_cons]
    omega

theorem writeStep_shrinks : Loop.Shrinks writeStep fun s => s.data.length := by
  intro s s' h
  unfold writeStep at h
  split at h
  · cases h
  · next c rest hdata =>
    simp only [hdata]
    split_ifs at h
    · split at h
      · next n hv =>
        cases h
        have := utf8Valid_pos hv
        simp only [List.length_drop]
        omega
      · next n hv =>
        cases h
        have := utf8Valid_bad_pos (List.cons_ne_nil c rest) hv
        simp only [List.length_drop]
        omega
    · cases h
      exact Nat.lt_succ_self _
    · cases h
      exact Nat.lt_succ_self _

theorem jwRaw_ok {jw : Jw} {data : Bytes} (h : (jwRaw jw data).overflow = false) :
    jw.overflow = false ∧ (jwRaw jw data).out = jw.out ++ data := by
  unfold jwRaw at h ⊢
  split_ifs at h with hroom
  rw [if_neg hroom]
  exact ⟨h, rfl⟩

theorem jwRaw_room {jw : Jw} {data : Bytes} (h : jw.out.length + data.length ≤ jw.size) :
    jwRaw jw data = { jw with out := jw.out ++ data } := if_neg (by omega)

theorem jwRaw_length (jw : Jw) (data : Bytes) :
    (jwRaw jw data).out.length ≤ jw.out.length + data.length := by
  unfold jwRaw
  split_ifs
  · exact Nat.le_add_right _ _
  · simp

/-- The iteration that writes a piece, and what it leaves of the input. -/
theorem writeStep_piece {data : Bytes} {p : Piece} {ps : List Piece} (h : Writes data (p :: ps))
    (jw : Jw) :
    ∃ data', Writes data' ps ∧ data'.length < data.length ∧
      (writeStep ⟨jw, data⟩ = .inl ⟨jwRaw jw p.text, data'⟩ ∨
        writeStep ⟨jw, data⟩ = .inr ({ jw with overflow := true }, false) ∧
          jw.size - jw.out.length < p.text.length) := by
  cases h with
  | @char c rest n _ hc hv hps =>
    have := utf8Valid_pos hv
    refine ⟨_, hps, by rw [List.length_drop]; omega, Or.inl ?_⟩
    simp only [writeStep, if_pos hc, hv]
  | @bad c rest n _ hc hv hps =>
    have := utf8Valid_bad_pos (List.cons_ne_nil c rest) hv
    refine ⟨_, hps, by rw [List.length_drop]; omega, Or.inl ?_⟩
    simp only [writeStep, if_pos hc, hv]
    rfl
  | @byte c rest _ hc hps =>
    refine ⟨rest, hps, Nat.lt_succ_self _, ?_⟩
    by_cases hnamed : jwNamed c = true
    · exact Or.inl (by simp only [writeStep, if_neg hc, if_pos hnamed])
    · by_cases hroom : jw.size - jw.out.length < (charText c).length
      · exact Or.inr ⟨by simp only [writeStep, if_neg hc, if_neg hnamed, if_pos hroom], hroom⟩
      · left
        simp only [writeStep, if_neg hc, if_neg hnamed, if_neg hroom, jwRaw]

/-- The loop over the input: no text is left out of a writer that has not overflowed, nothing but
texts is written, and enough room keeps it from overflowing. -/
theorem writeLoop {data : Bytes} {ps : List Piece} (h : Writes data ps) (jw : Jw) :
    ∃ jw' fin, Loop.exec writeStep (fun s => s.data.length) ⟨jw, data⟩ = some (jw', fin) ∧
      (fin = false → jw'.overflow = true) ∧
      (jw'.overflow = false → jw.overflow = false ∧ jw'.out = jw.out ++ texts ps) ∧
      jw'.out.length ≤ jw.out.length + (texts ps).length ∧
      (jw.out.length + (texts ps).length ≤ jw.size →
        jw' = { jw with out := jw.out ++ texts ps } ∧ fin = true) := by
  induction ps generalizing data jw with
  | nil =>
    cases h
    refine ⟨jw, true, Loop.exec_inr rfl, by simp, fun ho => ⟨ho, by simp⟩, by simp, fun _ => ?_⟩
    simp
  | cons p ps ih =>
    obtain ⟨data', hps, -, hstep | ⟨hstep, hroom⟩⟩ := writeStep_piece h jw
    · obtain ⟨jw', fin, hexec, hfin, hok, hlen, henough⟩ := ih hps (jwRaw jw p.text)
      have hraw := jwRaw_length jw p.text
      refine ⟨jw', fin, ?_, hfin, ?_, ?_, ?_⟩
      · rw [Loop.exec_inl writeStep_shrinks hstep, hexec]
      · intro ho
        obtain ⟨ho', hout⟩ := hok ho
        obtain ⟨ho'', hout'⟩ := jwRaw_ok ho'
        exact ⟨ho'', by rw [hout, hout', texts_cons, List.append_assoc]⟩
      · rw [texts_cons, List.length_append]
        omega
      · intro hroom
        rw [texts_cons, List.length_append] at hroom
        have heq := @jwRaw_room jw p.text (by omega)
        rw [heq] at henough
        simp only [List.length_append] at henough
        obtain ⟨hjw, hfin'⟩ := henough (by omega)
        exact ⟨by rw [hjw, texts_cons, List.append_assoc], hfin'⟩
    · refine ⟨{ jw with overflow := true }, false, Loop.exec_inr hstep, fun _ => rfl, ?_, ?_, ?_⟩
      · intro ho
        cases ho
      · exact Nat.le_add_right _ _
      · intro hle
        rw [texts_cons, List.length_append] at hle
        omega

/-- What `jwString` leaves in a buffer of any size. -/
theorem jwString_spec {data : Bytes} {ps : List Piece} (h : Writes data ps) (jw : Jw) :
    (jwOk (jwString jw data) = true →
        jwOk jw = true ∧ (jwString jw data).out = jw.out ++ 34 :: (texts ps ++ [34])) ∧
      (jwString jw data).out.length ≤ jw.out.length + (34 :: (texts ps ++ [34])).length ∧
      (jwOk jw = true → jw.out.length + (34 :: (texts ps ++ [34])).length ≤ jw.size →
        jwOk (jwString jw data) = true) := by
  obtain ⟨jw', fin, hexec, hfin, hok, hlen, henough⟩ := writeLoop h (jwRaw jw [34])
  have hopen := jwRaw_length jw [34]
  have hclose := jwRaw_length jw' [34]
  simp only [List.length_singleton] at hopen hclose
  unfold jwString jwOk
  rw [hexec]
  simp only [Bool.not_eq_true', List.length_cons, List.length_append, List.length_nil]
  cases fin with
  | false =>
    have hover := hfin rfl
    simp only
    refine ⟨fun ho => ?_, by omega, fun ho hroom => ?_⟩
    · rw [hover] at ho
      cases ho
    · have hraw := @jwRaw_room jw [34] (by simp; omega)
      rw [hraw] at henough
      simp only [List.length_append, List.length_singleton] at henough
      exact absurd (henough (by omega)).2 (by decide)
  | true =>
    simp only
    refine ⟨fun ho => ?_, by omega, fun ho hroom => ?_⟩
    · obtain ⟨ho', hout⟩ := jwRaw_ok ho
      obtain ⟨ho'', hout'⟩ := hok ho'
      obtain ⟨ho₀, hout₀⟩ := jwRaw_ok ho''
      exact ⟨ho₀, by rw [hout, hout', hout₀]; simp⟩
    · have hraw := @jwRaw_room jw [34] (by simp; omega)
      rw [hraw] at henough
      simp only [List.length_append, List.length_singleton] at henough
      obtain ⟨hjw, -⟩ := henough (by omega)
      rw [jwRaw_room (by rw [hjw]; simp; omega), hjw]
      exact ho

/-- **The round trip of strings.**  For every input there is one text such that a writer in any
buffer either has appended exactly this text or has flagged the overflow, and does not overflow in a
buffer that has room for it; the text is at most six times as long as the input, and two bytes; and
`jpString` reads the lossy copy of the input from it, consuming nothing more.  The copy is the input
itself exactly when that is well formed. -/
theorem string_round_trip (s : Bytes) :
    ∃ text t, text.length ≤ 2 + 6 * s.length ∧
      Lossy s t ∧ (∀ t', Lossy s t' → t' = t) ∧ (t = s ↔ WellFormed s) ∧
      (∀ tail, jpString (text ++ tail) = .ok (some t, tail)) ∧
      ∀ jw : Jw,
        (jwOk (jwString jw s) = true → jwOk jw = true ∧ (jwString jw s).out = jw.out ++ text) ∧
        (jwString jw s).out.length ≤ jw.out.length + text.length ∧
        (jwOk jw = true → jw.out.length + text.length ≤ jw.size →
          jwOk (jwString jw s) = true) := by
  obtain ⟨ps, hps⟩ := exists_writes s
  have hlossy := writes_lossy hps
  refine ⟨34 :: (texts ps ++ [34]), reads ps, ?_, hlossy, fun t' h' => lossy_unique h' hlossy,
    lossy_eq_self_iff hlossy, fun tail => ?_, fun jw => jwString_spec hps jw⟩
  · have := writes_length hps
    simp only [List.length_cons, List.length_append, List.length_nil]
    omega
  · have := read_pieces (writes_good hps) tail
    simpa using this

end Codec
