import PlacitumNode.Lib.Utf8

/-!
# Characters read one by one from any bytes

A reader that never fails takes the character that is encoded at the front of its input, and where
none is encoded takes one byte for U+FFFD.

* `decodeRune`, `runes`;
* `rune_induction`: every string is nothing, a character and a string, or a byte that begins no
  encoding and a string;
* `encode_runes`: without U+FFFD the string is the encoding of its runes;
* `exists_other_length`: with U+FFFD another string has the same runes.
-/

namespace Utf8

open Octets String

/-- The character at the front of a string and the number of its bytes. -/
def decodeRune (s : Bytes) : Char × ℕ :=
  match s.toByteArray.utf8DecodeChar? 0 with
  | some c => (c, c.utf8Size)
  | none => ('\uFFFD', 1)

def runes : Bytes → List Char
  | [] => []
  | b :: s => (decodeRune (b :: s)).1 :: runes (s.drop ((decodeRune (b :: s)).2 - 1))
termination_by s => s.length
decreasing_by simp only [List.length_drop, List.length_cons]; omega

/-- No encoding is at the front. -/
def IllAt (s : Bytes) : Prop := ∀ c, ¬utf8EncodeChar c <+: s

/-! ### One rune -/

theorem decodeRune_char (c : Char) (s : Bytes) :
    decodeRune (utf8EncodeChar c ++ s) = (c, c.utf8Size) := by
  rw [decodeRune, List.toByteArray_append, ByteArray.utf8DecodeChar?_utf8EncodeChar_append]

theorem prefix_of_decode {s : Bytes} {c : Char}
    (h : s.toByteArray.utf8DecodeChar? 0 = some c) : ∃ t, s = utf8EncodeChar c ++ t := by
  obtain ⟨l, hl⟩ := ByteArray.exists_of_utf8DecodeChar?_eq_some h
  refine ⟨l.data.toList, ?_⟩
  have hlist := congrArg (·.data.toList) hl
  simpa using hlist

theorem decodeRune_ill {s : Bytes} (h : IllAt s) : decodeRune s = ('\uFFFD', 1) := by
  rw [decodeRune]
  cases hd : s.toByteArray.utf8DecodeChar? 0 with
  | none => rfl
  | some c =>
    obtain ⟨t, rfl⟩ := prefix_of_decode hd
    exact absurd (List.prefix_append _ _) (h c)

/-- Every string is nothing, a character and a string, or a byte of no character and a string. -/
@[elab_as_elim]
theorem rune_induction {P : Bytes → Prop} (nil : P [])
    (char : ∀ c s, P s → P (utf8EncodeChar c ++ s))
    (ill : ∀ b s, IllAt (b :: s) → P s → P (b :: s)) (s : Bytes) : P s := by
  induction hn : s.length using Nat.strong_induction_on generalizing s with
  | _ n ih =>
    subst hn
    cases s with
    | nil => exact nil
    | cons b s =>
      by_cases h : IllAt (b :: s)
      · exact ill b s h (ih _ (by simp) s rfl)
      · obtain ⟨c, t, ht⟩ : ∃ c, utf8EncodeChar c <+: b :: s := by
          unfold IllAt at h
          push Not at h
          exact h
        rw [← ht] at ih ⊢
        have hpos := length_char_pos c
        exact char c t (ih _ (by rw [List.length_append]; omega) t rfl)

/-! ### All runes -/

theorem encode_append (cs ds : List Char) : encode (cs ++ ds) = encode cs ++ encode ds :=
  List.flatMap_append

@[simp] theorem runes_nil : runes [] = [] := by rw [runes]

@[simp] theorem runes_char (c : Char) (s : Bytes) :
    runes (utf8EncodeChar c ++ s) = c :: runes s := by
  have hpos := length_char_pos c
  have hlen := length_utf8EncodeChar c
  have hdec := decodeRune_char c s
  cases he : utf8EncodeChar c with
  | nil => rw [he] at hpos; exact absurd hpos (Nat.lt_irrefl 0)
  | cons b t =>
    rw [he, List.cons_append] at hdec
    rw [he, List.length_cons] at hlen
    rw [List.cons_append, runes, hdec]
    simp only
    rw [← hlen, Nat.add_sub_cancel, List.drop_left]

theorem runes_ill {b : UInt8} {s : Bytes} (h : IllAt (b :: s)) :
    runes (b :: s) = '\uFFFD' :: runes s := by
  rw [runes, decodeRune_ill h]
  rfl

@[simp] theorem runes_encode_append (cs : List Char) (s : Bytes) :
    runes (encode cs ++ s) = cs ++ runes s := by
  induction cs with
  | nil => rfl
  | cons c cs ih => rw [encode_cons, List.append_assoc, runes_char, ih, List.cons_append]

@[simp] theorem runes_encode (cs : List Char) : runes (encode cs) = cs := by
  have h := runes_encode_append cs []
  rwa [List.append_nil, runes_nil, List.append_nil] at h

/-- Without U+FFFD nothing was lost. -/
theorem encode_runes {s : Bytes} (h : '\uFFFD' ∉ runes s) : encode (runes s) = s := by
  induction s using rune_induction with
  | nil => rw [runes_nil, encode_nil]
  | char c s ih =>
    rw [runes_char] at h ⊢
    rw [encode_cons, ih (List.not_mem_of_not_mem_cons h)]
  | ill b s hill ih =>
    rw [runes_ill hill] at h
    exact absurd List.mem_cons_self h

theorem illAt_ff (s : Bytes) : IllAt (0xff :: s) := by
  rintro c ⟨t, ht⟩
  have hdec := ByteArray.utf8DecodeChar?_utf8EncodeChar_append (b := t.toByteArray) (c := c)
  rw [← List.toByteArray_append, ht] at hdec
  have hfirst := ByteArray.isUTF8FirstByte_of_isSome_utf8DecodeChar? (by rw [hdec]; rfl)
  have hno : ¬UInt8.IsUTF8FirstByte 0xff := by decide
  exact hno (by simpa using hfirst)

/-- U+FFFD stands for its own encoding and for a byte of no character. -/
theorem exists_other_length {s : Bytes} (h : '\uFFFD' ∈ runes s) :
    ∃ t, runes t = runes s ∧ t.length ≠ s.length := by
  induction s using rune_induction with
  | nil => rw [runes_nil] at h; cases h
  | char c s ih =>
    rw [runes_char] at h ⊢
    rcases eq_or_ne c '\uFFFD' with rfl | hc
    · refine ⟨0xff :: s, runes_ill (illAt_ff s), ?_⟩
      rw [← replacement_eq]
      simp [replacement]
    · obtain ⟨t, ht, hlen⟩ := ih ((List.mem_cons.1 h).resolve_left hc.symm)
      refine ⟨utf8EncodeChar c ++ t, by rw [runes_char, ht], ?_⟩
      rw [List.length_append, List.length_append]
      omega
  | ill b s hill _ =>
    refine ⟨replacement ++ s, ?_, ?_⟩
    · rw [replacement_eq, runes_char, runes_ill hill]
    · simp only [replacement, List.length_append, List.length_cons, List.length_nil]
      omega

end Utf8
