import PlacitumNode.Lib.Octets

/-!
# Well-formed and ill-formed UTF-8

A byte string is well formed when it is the encoding of a sequence of characters.  Where it is not,
a decoder that loses as little as it can replaces every maximal subpart of an ill-formed sequence
by the replacement character U+FFFD: a subpart is as much of the input as begins some encoding, or
one byte when nothing does.

* `WellFormed`, `Begins`, `Subpart`;
* `Lossy s t`: `t` is `s` with every maximal subpart replaced.
-/

namespace Utf8

open Octets String

/-- The encoding of a sequence of characters. -/
def encode (cs : List Char) : Bytes := cs.flatMap utf8EncodeChar

def WellFormed (s : Bytes) : Prop := ∃ cs, s = encode cs

/-- An initial part of the encoding of a character. -/
def Begins (p : Bytes) : Prop := ∃ c, p <+: utf8EncodeChar c

/-- `p` is the maximal subpart at the front of `p ++ s`, where no character is encoded. -/
structure Subpart (p s : Bytes) : Prop where
  pos : 0 < p.length
  ill : ∀ c, ¬utf8EncodeChar c <+: p ++ s
  starts : p.length = 1 ∨ Begins p
  maximal : ∀ q, q <+: p ++ s → p.length < q.length → ¬Begins q

/-- U+FFFD -/
def replacement : Bytes := [0xef, 0xbf, 0xbd]

/-- The string `t` is `s` with every maximal ill-formed subpart replaced. -/
inductive Lossy : Bytes → Bytes → Prop
  | nil : Lossy [] []
  | char (c : Char) {s t : Bytes} : Lossy s t → Lossy (utf8EncodeChar c ++ s) (utf8EncodeChar c ++ t)
  | bad {p s t : Bytes} : Subpart p s → Lossy s t → Lossy (p ++ s) (replacement ++ t)

/-! ### Encodings -/

theorem length_char_pos (c : Char) : 0 < (utf8EncodeChar c).length := by
  rw [length_utf8EncodeChar]
  exact c.utf8Size_pos

/-- No encoding is an initial part of another. -/
theorem char_of_append_eq {c d : Char} {s t : Bytes}
    (h : utf8EncodeChar c ++ s = utf8EncodeChar d ++ t) : c = d ∧ s = t := by
  have hc := ByteArray.utf8DecodeChar?_utf8EncodeChar_append (b := s.toByteArray) (c := c)
  have hd := ByteArray.utf8DecodeChar?_utf8EncodeChar_append (b := t.toByteArray) (c := d)
  rw [← List.toByteArray_append, h] at hc
  rw [← List.toByteArray_append, hc] at hd
  cases Option.some.inj hd
  exact ⟨rfl, List.append_cancel_left h⟩

theorem replacement_eq : replacement = utf8EncodeChar '\uFFFD' := by decide

@[simp] theorem encode_nil : encode [] = [] := rfl

@[simp] theorem encode_cons (c : Char) (cs : List Char) :
    encode (c :: cs) = utf8EncodeChar c ++ encode cs := rfl

/-! ### The lossy copy -/

theorem subpart_unique {p p' s s' : Bytes} (h : Subpart p s) (h' : Subpart p' s')
    (heq : p ++ s = p' ++ s') : p = p' ∧ s = s' := by
  have hlen : ∀ {p p' s s' : Bytes}, Subpart p s → Subpart p' s' → p ++ s = p' ++ s' →
      ¬p.length < p'.length := by
    intro p p' s s' h h' heq hlt
    have hno := h.maximal p' (heq ▸ List.prefix_append p' s') hlt
    have hone := h'.starts.resolve_right hno
    have hpos := h.pos
    omega
  have hle := hlen h h' heq
  have hge := hlen h' h heq.symm
  exact List.append_inj heq (by omega)

/-- The lossy copy of a string is unique. -/
theorem lossy_unique {s t t' : Bytes} (h : Lossy s t) (h' : Lossy s t') : t = t' := by
  induction h generalizing t' with
  | nil =>
    generalize hs : ([] : Bytes) = s at h'
    cases h' with
    | nil => rfl
    | char c _ =>
      have := length_char_pos c
      have := congrArg List.length hs
      simp only [List.length_nil, List.length_append] at this
      omega
    | bad hp _ =>
      have := hp.pos
      have := congrArg List.length hs
      simp only [List.length_nil, List.length_append] at this
      omega
  | @char c s t hst ih =>
    generalize hs : utf8EncodeChar c ++ s = u at h'
    cases h' with
    | nil =>
      have := length_char_pos c
      have := congrArg List.length hs
      simp only [List.length_nil, List.length_append] at this
      omega
    | char d hst' =>
      obtain ⟨rfl, rfl⟩ := char_of_append_eq hs
      rw [ih hst']
    | bad hp _ => exact absurd (hs ▸ List.prefix_append _ _) (hp.ill c)
  | @bad p s t hp hst ih =>
    generalize hs : p ++ s = u at h'
    cases h' with
    | nil =>
      have := hp.pos
      have := congrArg List.length hs
      simp only [List.length_nil, List.length_append] at this
      omega
    | char d _ => exact absurd (hs ▸ List.prefix_append _ _) (hp.ill d)
    | bad hp' hst' =>
      obtain ⟨rfl, rfl⟩ := subpart_unique hp hp' hs
      rw [ih hst']

theorem lossy_wellFormed {s t : Bytes} (h : Lossy s t) : WellFormed t := by
  induction h with
  | nil => exact ⟨[], rfl⟩
  | char c _ ih =>
    obtain ⟨cs, rfl⟩ := ih
    exact ⟨c :: cs, rfl⟩
  | bad _ _ ih =>
    obtain ⟨cs, rfl⟩ := ih
    exact ⟨'\uFFFD' :: cs, by rw [replacement_eq]; rfl⟩

theorem lossy_encode (cs : List Char) : Lossy (encode cs) (encode cs) := by
  induction cs with
  | nil => exact .nil
  | cons c cs ih => exact .char c ih

/-- The lossy copy loses nothing exactly when the string is well formed. -/
theorem lossy_eq_self_iff {s t : Bytes} (h : Lossy s t) : t = s ↔ WellFormed s := by
  constructor
  · rintro rfl
    exact lossy_wellFormed h
  · rintro ⟨cs, rfl⟩
    exact lossy_unique h (lossy_encode cs)

end Utf8
