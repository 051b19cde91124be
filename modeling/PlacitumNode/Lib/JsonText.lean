import PlacitumNode.Lib.Octets

/-!
# The grammar of JSON texts

The grammar of RFC 8259 over the bytes of a UTF-8 text.  `Derives sym d s` says that `s` is derived
from the symbol with containers that nest at most `d` deep; characters of strings are encoded
Unicode scalar values, and an escape of the form `\uXXXX` may name any code unit, also a surrogate
that stands alone.

* `Ws`, `Number`, `Str`: the lexical part;
* `Sym`, `Derives`, `Document`: values, elements, members and whole texts.
-/

namespace JsonText

open Octets String

/-- `*( space / tab / line feed / carriage return )` -/
def Ws (w : Bytes) : Prop := ∀ c ∈ w, c = 32 ∨ c = 9 ∨ c = 10 ∨ c = 13

/-! ### Numbers -/

def Digit (c : UInt8) : Prop := 48 ≤ c ∧ c ≤ 57

def Digits (s : Bytes) : Prop := s ≠ [] ∧ ∀ c ∈ s, Digit c

/-- A zero, or digits of which the first is not zero. -/
def IntPart (s : Bytes) : Prop := s = [48] ∨ Digits s ∧ s.head? ≠ some 48

def Frac (s : Bytes) : Prop := s = [] ∨ ∃ ds, s = 46 :: ds ∧ Digits ds

def Exponent (s : Bytes) : Prop :=
  s = [] ∨ ∃ e sign ds, s = e :: (sign ++ ds) ∧ (e = 101 ∨ e = 69) ∧
    (sign = [] ∨ sign = [43] ∨ sign = [45]) ∧ Digits ds

/-- `[ minus ] int [ frac ] [ exp ]` -/
def Number (s : Bytes) : Prop :=
  ∃ m i f x, s = m ++ (i ++ (f ++ x)) ∧ (m = [] ∨ m = [45]) ∧ IntPart i ∧ Frac f ∧ Exponent x

/-! ### Strings -/

def Hex (c : UInt8) : Prop := 48 ≤ c ∧ c ≤ 57 ∨ 97 ≤ c ∧ c ≤ 102 ∨ 65 ≤ c ∧ c ≤ 70

/-- One character of a string. -/
inductive StrUnit : Bytes → Prop
  | char (c : Char) : 0x20 ≤ c.val.toNat → c.val.toNat ≠ 34 → c.val.toNat ≠ 92 →
      StrUnit (utf8EncodeChar c)
  | short (e : UInt8) : e ∈ ([34, 92, 47, 98, 102, 110, 114, 116] : Bytes) → StrUnit [92, e]
  | code (a b c d : UInt8) : Hex a → Hex b → Hex c → Hex d → StrUnit [92, 117, a, b, c, d]

def Str (s : Bytes) : Prop := ∃ us : List Bytes, s = 34 :: (us.flatten ++ [34]) ∧ ∀ u ∈ us, StrUnit u

/-! ### Values -/

/-- The symbols of the grammar that nest. -/
inductive Sym
  | value
  | elements
  | members

/-- `Derives sym d s`: the bytes `s` are derived from `sym`, nesting at most `d` deep. -/
inductive Derives : Sym → ℕ → Bytes → Prop
  | null {d : ℕ} : Derives .value d (ascii "null")
  | true {d : ℕ} : Derives .value d (ascii "true")
  | false {d : ℕ} : Derives .value d (ascii "false")
  | number {d : ℕ} {s : Bytes} : Number s → Derives .value d s
  | str {d : ℕ} {s : Bytes} : Str s → Derives .value d s
  | emptyArray {d : ℕ} {w : Bytes} : Ws w → Derives .value (d + 1) (91 :: (w ++ [93]))
  | array {d : ℕ} {s : Bytes} : Derives .elements d s → Derives .value (d + 1) (91 :: (s ++ [93]))
  | emptyObject {d : ℕ} {w : Bytes} : Ws w → Derives .value (d + 1) (123 :: (w ++ [125]))
  | object {d : ℕ} {s : Bytes} : Derives .members d s → Derives .value (d + 1) (123 :: (s ++ [125]))
  | lastElement {d : ℕ} {w v w' : Bytes} : Ws w → Derives .value d v → Ws w' →
      Derives .elements d (w ++ (v ++ w'))
  | element {d : ℕ} {w v w' s : Bytes} : Ws w → Derives .value d v → Ws w' → Derives .elements d s →
      Derives .elements d (w ++ (v ++ (w' ++ 44 :: s)))
  | lastMember {d : ℕ} {w k w₁ w₂ v w' : Bytes} : Ws w → Str k → Ws w₁ → Ws w₂ →
      Derives .value d v → Ws w' →
      Derives .members d (w ++ (k ++ (w₁ ++ 58 :: (w₂ ++ (v ++ w')))))
  | member {d : ℕ} {w k w₁ w₂ v w' s : Bytes} : Ws w → Str k → Ws w₁ → Ws w₂ →
      Derives .value d v → Ws w' → Derives .members d s →
      Derives .members d (w ++ (k ++ (w₁ ++ 58 :: (w₂ ++ (v ++ (w' ++ 44 :: s))))))

/-- `ws value ws` -/
def Document (d : ℕ) (s : Bytes) : Prop :=
  ∃ w v w', s = w ++ (v ++ w') ∧ Ws w ∧ Derives .value d v ∧ Ws w'

theorem ws_nil : Ws [] := fun _ h => absurd h List.not_mem_nil

theorem ws_append {w w' : Bytes} (h : Ws w) (h' : Ws w') : Ws (w ++ w') := fun c hc =>
  (List.mem_append.1 hc).elim (h c) (h' c)

end JsonText
