import Mathlib.Data.List.Forall2
import PlacitumNode.Lib.Numerals
import PlacitumNode.Lib.Runes
import PlacitumNode.Codec.Utf8

/-!
# The names that a list covers, in the module and in the agent

The capture (`body/ngx_http_waf_body.c`), the record (`runtime/ngx_http_waf_preview.c`) and the
archive (`retain/filter.go`) each decode the name of an argument and look it up in the lists of the
configuration.

* `decodeAt_eq`: the two loops over an index decode as the loop over a pointer does;
* `argName_eq_self_iff`: the names in which nothing is decoded;
* `equalFold_iff`: the agent compares rune by rune, the module byte by byte;
* `lists_agree_iff`: the lists and names to which all three have one answer.
-/

namespace Names

open Octets String Utf8 Numerals

/-! ### The decoders -/

/-- `ngx_http_waf_arg_name` -/
def argName : Bytes → Bytes
  | [] => []
  | c :: s =>
    if c = 43 then 32 :: argName s
    else if c = 37 ∧ 2 ≤ s.length then
      match hextoi (s.take 2) with
      | some v => UInt8.ofNat v :: argName (s.drop 2)
      | none => c :: argName s
    else c :: argName s
termination_by s => s.length
decreasing_by all_goals simp only [List.length_drop, List.length_cons]; omega

/-- The loop over an index that the record and the archive share; `pair` reads two digits. -/
def decodeAt (pair : UInt8 → UInt8 → Option UInt8) (p : Bytes) (i : ℕ) : Bytes :=
  if h : i < p.length then
    let c := p.get ⟨i, h⟩
    if c = 43 then 32 :: decodeAt pair p (i + 1)
    else if h₂ : c = 37 ∧ i + 2 < p.length then
      match pair (p.get ⟨i + 1, Nat.lt_of_succ_lt h₂.2⟩) (p.get ⟨i + 2, h₂.2⟩) with
      | some v => v :: decodeAt pair p (i + 3)
      | none => c :: decodeAt pair p (i + 1)
    else c :: decodeAt pair p (i + 1)
  else []
termination_by p.length - i

/-- Nothing to decode. -/
def plainName (raw : Bytes) : Bool := raw.all fun c => c ≠ 37 && c ≠ 43

def isHex (c : UInt8) : Bool := (48 ≤ c && c ≤ 57) || (97 ≤ c && c ≤ 102) || (65 ≤ c && c ≤ 70)

/-- `(h <= '9') ? h - '0' : (h | 0x20) - 'a' + 10` -/
def nibble (c : UInt8) : UInt8 := if c ≤ 57 then c - 48 else (c ||| 0x20) - 97 + 10

def previewPair (h l : UInt8) : Option UInt8 :=
  if isHex h && isHex l then some (nibble h <<< 4 ||| nibble l) else none

/-- `ngx_http_waf_preview_arg_name`; `alloc` is what the pool has for the copy. -/
def previewArgName (alloc : Bool) (raw : Bytes) : Bytes :=
  if plainName raw then raw else if alloc then decodeAt previewPair raw 0 else raw

namespace Agent

/-- `hexDigit` -/
def hexDigit (c : UInt8) : UInt8 × Bool :=
  if 48 ≤ c && c ≤ 57 then (c - 48, true)
  else if 97 ≤ c && c ≤ 102 then (c - 97 + 10, true)
  else if 65 ≤ c && c ≤ 70 then (c - 65 + 10, true)
  else (0, false)

/-- `unhex` -/
def unhex (hi lo : UInt8) : UInt8 × Bool :=
  ((hexDigit hi).1 <<< 4 ||| (hexDigit lo).1, (hexDigit hi).2 && (hexDigit lo).2)

/-- `argName` of the agent -/
def argName (raw : Bytes) : Bytes :=
  if plainName raw then raw
  else decodeAt (fun h l => if (unhex h l).2 then some (unhex h l).1 else none) raw 0

end Agent

/-! ### The lists -/

/-- What `ngx_strncasecmp` folds. -/
def lower (c : UInt8) : UInt8 := if 65 ≤ c && c ≤ 90 then c ||| 0x20 else c

/-- `ngx_strncasecmp`: equal NULs end the comparison. -/
def strncasecmp : Bytes → Bytes → ℕ → ℤ
  | a :: s, b :: t, n + 1 =>
    if lower a = lower b then if lower a ≠ 0 then strncasecmp s t n else 0
    else (lower a).toNat - (lower b).toNat
  | _, _, _ => 0

def listedIn (list : Option (List Bytes)) (name : Bytes) : Bool :=
  match list with
  | none => false
  | some items =>
    items.any fun item => item.length = name.length && strncasecmp item name name.length = 0

/-- `ngx_http_waf_name_listed`; `none` is the null list. -/
def nameListed (list : Option (List Bytes)) (name : Bytes) : Bool := listedIn list name

/-- `ngx_http_waf_preview_listed` -/
def previewListed (list : Option (List Bytes)) (name : Bytes) : Bool := listedIn list name

/-- One letter in its two cases. -/
def letterCase (a b : ℕ) : Bool := 65 ≤ min a b && min a b ≤ 90 && max a b = min a b + 32

namespace Agent

variable (folds : ℕ → ℕ → Bool)

/-- One turn of the loop of `strings.EqualFold` over two runes.  `folds sr tr`, for `sr < tr`, is
what the walk through `unicode.SimpleFold` finds. -/
def sameRune (sr tr : Char) : Bool :=
  if tr = sr then true
  else if max sr.toNat tr.toNat < 0x80 then letterCase sr.toNat tr.toNat
  else folds (min sr.toNat tr.toNat) (max sr.toNat tr.toNat)

/-- The loop of `strings.EqualFold` after the first byte beyond ASCII. -/
def foldRunes : Bytes → Bytes → Bool
  | [], t => t.isEmpty
  | _ :: _, [] => false
  | a :: s, b :: t =>
    sameRune folds (decodeRune (a :: s)).1 (decodeRune (b :: t)).1 &&
      foldRunes (s.drop ((decodeRune (a :: s)).2 - 1)) (t.drop ((decodeRune (b :: t)).2 - 1))
termination_by s => s.length
decreasing_by simp only [List.length_drop, List.length_cons]; omega

/-- `strings.EqualFold` -/
def equalFold : Bytes → Bytes → Bool
  | a :: s, b :: t =>
    if 0x80 ≤ a ||| b then foldRunes folds (a :: s) (b :: t)
    else if b = a then equalFold s t
    else if letterCase a.toNat b.toNat then equalFold s t
    else false
  | s, t => s.length = t.length

/-- `listed` -/
def listed (list : List Bytes) (name : Bytes) : Bool := list.any fun item => equalFold folds item name

end Agent

/-! ### One decoder -/

theorem forall_byte {P : UInt8 → Prop} (h : ∀ n < 256, P (UInt8.ofNat n)) (c : UInt8) : P c := by
  have hc := h c.toNat c.toNat_lt
  rwa [UInt8.ofNat_toNat] at hc

/-- What the byte functions give, byte by byte. -/
theorem byte_values (c : UInt8) :
    hexValueOf c = (if isHex c then some (nibble c).toNat else none) ∧
    Agent.hexDigit c = (if isHex c then (nibble c, true) else (0, false)) ∧
    (isHex c = true → (nibble c).toNat < 16) ∧
    (lower c).toNat = (if 65 ≤ c.toNat ∧ c.toNat ≤ 90 then c.toNat + 32 else c.toNat) ∧
    (lower c = 0 → c = 0) := by
  revert c
  exact forall_byte (by decide +kernel)

theorem hexValueOf_eq (c : UInt8) :
    hexValueOf c = if isHex c then some (nibble c).toNat else none := (byte_values c).1

theorem hexDigit_eq (c : UInt8) :
    Agent.hexDigit c = if isHex c then (nibble c, true) else (0, false) := (byte_values c).2.1

theorem nibble_lt {c : UInt8} (hc : isHex c = true) : (nibble c).toNat < 16 :=
  (byte_values c).2.2.1 hc

theorem shift_eq : ∀ d < 16, ∀ e < 16,
    UInt8.ofNat d <<< 4 ||| UInt8.ofNat e = UInt8.ofNat (d * 16 + e) := by
  decide +kernel

/-- Two digits as `ngx_hextoi` reads them. -/
theorem hextoi_pair (h l : UInt8) :
    hextoi [h, l] =
      (hexValueOf h).bind fun d => (hexValueOf l).map fun e => d * 16 + e := by
  have hmax : 16 < maxInt / 16 := by unfold maxInt; omega
  rw [hextoi, if_neg (by simp)]
  simp only [hextoiFrom]
  rw [if_neg (by omega)]
  cases hh : hexValueOf h with
  | none => rfl
  | some d =>
    have hd : d < 16 := by
      rw [hexValueOf_eq] at hh
      split_ifs at hh with hhex
      cases hh
      exact nibble_lt hhex
    simp only [Option.bind_some]
    rw [if_neg (by omega)]
    cases hexValueOf l <;> simp

/-- The record reads the two digits as the capture does. -/
theorem previewPair_eq (h l : UInt8) : previewPair h l = (hextoi [h, l]).map UInt8.ofNat := by
  rw [hextoi_pair, hexValueOf_eq, hexValueOf_eq, previewPair]
  cases hih : isHex h with
  | false => rfl
  | true =>
    cases hil : isHex l with
    | false => rfl
    | true =>
      have hshift := shift_eq _ (nibble_lt hih) _ (nibble_lt hil)
      rw [UInt8.ofNat_toNat, UInt8.ofNat_toNat] at hshift
      simp [hshift]

/-- The agent reads the two digits as the record does. -/
theorem unhex_eq (h l : UInt8) :
    (if (Agent.unhex h l).2 then some (Agent.unhex h l).1 else none) = previewPair h l := by
  simp only [Agent.unhex, hexDigit_eq, previewPair]
  cases isHex h <;> cases isHex l <;> rfl

@[simp] theorem argName_nil : argName [] = [] := by rw [argName]

/-- **The two loops over an index decode as the loop over a pointer does.** -/
theorem decodeAt_eq {pair : UInt8 → UInt8 → Option UInt8}
    (hpair : ∀ h l, pair h l = (hextoi [h, l]).map UInt8.ofNat) (p : Bytes) (i : ℕ) :
    decodeAt pair p i = argName (p.drop i) := by
  induction hn : p.length - i using Nat.strong_induction_on generalizing i with
  | _ n ih =>
    subst hn
    rw [decodeAt]
    simp only [List.get_eq_getElem]
    split_ifs with hi h43 h37
    · rw [List.drop_eq_getElem_cons hi, argName, if_pos h43, ih _ (by omega) (i + 1) rfl]
    · have hd₁ := List.drop_eq_getElem_cons (l := p) (i := i + 1) (by omega)
      have hd₂ := List.drop_eq_getElem_cons (l := p) (i := i + 2) h37.2
      have hlt := h37.2
      have htake : (p.drop (i + 1)).take 2 = [p[i + 1], p[i + 2]] := by
        rw [hd₁, hd₂]
        rfl
      have hrest : (p.drop (i + 1)).drop 2 = p.drop (i + 3) := by rw [List.drop_drop]
      rw [List.drop_eq_getElem_cons hi, argName, if_neg h43,
        if_pos ⟨h37.1, by rw [List.length_drop]; omega⟩, htake, hrest, hpair]
      cases hextoi [p[i + 1], p[i + 2]] with
      | none =>
        simp only [Option.map_none]
        rw [ih _ (by omega) (i + 1) rfl]
      | some v =>
        simp only [Option.map_some]
        rw [ih _ (by omega) (i + 3) rfl]
    · rw [List.drop_eq_getElem_cons hi, argName, if_neg h43,
        if_neg (by rw [List.length_drop]; rintro ⟨hc, hlen⟩; exact h37 ⟨hc, by omega⟩),
        ih _ (by omega) (i + 1) rfl]
    · rw [List.drop_eq_nil_of_le (by omega), argName_nil]

/-- A name without `%` and `+` is its own decoding. -/
theorem argName_plain {raw : Bytes} (h : plainName raw = true) : argName raw = raw := by
  induction raw with
  | nil => exact argName_nil
  | cons c s ih =>
    simp only [plainName, List.all_cons, Bool.and_eq_true, decide_eq_true_eq] at h
    rw [argName, if_neg h.1.2, if_neg (fun hc => h.1.1 hc.1), ih (by simpa [plainName] using h.2)]

theorem agent_argName_eq (raw : Bytes) : Agent.argName raw = argName raw := by
  rw [Agent.argName]
  split_ifs with h
  · exact (argName_plain h).symm
  · exact decodeAt_eq (fun h l => by rw [unhex_eq, previewPair_eq]) raw 0

/-- The record decodes alike, unless it has to and has no memory for the copy. -/
theorem previewArgName_eq_iff (alloc : Bool) (raw : Bytes) :
    previewArgName alloc raw = argName raw ↔ (alloc = true ∨ argName raw = raw) := by
  rw [previewArgName]
  split_ifs with h halloc
  · rw [argName_plain h]
    simp
  · rw [decodeAt_eq previewPair_eq, List.drop_zero]
    simp [halloc]
  · simp [halloc, eq_comm]

/-- No `+`, and no `%` before two digits. -/
def Undecoded (raw : Bytes) : Prop :=
  43 ∉ raw ∧ ∀ h l, [37, h, l] <:+: raw → (isHex h && isHex l) = false

theorem hextoi_isSome (h l : UInt8) : (hextoi [h, l]).isSome = (isHex h && isHex l) := by
  rw [hextoi_pair, hexValueOf_eq, hexValueOf_eq]
  cases isHex h <;> cases isHex l <;> rfl

theorem length_argName_le (raw : Bytes) : (argName raw).length ≤ raw.length := by
  fun_induction argName raw with
  | case1 => exact le_rfl
  | case2 s ih => simpa using ih
  | case3 c s _ _ v _ ih =>
    rw [List.length_drop] at ih
    simp only [List.length_cons]
    omega
  | case4 c s _ _ _ ih => simpa using ih
  | case5 c s _ _ ih => simpa using ih

theorem undecoded_cons {c : UInt8} {s : Bytes} : Undecoded (c :: s) ↔
    c ≠ 43 ∧ (c = 37 → 2 ≤ s.length → (hextoi (s.take 2)).isSome = false) ∧ Undecoded s := by
  have hpair : (c = 37 → 2 ≤ s.length → (hextoi (s.take 2)).isSome = false) ↔
      ∀ h l, [37, h, l] <+: c :: s → (isHex h && isHex l) = false := by
    constructor
    · rintro hc h l ⟨t, ht⟩
      rw [List.cons_append, List.cons.injEq] at ht
      obtain ⟨rfl, rfl⟩ := ht
      rw [← hextoi_isSome]
      exact hc rfl (by simp)
    · rintro hc rfl hlen
      obtain ⟨h, l, t, rfl⟩ : ∃ h l t, s = h :: l :: t := by
        match s, hlen with
        | h :: l :: t, _ => exact ⟨h, l, t, rfl⟩
      have hno := hc h l ⟨t, rfl⟩
      rw [← hextoi_isSome] at hno
      exact hno
  simp only [hpair, Undecoded, List.mem_cons, not_or, List.infix_cons_iff]
  constructor
  · rintro ⟨⟨hc, hs⟩, hall⟩
    exact ⟨Ne.symm hc, fun h l hpre => hall h l (.inl hpre), hs, fun h l hin => hall h l (.inr hin)⟩
  · rintro ⟨hc, hpre, hs, hin⟩
    exact ⟨⟨Ne.symm hc, hs⟩, fun h l => Or.rec (hpre h l) (hin h l)⟩

/-- **The names that are their own decoding.** -/
theorem argName_eq_self_iff (raw : Bytes) : argName raw = raw ↔ Undecoded raw := by
  fun_induction argName raw with
  | case1 => exact iff_of_true rfl ⟨List.not_mem_nil, fun h l hin => by simp at hin⟩
  | case2 s _ =>
    refine iff_of_false (fun heq => ?_) fun hno => (undecoded_cons.1 hno).1 rfl
    exact absurd (List.cons.inj heq).1 (by decide)
  | case3 c s _ h37 v hv _ =>
    refine iff_of_false (fun heq => ?_) fun hno => ?_
    · -- what is decoded is shorter
      have hlen := length_argName_le (s.drop 2)
      rw [(List.cons.inj heq).2, List.length_drop] at hlen
      omega
    · have hnone := (undecoded_cons.1 hno).2.1 h37.1 h37.2
      rw [hv] at hnone
      cases hnone
  | case4 c s hc h37 hv ih =>
    rw [List.cons_inj_right, ih, undecoded_cons]
    exact ⟨fun hs => ⟨hc, fun _ _ => by rw [hv]; rfl, hs⟩, fun hs => hs.2.2⟩
  | case5 c s hc h37 ih =>
    rw [List.cons_inj_right, ih, undecoded_cons]
    exact ⟨fun hs => ⟨hc, fun h2 hlen => absurd ⟨h2, hlen⟩ h37, hs⟩, fun hs => hs.2.2⟩

/-! ### What the agent compares -/

theorem decodeRune_byte {b : UInt8} (hb : b < 0x80) (s : Bytes) :
    ∃ c : Char, c.toNat = b.toNat ∧ runes (b :: s) = c :: runes s := by
  obtain ⟨c, hc, henc⟩ := Codec.char_of_byte hb
  refine ⟨c, hc, ?_⟩
  rw [← runes_char, henc, List.singleton_append]

theorem toNat_inj {c d : Char} (h : c.toNat = d.toNat) : c = d :=
  Char.ext (UInt32.toNat_inj.1 h)

theorem letterCase_lt {a b : ℕ} (h : letterCase a b = true) : a < 0x80 ∧ b < 0x80 := by
  simp only [letterCase, Bool.and_eq_true, decide_eq_true_eq] at h
  omega

section

variable (folds : ℕ → ℕ → Bool)

theorem sameRune_iff (sr tr : Char) : Agent.sameRune folds sr tr = true ↔
    tr = sr ∨ letterCase sr.toNat tr.toNat = true ∨
      (0x80 ≤ max sr.toNat tr.toNat ∧
        folds (min sr.toNat tr.toNat) (max sr.toNat tr.toNat) = true) := by
  rw [Agent.sameRune]
  split_ifs with heq hlt
  · simp [heq]
  · have : ¬0x80 ≤ max sr.toNat tr.toNat := by omega
    simp [heq, this]
  · have hno : letterCase sr.toNat tr.toNat ≠ true := by
      intro h
      have := letterCase_lt h
      omega
    have : 0x80 ≤ max sr.toNat tr.toNat := by omega
    simp [heq, this, hno]

theorem foldRunes_iff (s t : Bytes) : Agent.foldRunes folds s t = true ↔
    List.Forall₂ (fun c d => Agent.sameRune folds c d = true) (runes s) (runes t) := by
  induction hn : s.length using Nat.strong_induction_on generalizing s t with
  | _ n ih =>
    subst hn
    cases s with
    | nil =>
      rw [Agent.foldRunes, runes_nil, List.forall₂_nil_left_iff]
      cases t with
      | nil => simp
      | cons b t => simp [runes]
    | cons a s =>
      cases t with
      | nil => simp [Agent.foldRunes, runes]
      | cons b t =>
        have hlt : (s.drop ((decodeRune (a :: s)).2 - 1)).length < (a :: s).length := by
          simp only [List.length_drop, List.length_cons]
          omega
        rw [Agent.foldRunes, Bool.and_eq_true, ih _ hlt _ _ rfl, runes, runes, List.forall₂_cons]

/-- **The agent compares rune by rune.** -/
theorem equalFold_iff (s t : Bytes) : Agent.equalFold folds s t = true ↔
    List.Forall₂ (fun c d => Agent.sameRune folds c d = true) (runes s) (runes t) := by
  induction s generalizing t with
  | nil =>
    rw [← foldRunes_iff]
    cases t <;> simp [Agent.equalFold, Agent.foldRunes]
  | cons a s ih =>
    cases t with
    | nil => simp [Agent.equalFold, runes]
    | cons b t =>
      rw [Agent.equalFold]
      by_cases hor : 0x80 ≤ a ||| b
      · rw [if_pos hor, foldRunes_iff]
      · -- both bytes are ASCII and runes of their own
        have hor' : (a ||| b).toNat < 0x80 := by
          rw [UInt8.not_le, UInt8.lt_iff_toNat_lt] at hor
          exact hor
        rw [UInt8.toNat_or] at hor'
        have ha : a < 0x80 := UInt8.lt_iff_toNat_lt.2 (lt_of_le_of_lt Nat.left_le_or hor')
        have hb : b < 0x80 := UInt8.lt_iff_toNat_lt.2 (lt_of_le_of_lt Nat.right_le_or hor')
        obtain ⟨c, hc, hrc⟩ := decodeRune_byte ha s
        obtain ⟨d, hd, hrd⟩ := decodeRune_byte hb t
        have hmax : ¬0x80 ≤ max c.toNat d.toNat := by
          rw [hc, hd]
          rw [UInt8.lt_iff_toNat_lt] at ha hb
          simp only [UInt8.reduceToNat] at ha hb
          omega
        have heq : b = a ↔ d = c := by
          rw [← UInt8.toNat_inj, ← hc, ← hd]
          exact ⟨toNat_inj, fun h => by rw [h]⟩
        rw [if_neg hor, hrc, hrd, List.forall₂_cons, sameRune_iff, ← ih, ← heq, hc, hd]
        rw [hc, hd] at hmax
        split_ifs with hab hcase
        · simp [hab]
        · simp [hcase]
        · simp [hab, hcase, hmax]

end

/-! ### What the module compares -/

theorem lower_toNat (c : UInt8) :
    (lower c).toNat = if 65 ≤ c.toNat ∧ c.toNat ≤ 90 then c.toNat + 32 else c.toNat :=
  (byte_values c).2.2.2.1

theorem lower_eq_iff (a b : UInt8) :
    lower a = lower b ↔ a = b ∨ letterCase a.toNat b.toNat = true := by
  have ha := lower_toNat a
  have hb := lower_toNat b
  rw [← UInt8.toNat_inj, ← UInt8.toNat_inj, letterCase]
  simp only [Bool.and_eq_true, decide_eq_true_eq]
  split_ifs at ha hb <;> omega

/-- Bytes that the module takes for the same. -/
abbrev SameBytes : Bytes → Bytes → Prop := List.Forall₂ fun a b => lower a = lower b

/-- A letter in either case, or one character. -/
def SameChar (c d : Char) : Prop := c = d ∨ letterCase c.toNat d.toNat = true

theorem strncasecmp_of_same {s t : Bytes} (h : SameBytes s t) (n : ℕ) : strncasecmp s t n = 0 := by
  induction h generalizing n with
  | nil => cases n <;> rfl
  | cons hab _ ih =>
    cases n with
    | zero => rfl
    | succ n =>
      rw [strncasecmp, if_pos hab]
      split_ifs
      · exact ih n
      · rfl

/-- Where no NUL stands before the end, the comparison reads everything. -/
theorem strncasecmp_eq_zero {s t : Bytes} (hlen : s.length = t.length) (hnul : 0 ∉ t.dropLast)
    (h : strncasecmp s t t.length = 0) : SameBytes s t := by
  induction t generalizing s with
  | nil =>
    obtain rfl := List.length_eq_zero_iff.1 hlen
    exact .nil
  | cons b t ih =>
    cases s with
    | nil => cases hlen
    | cons a s =>
      rw [List.length_cons, List.length_cons, Nat.add_right_cancel_iff] at hlen
      rw [List.length_cons, strncasecmp] at h
      split_ifs at h with hab ha
      · refine .cons hab (ih hlen ?_ h)
        intro hmem
        cases t with
        | nil => cases hmem
        | cons x t => exact hnul (List.mem_cons_of_mem _ hmem)
      · -- equal NULs: nothing follows
        have hb : b = 0 := by
          have ha := not_not.1 ha
          rw [hab] at ha
          exact (byte_values b).2.2.2.2 ha
        cases t with
        | nil =>
          obtain rfl := List.length_eq_zero_iff.1 hlen
          exact .cons hab .nil
        | cons x t => exact absurd (by rw [hb]; exact List.mem_cons_self) hnul
      · have hne : (lower a).toNat ≠ (lower b).toNat := fun h => hab (UInt8.toNat_inj.1 h)
        omega

theorem strncasecmp_nul {p q : Bytes} (h : SameBytes p q) (s t : Bytes) (n : ℕ) :
    strncasecmp (p ++ 0 :: s) (q ++ 0 :: t) n = 0 := by
  induction h generalizing n with
  | nil => cases n <;> rfl
  | cons hab _ ih =>
    cases n with
    | zero => rfl
    | succ n =>
      rw [List.cons_append, List.cons_append, strncasecmp, if_pos hab, ih]
      exact ite_self 0

/-! ### Bytes and characters -/

theorem bytes_high {c : Char} (hc : 0x80 ≤ c.toNat) {b : UInt8} (hb : b ∈ utf8EncodeChar c) :
    0x80 ≤ b.toNat := by
  have hvalid : c.val.toNat < 55296 ∨ 57343 < c.val.toNat ∧ c.val.toNat < 1114112 := c.valid
  change 0x80 ≤ c.val.toNat at hc
  unfold utf8EncodeChar at hb
  generalize c.val.toNat = v at hc hb hvalid
  simp only at hb
  rw [if_neg (by omega)] at hb
  split_ifs at hb <;>
    simp only [List.mem_cons, List.not_mem_nil, or_false] at hb <;>
    rcases hb with rfl | rfl | rfl | rfl <;>
    rw [Codec.toNat_ofNat_lt (by omega)] <;> omega

theorem ascii_char {c : Char} (hc : c.toNat < 0x80) :
    ∃ b : UInt8, utf8EncodeChar c = [b] ∧ b.toNat = c.toNat :=
  ⟨_, Codec.char_ascii hc, Codec.toNat_ofNat_lt (lt_trans (b := 0x80) hc (by omega))⟩

/-- Beyond ASCII nothing is folded. -/
theorem eq_of_same_high {s t : Bytes} (h : SameBytes s t) (ht : ∀ b ∈ t, 0x80 ≤ b.toNat) : s = t := by
  induction h with
  | nil => rfl
  | @cons a b s t hab _ ih =>
    have hb := ht b List.mem_cons_self
    rcases (lower_eq_iff a b).1 hab with rfl | hcase
    · rw [ih fun x hx => ht x (List.mem_cons_of_mem _ hx)]
    · have := letterCase_lt hcase
      omega

theorem same_encode {cs ds : List Char} (h : List.Forall₂ SameChar cs ds) :
    SameBytes (encode cs) (encode ds) := by
  induction h with
  | nil => exact .nil
  | @cons c d cs ds hcd _ ih =>
    refine List.rel_append ?_ ih
    rcases hcd with rfl | hcase
    · exact List.forall₂_same.2 fun _ _ => rfl
    · obtain ⟨hc, hd⟩ := letterCase_lt hcase
      obtain ⟨a, ha, hac⟩ := ascii_char hc
      obtain ⟨b, hb, hbd⟩ := ascii_char hd
      rw [ha, hb]
      refine .cons ((lower_eq_iff _ _).2 (.inr ?_)) .nil
      rw [hac, hbd]
      exact hcase

/-- Bytes that the module takes for the same are the same characters, but for the case of letters. -/
theorem runes_same {s t : Bytes} (h : SameBytes s t) :
    List.Forall₂ SameChar (runes s) (runes t) := by
  induction t using rune_induction generalizing s with
  | nil =>
    rw [SameBytes, List.forall₂_nil_right_iff] at h
    rw [h, runes_nil]
    exact .nil
  | char c t ih =>
    rw [runes_char]
    by_cases hc : c.toNat < 0x80
    · obtain ⟨b, hb, hval⟩ := ascii_char hc
      rw [hb, List.singleton_append, SameBytes, List.forall₂_cons_right_iff] at h
      obtain ⟨a, t, hab, ht, rfl⟩ := h
      have hcase := (lower_eq_iff _ _).1 hab
      rw [hval] at hcase
      have ha : a.toNat < 0x80 := by
        rcases hcase with rfl | hcase
        · omega
        · exact (letterCase_lt hcase).1
      obtain ⟨d, hd, hruns⟩ := decodeRune_byte (UInt8.lt_iff_toNat_lt.2 ha) t
      rw [hruns]
      refine .cons ?_ (ih ht)
      rcases hcase with rfl | hcase
      · exact .inl (toNat_inj (hd.trans hval))
      · exact .inr (by rw [hd]; exact hcase)
    · have hfront := List.forall₂_take_append s _ _ h
      have hrest := List.forall₂_drop_append s _ _ h
      have heq := eq_of_same_high hfront fun b hb => bytes_high (by omega) hb
      rw [← List.take_append_drop (utf8EncodeChar c).length s, heq, runes_char]
      exact .cons (.inl rfl) (ih hrest)
  | ill b t hill ih =>
    have hb : 0x80 ≤ b.toNat := by
      by_contra hlow
      obtain ⟨c, -, henc⟩ := Codec.char_of_byte (b := b) (UInt8.lt_iff_toNat_lt.2 (not_le.1 hlow))
      exact hill c (henc ▸ ⟨t, rfl⟩)
    rw [SameBytes, List.forall₂_cons_right_iff] at h
    obtain ⟨a, u, hab, hut, rfl⟩ := h
    obtain rfl : a = b := by
      have hone : [a] = [b] := eq_of_same_high (.cons hab .nil) (by simpa using hb)
      exact (List.cons.inj hone).1
    have hill' : IllAt (a :: u) := by
      rintro c ⟨v, hv⟩
      have hc : 0x80 ≤ c.toNat := by
        by_contra hlow
        obtain ⟨x, hx, hval⟩ := ascii_char (not_le.1 hlow)
        rw [hx, List.singleton_append] at hv
        rw [← (List.cons.inj hv).1] at hb
        omega
      -- the rest of the encoding is beyond ASCII, and so the same on both sides
      have hsame : SameBytes (utf8EncodeChar c ++ v) (a :: t) := hv ▸ .cons rfl hut
      have hfront := List.forall₂_take_append _ _ _ hsame.flip
      have heq := eq_of_same_high (hfront.imp fun _ _ => Eq.symm) fun x hx => bytes_high hc hx
      exact hill c (heq ▸ List.take_prefix _ _)
    rw [runes_ill hill, runes_ill hill']
    exact .cons (.inl rfl) (ih hut)

/-- A NUL that is not the last byte is a character that is not the last. -/
theorem exists_nul {cs : List Char} (h : 0 ∈ (encode cs).dropLast) :
    ∃ l c l', cs = l ++ '\x00' :: c :: l' := by
  induction cs with
  | nil => simp at h
  | cons c cs ih =>
    have hzero : ∀ {b : UInt8}, b = 0 → b ∈ utf8EncodeChar c → c = '\x00' := by
      rintro b rfl hb
      by_cases hc : c.toNat < 0x80
      · obtain ⟨b, hbyte, hval⟩ := ascii_char hc
        rw [hbyte, List.mem_singleton] at hb
        rw [← hb] at hval
        exact toNat_inj hval.symm
      · have := bytes_high (by omega) hb
        simp at this
    cases cs with
    | nil =>
      rw [encode_cons, encode_nil, List.append_nil] at h
      have hc := hzero rfl (List.mem_of_mem_dropLast h)
      subst hc
      simp [utf8EncodeChar] at h
    | cons d cs =>
      have hne : encode (d :: cs) ≠ [] := by
        have := length_char_pos d
        intro hnil
        have hlen := congrArg List.length hnil
        rw [encode_cons, List.length_append, List.length_nil] at hlen
        omega
      rw [encode_cons, List.dropLast_append_of_ne_nil hne, List.mem_append] at h
      rcases h with h | h
      · exact ⟨[], d, cs, by rw [hzero rfl h]; rfl⟩
      · obtain ⟨l, c', l', hl⟩ := ih h
        exact ⟨c :: l, c', l', by rw [hl]; rfl⟩

/-! ### The names with one answer -/

section

variable (folds : ℕ → ℕ → Bool)

/-- The name is well formed without U+FFFD, has no NUL before its end, and none of its characters
has another letter case beyond ASCII. -/
def PlainName (name : Bytes) : Prop :=
  '\uFFFD' ∉ runes name ∧ 0 ∉ name.dropLast ∧
    ∀ c ∈ runes name, ∀ d : Char, d ≠ c → 0x80 ≤ max d.toNat c.toNat →
      folds (min d.toNat c.toNat) (max d.toNat c.toNat) = false

variable {folds}

theorem sameRune_of_sameChar {c d : Char} (h : SameChar c d) : Agent.sameRune folds c d = true := by
  rcases h with rfl | hcase
  · exact (sameRune_iff folds _ _).2 (.inl rfl)
  · exact (sameRune_iff folds _ _).2 (.inr (.inl hcase))

theorem sameChar_of_sameRune {cs ds : List Char}
    (h : List.Forall₂ (fun c d => Agent.sameRune folds c d = true) cs ds)
    (hfold : ∀ c ∈ ds, ∀ d : Char, d ≠ c → 0x80 ≤ max d.toNat c.toNat →
      folds (min d.toNat c.toNat) (max d.toNat c.toNat) = false) :
    List.Forall₂ SameChar cs ds := by
  induction h with
  | nil => exact .nil
  | @cons c d cs ds hcd _ ih =>
    refine .cons ?_ (ih fun x hx => hfold x (List.mem_cons_of_mem _ hx))
    rcases (sameRune_iff folds _ _).1 hcd with heq | hcase | ⟨hmax, hf⟩
    · exact .inl heq.symm
    · exact .inr hcase
    · refine .inl (by_contra fun hne => ?_)
      rw [hfold d List.mem_cons_self c hne hmax] at hf
      cases hf

theorem replacement_not_mem {cs ds : List Char} (h : List.Forall₂ SameChar cs ds)
    (hds : '\uFFFD' ∉ ds) : '\uFFFD' ∉ cs := by
  induction h with
  | nil => exact hds
  | @cons c d cs ds hcd _ ih =>
    rw [List.mem_cons, not_or] at hds ⊢
    refine ⟨?_, ih hds.2⟩
    rintro rfl
    rcases hcd with heq | hcase
    · exact hds.1 heq
    · exact absurd (letterCase_lt hcase).1 (by decide)

theorem agree_of_plain {name : Bytes} (h : PlainName folds name) (item : Bytes) :
    Agent.equalFold folds item name = true ↔
      item.length = name.length ∧ strncasecmp item name name.length = 0 := by
  obtain ⟨hrep, hnul, hfold⟩ := h
  have hname := encode_runes hrep
  rw [equalFold_iff]
  constructor
  · intro hsame
    have hchars := sameChar_of_sameRune hsame hfold
    have hbytes := same_encode hchars
    rw [hname, encode_runes (replacement_not_mem hchars hrep)] at hbytes
    exact ⟨hbytes.length_eq, strncasecmp_of_same hbytes _⟩
  · rintro ⟨hlen, hcmp⟩
    have hbytes := strncasecmp_eq_zero hlen hnul hcmp
    rw [← hname] at hbytes
    rw [← runes_encode (runes name)]
    exact (runes_same hbytes).imp fun _ _ => sameRune_of_sameChar

/-- Two strings that differ in one place have the relation there. -/
theorem rel_middle {R : Char → Char → Prop} {l l₁ l₂ : List Char} {c d : Char}
    (h : List.Forall₂ R (l ++ c :: l₁) (l ++ d :: l₂)) : R c d ∧ List.Forall₂ R l₁ l₂ := by
  induction l with
  | nil =>
    cases h with
    | cons hcd hrest => exact ⟨hcd, hrest⟩
  | cons a l ih =>
    cases h with
    | cons _ hrest => exact ih hrest

theorem same_refl (l : List Char) :
    List.Forall₂ (fun c d => Agent.sameRune folds c d = true) l l :=
  List.forall₂_same.2 fun c _ => (sameRune_iff folds c c).2 (.inl rfl)

/-- A digit other than the character. -/
theorem exists_digit (c : Char) :
    ∃ x : Char, x ≠ c ∧ 48 ≤ x.toNat ∧ x.toNat ≤ 49 ∧ utf8EncodeChar x = [UInt8.ofNat x.toNat] := by
  by_cases hc : c = '0'
  · exact ⟨'1', by rw [hc]; decide, by decide, by decide, by decide⟩
  · exact ⟨'0', Ne.symm hc, by decide, by decide, by decide⟩

theorem length_encode_replicate {x : Char} (hx : utf8EncodeChar x = [UInt8.ofNat x.toNat]) (n : ℕ) :
    (encode (List.replicate n x)).length = n := by
  induction n with
  | zero => rfl
  | succ n ih => simp [List.replicate_succ, hx, ih]

/-- Behind a NUL the module reads nothing: a digit in place of the next character is the same to
it, and not to the agent. -/
theorem nul_last {name : Bytes} (hrep : '\uFFFD' ∉ runes name)
    (h : ∀ item, item.length = name.length → strncasecmp item name name.length = 0 →
      Agent.equalFold folds item name = true) : 0 ∉ name.dropLast := by
  intro hmem
  have hname := encode_runes hrep
  rw [← hname] at hmem
  obtain ⟨l, c, l', hl⟩ := exists_nul hmem
  obtain ⟨x, hne, hlow, hhigh, henc⟩ := exists_digit c
  have hitem := h (encode (l ++ '\x00' :: (List.replicate c.utf8Size x ++ l')))
    (by
      rw [← hname, hl]
      simp only [encode_append, encode_cons, List.length_append, length_encode_replicate henc,
        length_utf8EncodeChar])
    (by
      rw [← hname, hl, encode_append, encode_append]
      exact strncasecmp_nul (List.forall₂_same.2 fun _ _ => rfl) _ _ _)
  rw [equalFold_iff, runes_encode, hl] at hitem
  have hrest := (rel_middle hitem).2
  have hone : c.utf8Size = 1 := by
    have hlen := hrest.length_eq
    simp only [List.length_append, List.length_replicate, List.length_cons] at hlen
    omega
  have hc : c.toNat ≤ 0x7f := UInt32.le_iff_toNat_le.1 (Char.utf8Size_eq_one_iff.1 hone)
  rw [hone, List.replicate_one, List.singleton_append, List.forall₂_cons, sameRune_iff] at hrest
  rcases hrest.1 with heq | hcase | ⟨hmax, _⟩
  · exact hne heq.symm
  · simp only [letterCase, Bool.and_eq_true, decide_eq_true_eq] at hcase
    omega
  · omega

theorem plain_of_agree {name : Bytes}
    (h : ∀ item, Agent.equalFold folds item name = true ↔
      item.length = name.length ∧ strncasecmp item name name.length = 0) : PlainName folds name := by
  have hrep : '\uFFFD' ∉ runes name := by
    intro hmem
    obtain ⟨item, hruns, hlen⟩ := exists_other_length hmem
    refine hlen ((h item).1 ((equalFold_iff folds _ _).2 ?_)).1
    rw [hruns]
    exact same_refl _
  have hname := encode_runes hrep
  have hnul := nul_last hrep fun item hlen hcmp => (h item).2 ⟨hlen, hcmp⟩
  refine ⟨hrep, hnul, fun c hc d hdc hmax => ?_⟩
  by_contra hf
  rw [Bool.not_eq_false] at hf
  obtain ⟨l, l', hl⟩ := List.append_of_mem hc
  have hsame : List.Forall₂ (fun c d => Agent.sameRune folds c d = true) (l ++ d :: l') (l ++ c :: l') :=
    List.rel_append (same_refl l)
      (.cons ((sameRune_iff folds d c).2 (.inr (.inr ⟨hmax, hf⟩))) (same_refl l'))
  obtain ⟨hlen, hcmp⟩ := (h (encode (l ++ d :: l'))).1
    ((equalFold_iff folds _ _).2 (by rw [runes_encode, hl]; exact hsame))
  have hbytes := strncasecmp_eq_zero hlen hnul hcmp
  rw [← hname, hl] at hbytes
  have hchars := runes_same hbytes
  rw [runes_encode, runes_encode] at hchars
  rcases (rel_middle hchars).1 with heq | hcase
  · exact hdc heq
  · have := letterCase_lt hcase
    omega

/-- **The names to which every list has one answer.** -/
theorem every_list_agrees_iff (name : Bytes) :
    (∀ list, previewListed list name = nameListed list name ∧
      Agent.listed folds (list.getD []) name = nameListed list name) ↔ PlainName folds name := by
  constructor
  · intro h
    refine plain_of_agree fun item => ?_
    have hone := (h (some [item])).2
    simp only [Agent.listed, nameListed, listedIn, Option.getD_some, List.any_cons, List.any_nil,
      Bool.or_false] at hone
    rw [hone, Bool.and_eq_true, decide_eq_true_eq, decide_eq_true_eq]
  · rintro h (_ | items)
    · exact ⟨rfl, rfl⟩
    · refine ⟨rfl, ?_⟩
      simp only [Agent.listed, nameListed, listedIn, Option.getD_some]
      congr 1
      funext item
      rw [Bool.eq_iff_iff, agree_of_plain h, Bool.and_eq_true, decide_eq_true_eq, decide_eq_true_eq]

/-! ### The lists and names with one answer -/

variable (folds)

/-- The two characters are one, a letter in its two cases, or one folds to the other beyond ASCII. -/
def Folded (c d : Char) : Prop :=
  SameChar c d ∨ 0x80 ≤ max c.toNat d.toNat ∧
    folds (min c.toNat d.toNat) (max c.toNat d.toNat) = true

/-- Not the same letters, but the same characters to one who folds beyond ASCII and reads
ill-formed bytes as U+FFFD. -/
def FoldTwin (item name : Bytes) : Prop :=
  ¬SameBytes item name ∧ List.Forall₂ (Folded folds) (runes item) (runes name)

/-- Not the same letters, but of one length and the same up to a NUL. -/
def NulTwin (item name : Bytes) : Prop :=
  ¬SameBytes item name ∧ item.length = name.length ∧
    ∃ p q s t, item = p ++ 0 :: s ∧ name = q ++ 0 :: t ∧ SameBytes p q

/-- The list has the name itself, in letters of any case, or twins of both kinds, or of neither. -/
def OneAnswer (items : List Bytes) (name : Bytes) : Prop :=
  (∃ item ∈ items, SameBytes item name) ∨
    ((∃ item ∈ items, FoldTwin folds item name) ↔ ∃ item ∈ items, NulTwin item name)

variable {folds}

theorem folded_iff {c d : Char} : Folded folds c d ↔ Agent.sameRune folds c d = true := by
  rw [sameRune_iff, Folded, SameChar, or_assoc, eq_comm (a := c)]

/-- What the agent finds. -/
theorem equalFold_iff_twin {item name : Bytes} :
    Agent.equalFold folds item name = true ↔ SameBytes item name ∨ FoldTwin folds item name := by
  have hfold : List.Forall₂ (Folded folds) (runes item) (runes name) ↔
      Agent.equalFold folds item name = true := by
    rw [equalFold_iff]
    exact ⟨fun h => h.imp fun _ _ => folded_iff.1, fun h => h.imp fun _ _ => folded_iff.2⟩
  rw [FoldTwin, hfold]
  by_cases hsame : SameBytes item name
  · have hyes := hfold.1 ((runes_same hsame).imp fun _ _ => Or.inl)
    exact iff_of_true hyes (.inl hsame)
  · simp [hsame]

/-- A comparison that finds no difference has read everything, or stopped at a NUL. -/
theorem strncasecmp_cases {s t : Bytes} (hlen : s.length = t.length)
    (h : strncasecmp s t t.length = 0) :
    SameBytes s t ∨ ∃ p q u v, s = p ++ 0 :: u ∧ t = q ++ 0 :: v ∧ SameBytes p q := by
  induction t generalizing s with
  | nil =>
    obtain rfl := List.length_eq_zero_iff.1 hlen
    exact .inl .nil
  | cons b t ih =>
    cases s with
    | nil => cases hlen
    | cons a s =>
      rw [List.length_cons, List.length_cons, Nat.add_right_cancel_iff] at hlen
      rw [List.length_cons, strncasecmp] at h
      split_ifs at h with hab ha
      · rcases ih hlen h with hsame | ⟨p, q, u, v, rfl, rfl, hpq⟩
        · exact .inl (.cons hab hsame)
        · exact .inr ⟨a :: p, b :: q, u, v, rfl, rfl, .cons hab hpq⟩
      · have ha := not_not.1 ha
        have hb := ha
        rw [hab] at hb
        obtain rfl := (byte_values a).2.2.2.2 ha
        obtain rfl := (byte_values b).2.2.2.2 hb
        exact .inr ⟨[], [], s, t, rfl, rfl, .nil⟩
      · have hne : (lower a).toNat ≠ (lower b).toNat := fun h => hab (UInt8.toNat_inj.1 h)
        omega

/-- What the module finds. -/
theorem strncasecmp_iff_twin {item name : Bytes} :
    (item.length = name.length ∧ strncasecmp item name name.length = 0) ↔
      SameBytes item name ∨ NulTwin item name := by
  constructor
  · rintro ⟨hlen, hcmp⟩
    by_cases hsame : SameBytes item name
    · exact .inl hsame
    · exact .inr ⟨hsame, hlen, (strncasecmp_cases hlen hcmp).resolve_left hsame⟩
  · rintro (hsame | ⟨-, hlen, p, q, s, t, rfl, rfl, hpq⟩)
    · exact ⟨hsame.length_eq, strncasecmp_of_same hsame _⟩
    · exact ⟨hlen, strncasecmp_nul hpq s t _⟩

/-- **The lists and names to which all three have one answer.** -/
theorem lists_agree_iff (list : Option (List Bytes)) (name : Bytes) :
    (previewListed list name = nameListed list name ∧
      Agent.listed folds (list.getD []) name = nameListed list name) ↔
      OneAnswer folds (list.getD []) name := by
  have hmodule : nameListed list name = true ↔
      (∃ item ∈ list.getD [], SameBytes item name) ∨ ∃ item ∈ list.getD [], NulTwin item name := by
    rw [← exists_or]
    simp only [← and_or_left, ← strncasecmp_iff_twin]
    cases list with
    | none => simp [nameListed, listedIn]
    | some items => simp [nameListed, listedIn]
  have hagent : Agent.listed folds (list.getD []) name = true ↔
      (∃ item ∈ list.getD [], SameBytes item name) ∨
        ∃ item ∈ list.getD [], FoldTwin folds item name := by
    rw [← exists_or]
    simp only [← and_or_left, ← equalFold_iff_twin, Agent.listed, List.any_eq_true]
  have hpreview : previewListed list name = nameListed list name := rfl
  rw [and_iff_right hpreview, Bool.eq_iff_iff, hmodule, hagent]
  unfold OneAnswer
  by_cases hname : ∃ item ∈ list.getD [], SameBytes item name
  · exact iff_of_true (iff_of_true (.inl hname) (.inl hname)) (.inl hname)
  · rw [or_iff_right hname, or_iff_right hname, or_iff_right hname]

end

/-- **Where module and agent agree.**  The three decode a name alike unless the record has no memory
for its copy and there is something to decode; they look a name up alike in the lists that have the
name itself, or twins of both kinds or of neither. -/
theorem names_agree_iff (folds : ℕ → ℕ → Bool) :
    (∀ alloc raw, (Agent.argName raw = argName raw ∧ previewArgName alloc raw = argName raw) ↔
      (alloc = true ∨ Undecoded raw)) ∧
    (∀ list name, (previewListed list name = nameListed list name ∧
      Agent.listed folds (list.getD []) name = nameListed list name) ↔
      OneAnswer folds (list.getD []) name) :=
  ⟨fun alloc raw => by
    rw [previewArgName_eq_iff, argName_eq_self_iff]
    exact and_iff_right (agent_argName_eq raw), lists_agree_iff⟩

/-- The list holds `Ä`, the name is `ä`. -/
theorem umlaut_listed_by_agent_only :
    argName [37, 67, 51, 37, 65, 52] = [0xc3, 0xa4] ∧
      nameListed (some [[0xc3, 0x84]]) [0xc3, 0xa4] = false ∧
      Agent.listed (fun sr tr => sr = 0xc4 && tr = 0xe4) [[0xc3, 0x84]] [0xc3, 0xa4] = true := by
  have hupper : runes [0xc3, 0x84] = ['Ä'] := runes_encode ['Ä']
  have hlower : runes [0xc3, 0xa4] = ['ä'] := runes_encode ['ä']
  refine ⟨?_, by decide, ?_⟩
  · have hc3 : hextoi [67, 51] = some 0xc3 := by decide
    have ha4 : hextoi [65, 52] = some 0xa4 := by decide
    simp [argName, hc3, ha4]
  · rw [Agent.listed, List.any_cons, List.any_nil, Bool.or_false, equalFold_iff, hupper, hlower]
    exact .cons (by decide) .nil

end Names
