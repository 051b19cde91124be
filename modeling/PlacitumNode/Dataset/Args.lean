import PlacitumNode.Agent.Names

/-!
# The arguments of the local checks (`local/ngx_http_waf_select.c`)

The checks against datasets decode the query string with a decoder of their own, which leaves each
percent sequence to nginx.

* `unescapeUri`: the state machine of nginx;
* `unescape`, `pairsArgs`: the decoder and the loop over the parts of the query string;
* `unescape_eq_iff`: where it decodes as `ngx_http_waf_arg_name` does;
* `pairs_decoded_iff`: the same for all names and values of a query string.
-/

namespace Args

open Octets String Names Numerals

/-! ### Decoding -/

/-- The states of `ngx_unescape_uri`. -/
inductive Quoting
  | usual
  | quoted
  | quotedSecond (decoded : UInt8)

/-- `ngx_unescape_uri` with the type 0; it reads everything it is given. -/
def unescapeUri : Quoting → Bytes → Bytes
  | _, [] => []
  | .usual, ch :: s => if ch = 37 then unescapeUri .quoted s else ch :: unescapeUri .usual s
  | .quoted, ch :: s =>
    if 48 ≤ ch && ch ≤ 57 then unescapeUri (.quotedSecond (ch - 48)) s
    else if 97 ≤ ch ||| 0x20 && ch ||| 0x20 ≤ 102 then
      unescapeUri (.quotedSecond ((ch ||| 0x20) - 97 + 10)) s
    else ch :: unescapeUri .usual s
  | .quotedSecond decoded, ch :: s =>
    if 48 ≤ ch && ch ≤ 57 then (decoded <<< 4 + (ch - 48)) :: unescapeUri .usual s
    else if 97 ≤ ch ||| 0x20 && ch ||| 0x20 ≤ 102 then
      (decoded <<< 4 + ((ch ||| 0x20) - 97) + 10) :: unescapeUri .usual s
    else unescapeUri .usual s

/-- The loop of `ngx_http_waf_unescape` -/
def unescape : Bytes → Bytes
  | [] => []
  | c :: s =>
    if c = 43 then 32 :: unescape s
    else if c = 37 ∧ 3 ≤ (c :: s).length then
      match unescapeUri .usual ((c :: s).take 3) with
      | [] => c :: unescape s
      | d => d ++ unescape (s.drop 2)
    else c :: unescape s
termination_by s => s.length
decreasing_by all_goals simp only [List.length_drop, List.length_cons]; omega

/-- `ngx_http_waf_unescape`; `mem` says whether there is memory for the copy. -/
def unescapeIn (mem : Bool) (src : Bytes) : Option Bytes :=
  if src.length = 0 then some [] else if mem then some (unescape src) else none

/-! ### Names and values -/

def rawName (part : Bytes) : Bytes := part.takeWhile (· ≠ 61)

def rawValue (part : Bytes) : Bytes := (part.dropWhile (· ≠ 61)).drop 1

/-- `ngx_http_waf_pairs_args` on the rest of the query string; `mem` says which of the allocations
succeed. -/
def pairsArgs (mem : ℕ → Bool) (n : ℕ) : Bytes → Option (List (Bytes × Bytes))
  | [] => some []
  | c :: p =>
    if c = 38 then pairsArgs mem n p
    else
      let part := (c :: p).takeWhile (· ≠ 38)
      if mem n then
        match unescapeIn (mem (n + 1)) (rawName part), unescapeIn (mem (n + 2)) (rawValue part) with
        | some name, some value =>
          (pairsArgs mem (n + 3) (((c :: p).dropWhile (· ≠ 38)).drop 1)).map ((name, value) :: ·)
        | _, _ => none
      else none
termination_by p => p.length
decreasing_by
  · simp
  · have := (List.dropWhile_sublist (l := c :: p) (· ≠ 38)).length_le
    simp only [List.length_drop, List.length_cons] at this ⊢
    omega

/-- The parts between the separators that are not empty. -/
def parts (query : Bytes) : List Bytes := (query.splitOn 38).filter (· ≠ [])

/-- The names and values as the rest of the module decodes them. -/
def argPairs (query : Bytes) : List (Bytes × Bytes) :=
  (parts query).map fun part => (argName (rawName part), argName (rawValue part))

/-- Every percent sign with two bytes behind it has a digit behind it. -/
def Intact (raw : Bytes) : Prop :=
  ∀ before h l after, raw = before ++ 37 :: h :: l :: after → isHex h = true

/-! ### What nginx makes of three bytes -/

theorem digit_eq (ch : UInt8) :
    (if 48 ≤ ch && ch ≤ 57 then some (ch - 48)
      else if 97 ≤ ch ||| 0x20 && ch ||| 0x20 ≤ 102 then some ((ch ||| 0x20) - 97 + 10)
      else none) = if isHex ch then some (nibble ch) else none := by
  revert ch
  exact forall_byte (by decide +kernel)

theorem quoted_eq (ch : UInt8) (s : Bytes) : unescapeUri .quoted (ch :: s) =
    if isHex ch then unescapeUri (.quotedSecond (nibble ch)) s else ch :: unescapeUri .usual s := by
  have h := digit_eq ch
  rw [unescapeUri]
  split_ifs at h ⊢ <;> simp_all

theorem quotedSecond_eq (decoded ch : UInt8) (s : Bytes) :
    unescapeUri (.quotedSecond decoded) (ch :: s) =
      if isHex ch then (decoded <<< 4 + nibble ch) :: unescapeUri .usual s
      else unescapeUri .usual s := by
  have h := digit_eq ch
  rw [unescapeUri]
  split_ifs at h ⊢ <;> simp_all [UInt8.add_assoc]

theorem shift_add : ∀ d < 16, ∀ e < 16,
    UInt8.ofNat d <<< 4 + UInt8.ofNat e = UInt8.ofNat (d * 16 + e) := by
  decide +kernel

/-- A well-formed sequence is its byte; of the others nginx drops the percent sign when no digit
follows, and everything when one digit does. -/
theorem unescapeUri_three (h l : UInt8) : unescapeUri .usual [37, h, l] =
    match hextoi [h, l] with
    | some v => [UInt8.ofNat v]
    | none => if isHex h then [] else h :: if l = 37 then [] else [l] := by
  rw [hextoi_pair, hexValueOf_eq, hexValueOf_eq, unescapeUri, if_pos rfl, quoted_eq]
  cases hh : isHex h with
  | false => split_ifs <;> simp_all [unescapeUri]
  | true =>
    rw [if_pos rfl, quotedSecond_eq]
    cases hl : isHex l with
    | false => rfl
    | true =>
      have hshift := shift_add _ (nibble_lt hh) _ (nibble_lt hl)
      rw [UInt8.ofNat_toNat, UInt8.ofNat_toNat] at hshift
      simp [unescapeUri, hshift]

/-! ### One step of the two decoders -/

@[simp] theorem unescape_nil : unescape [] = [] := by rw [unescape]

theorem unescape_plain {c : UInt8} (hc : c ≠ 37) (s : Bytes) :
    unescape (c :: s) = (if c = 43 then 32 else c) :: unescape s := by
  rw [unescape, if_neg (c := c = 37 ∧ _) fun h => hc h.1]
  split_ifs <;> rfl

theorem argName_other {c : UInt8} (hc : c ≠ 37) (s : Bytes) :
    argName (c :: s) = (if c = 43 then 32 else c) :: argName s := by
  rw [argName, if_neg (c := c = 37 ∧ _) fun h => hc h.1]
  split_ifs <;> rfl

theorem unescape_percent (h l : UInt8) (s : Bytes) : unescape (37 :: h :: l :: s) =
    match hextoi [h, l] with
    | some v => UInt8.ofNat v :: unescape s
    | none =>
      if isHex h then 37 :: unescape (h :: l :: s)
      else h :: if l = 37 then unescape s else l :: unescape s := by
  rw [unescape, if_neg (by decide), if_pos ⟨rfl, by simp⟩]
  simp only [List.take_succ_cons, List.take_zero, unescapeUri_three]
  cases hextoi [h, l] with
  | some v => rfl
  | none =>
    cases isHex h with
    | true => rfl
    | false => by_cases hl : l = 37 <;> simp [hl]

theorem argName_percent (h l : UInt8) (s : Bytes) : argName (37 :: h :: l :: s) =
    match hextoi [h, l] with
    | some v => UInt8.ofNat v :: argName s
    | none => 37 :: argName (h :: l :: s) := by
  rw [argName, if_neg (by decide), if_pos ⟨rfl, by simp⟩]
  rfl

theorem unescape_short {s : Bytes} (h : s.length < 2) : unescape (37 :: s) = 37 :: unescape s := by
  rw [unescape, if_neg (by decide), if_neg (by simp only [List.length_cons]; omega)]

theorem argName_short {s : Bytes} (h : s.length < 2) : argName (37 :: s) = 37 :: argName s := by
  rw [argName, if_neg (by decide), if_neg (by omega)]

theorem intact_cons {c : UInt8} {s : Bytes} :
    Intact (c :: s) ↔ (c = 37 → ∀ h l t, s = h :: l :: t → isHex h = true) ∧ Intact s := by
  constructor
  · intro hc
    refine ⟨?_, fun before h l after hs => hc (c :: before) h l after (by rw [hs]; rfl)⟩
    rintro rfl h l t rfl
    exact hc [] h l t rfl
  · rintro ⟨hc, hs⟩ before h l after heq
    cases before with
    | nil =>
      obtain ⟨rfl, rfl⟩ := List.cons_eq_cons.mp heq
      exact hc rfl h l after rfl
    | cons b before =>
      obtain ⟨rfl, rfl⟩ := List.cons_eq_cons.mp heq
      exact hs before h l after rfl

/-- The two decoders take the same step, or a percent sign without a digit is reached. -/
theorem step_cases (s : Bytes) : s = [] ∨
    (∃ o t, t.length < s.length ∧ unescape s = o :: unescape t ∧ argName s = o :: argName t ∧
      (Intact s ↔ Intact t)) ∨
    (∃ h l t, s = 37 :: h :: l :: t ∧ isHex h = false ∧
      unescape s = (h :: if l = 37 then unescape t else l :: unescape t) ∧
      argName s = 37 :: argName (h :: l :: t)) := by
  cases s with
  | nil => exact .inl rfl
  | cons c s =>
    by_cases hc : c = 37
    · subst hc
      rcases s with - | ⟨h, - | ⟨l, t⟩⟩
      · exact .inr (.inl ⟨37, [], by simp, unescape_short (by simp), argName_short (by simp),
          by rw [intact_cons]; simp⟩)
      · exact .inr (.inl ⟨37, [h], by simp, unescape_short (by simp), argName_short (by simp),
          by rw [intact_cons]; simp⟩)
      · rw [unescape_percent, argName_percent]
        cases hv : hextoi [h, l] with
        | some v =>
          have hhex : isHex h = true ∧ isHex l = true := by
            rw [hextoi_pair, hexValueOf_eq, hexValueOf_eq] at hv
            split_ifs at hv with hh hl
            · exact ⟨hh, hl⟩
            all_goals simp at hv
          have hne : ∀ {x : UInt8}, isHex x = true → x ≠ 37 := by
            rintro x hx rfl
            exact absurd hx (by decide)
          refine .inr (.inl ⟨UInt8.ofNat v, t, by simp only [List.length_cons]; omega, rfl, rfl, ?_⟩)
          rw [intact_cons, intact_cons, intact_cons]
          simp [hhex.1, hne hhex.1, hne hhex.2]
        | none =>
          cases hh : isHex h with
          | true =>
            refine .inr (.inl ⟨37, h :: l :: t, by simp, by simp, rfl, ?_⟩)
            rw [intact_cons]
            simp [hh]
          | false => exact .inr (.inr ⟨h, l, t, rfl, hh, by simp, rfl⟩)
    · exact .inr (.inl ⟨_, s, by simp, unescape_plain hc s, argName_other hc s,
        by rw [intact_cons]; simp [hc]⟩)

/-! ### Where the decoders part, they stay apart -/

theorem argName_ne_three (s : Bytes) : argName s ≠ 51 :: unescape s := by
  induction hn : s.length using Nat.strong_induction_on generalizing s with
  | _ n ih =>
    subst hn
    intro heq
    rcases step_cases s with rfl | ⟨o, t, hlt, hu, ha, -⟩ | ⟨h, l, t, rfl, -, -, ha⟩
    · simp at heq
    · rw [ha, hu] at heq
      obtain ⟨rfl, hrest⟩ := List.cons_eq_cons.mp heq
      exact ih _ hlt t rfl hrest
    · rw [ha] at heq
      exact absurd (List.cons_eq_cons.mp heq).1 (by decide)

theorem argName_double (s : Bytes) : argName (37 :: 37 :: s) = 37 :: argName (37 :: s) := by
  cases s with
  | nil => exact argName_short (by simp)
  | cons l s =>
    have hno : hextoi [37, l] = none := by
      rw [hextoi_pair, hexValueOf_eq, if_neg (by decide)]
      rfl
    rw [argName_percent, hno]

theorem percents_cons (k : ℕ) (s : Bytes) :
    List.replicate k 37 ++ 37 :: s = List.replicate (k + 1) 37 ++ s := by
  rw [List.replicate_succ', List.append_assoc, List.singleton_append]

/-- What is left begins with a percent sign, which is one more that is missing. -/
theorem percents_step {k : ℕ} {s : Bytes}
    (h : unescape s = List.replicate (k + 1) 37 ++ argName (37 :: s)) :
    unescape s = List.replicate (k + 2) 37 ++ argName s := by
  cases s with
  | nil => simp at h
  | cons c s =>
    by_cases hc : c = 37
    · subst hc
      rw [h, argName_double, percents_cons]
    · rw [unescape_plain hc, List.replicate_succ, List.cons_append] at h
      have hfirst := (List.cons_eq_cons.mp h).1
      split_ifs at hfirst
      · exact absurd hfirst (by decide)
      · exact absurd hfirst hc

/-- The percent signs that nginx has dropped are not made up for. -/
theorem unescape_ne_percents (k : ℕ) (s : Bytes) :
    unescape s ≠ List.replicate (k + 1) 37 ++ argName s := by
  induction hn : s.length using Nat.strong_induction_on generalizing s k with
  | _ n ih =>
    subst hn
    intro heq
    rcases step_cases s with rfl | ⟨o, t, hlt, hu, ha, -⟩ | ⟨h, l, t, rfl, -, hu, ha⟩
    · simp at heq
    · rw [ha, hu, List.replicate_succ, List.cons_append] at heq
      obtain ⟨rfl, hrest⟩ := List.cons_eq_cons.mp heq
      exact ih _ hlt k t rfl (by rw [hrest, percents_cons])
    · -- the text has two percent signs at least, so two more follow this one
      rw [ha, hu, percents_cons, List.replicate_succ, List.cons_append] at heq
      obtain ⟨rfl, hrest⟩ := List.cons_eq_cons.mp heq
      split_ifs at hrest with hl
      · subst hl
        rw [argName_double, percents_cons] at hrest
        exact ih t.length (by simp only [List.length_cons]; omega) (k + 2) t rfl
          (percents_step hrest)
      · rw [List.replicate_succ, List.cons_append] at hrest
        exact hl (List.cons_eq_cons.mp hrest).1

/-- The only sequence that stands for its own first digit. -/
theorem own_digit {h l : UInt8} {v : ℕ} (hv : hextoi [h, l] = some v) (hh : UInt8.ofNat v = h) :
    h = 51 ∧ l = 51 := by
  have hfirst : ∀ h : UInt8, isHex h = true → ∀ e < 16,
      UInt8.ofNat ((nibble h).toNat * 16 + e) = h → h = 51 ∧ e = 3 :=
    forall_byte (P := fun h => isHex h = true → ∀ e < 16,
      UInt8.ofNat ((nibble h).toNat * 16 + e) = h → h = 51 ∧ e = 3) (by decide +kernel)
  have hsecond : ∀ l : UInt8, isHex l = true → (nibble l).toNat = 3 → l = 51 :=
    forall_byte (P := fun l => isHex l = true → (nibble l).toNat = 3 → l = 51) (by decide +kernel)
  rw [hextoi_pair, hexValueOf_eq, hexValueOf_eq] at hv
  split_ifs at hv with hxh hxl
  · simp only [Option.bind_some, Option.map_some, Option.some.injEq] at hv
    subst hv
    obtain ⟨h3, he⟩ := hfirst h hxh _ (nibble_lt hxl) hh
    exact ⟨h3, hsecond l hxl he⟩
  all_goals simp at hv

/-- A percent sign without a digit behind it is decoded differently. -/
theorem unescape_ne_of_broken {h l : UInt8} {t : Bytes} :
    (h :: if l = 37 then unescape t else l :: unescape t) ≠ 37 :: argName (h :: l :: t) := by
  intro heq
  obtain ⟨rfl, hrest⟩ := List.cons_eq_cons.mp heq
  split_ifs at hrest with hl
  · subst hl
    rw [argName_double] at hrest
    exact unescape_ne_percents 1 t (percents_step hrest)
  · cases t with
    | nil =>
      rw [argName_short (by simp)] at hrest
      exact hl (List.cons_eq_cons.mp hrest).1
    | cons c t =>
      rw [argName_percent] at hrest
      cases hv : hextoi [l, c] with
      | none =>
        rw [hv] at hrest
        exact hl (List.cons_eq_cons.mp hrest).1
      | some v =>
        rw [hv] at hrest
        obtain ⟨hbyte, htail⟩ := List.cons_eq_cons.mp hrest
        obtain ⟨rfl, rfl⟩ := own_digit hv hbyte.symm
        rw [unescape_plain (by decide)] at htail
        exact argName_ne_three t htail.symm

/-- **Where the local checks decode as the rest of the module does.** -/
theorem unescape_eq_iff (s : Bytes) : unescape s = argName s ↔ Intact s := by
  induction hn : s.length using Nat.strong_induction_on generalizing s with
  | _ n ih =>
    subst hn
    rcases step_cases s with rfl | ⟨o, t, hlt, hu, ha, hiff⟩ | ⟨h, l, t, rfl, hh, hu, ha⟩
    · simp [Intact]
    · rw [hu, ha, List.cons_eq_cons, and_iff_right rfl, ih _ hlt t rfl, hiff]
    · refine iff_of_false (by rw [hu, ha]; exact unescape_ne_of_broken) fun hintact => ?_
      rw [hintact [] h l t rfl] at hh
      cases hh

/-! ### The loop over the parts -/

theorem parts_cons_amp (p : Bytes) : parts (38 :: p) = parts p := by
  have h : (38 :: p).splitOn 38 = [] :: p.splitOn 38 :=
    List.splitOn_append_cons_self_of_not_mem List.not_mem_nil p
  rw [parts, h, List.filter_cons_of_neg (by simp), parts]

theorem not_mem_takeWhile (p : Bytes) : (38 : UInt8) ∉ p.takeWhile (· ≠ 38) := by
  intro h
  simpa using List.mem_takeWhile_imp h

/-- The first part and the parts after the separator that ends it. -/
theorem parts_cons {c : UInt8} (hc : c ≠ 38) (p : Bytes) : parts (c :: p) =
    (c :: p).takeWhile (· ≠ 38) :: parts (((c :: p).dropWhile (· ≠ 38)).drop 1) := by
  have hne : (c :: p).takeWhile (· ≠ 38) ≠ [] := by simp [hc]
  have hno := not_mem_takeWhile (c :: p)
  have hsplit := List.takeWhile_append_dropWhile (p := (· ≠ (38 : UInt8))) (l := c :: p)
  cases hrest : (c :: p).dropWhile (· ≠ 38) with
  | nil =>
    rw [hrest, List.append_nil] at hsplit
    have hall : (c :: p).splitOn 38 = [c :: p] :=
      List.splitOn_eq_singleton (by rw [← hsplit]; exact hno)
    rw [parts, hall, hsplit]
    simp [parts]
  | cons b rest =>
    have hb : b = 38 := by
      have := List.head?_dropWhile_not (p := (· ≠ (38 : UInt8))) (l := c :: p)
      rw [hrest] at this
      simpa using this
    subst hb
    rw [hrest] at hsplit
    rw [parts, ← hsplit, List.splitOn_append_cons_self_of_not_mem hno,
      List.filter_cons_of_pos (by simpa using hne), hsplit]
    rfl

/-- What the loop makes of a name or a value when there is memory for it. -/
theorem unescapeIn_some {mem : Bool} {src out : Bytes} (h : unescapeIn mem src = some out) :
    out = unescape src := by
  rw [unescapeIn] at h
  split_ifs at h with hlen hmem
  · rw [List.length_eq_zero_iff.mp hlen, unescape_nil]
    exact (Option.some.inj h).symm
  · exact (Option.some.inj h).symm

theorem unescapeIn_true (src : Bytes) : unescapeIn true src = some (unescape src) := by
  rw [unescapeIn, if_pos rfl]
  split_ifs with hlen
  · rw [List.length_eq_zero_iff.mp hlen, unescape_nil]
  · rfl

/-- The names and values that are produced. -/
def localPairs (query : Bytes) : List (Bytes × Bytes) :=
  (parts query).map fun part => (unescape (rawName part), unescape (rawValue part))

theorem localPairs_cons {c : UInt8} (hc : c ≠ 38) (p : Bytes) : localPairs (c :: p) =
    (unescape (rawName ((c :: p).takeWhile (· ≠ 38))),
      unescape (rawValue ((c :: p).takeWhile (· ≠ 38)))) ::
      localPairs (((c :: p).dropWhile (· ≠ 38)).drop 1) := by
  rw [localPairs, parts_cons hc, List.map_cons, localPairs]

theorem rest_lt (c : UInt8) (p : Bytes) :
    (((c :: p).dropWhile (· ≠ 38)).drop 1).length < (c :: p).length := by
  have := (List.dropWhile_sublist (l := c :: p) (· ≠ 38)).length_le
  simp only [List.length_drop, List.length_cons] at this ⊢
  omega

/-- The loop produces these, or has no memory. -/
theorem pairsArgs_some {mem : ℕ → Bool} {n : ℕ} {query : Bytes} {pairs : List (Bytes × Bytes)}
    (h : pairsArgs mem n query = some pairs) : pairs = localPairs query := by
  induction hn : query.length using Nat.strong_induction_on generalizing query n pairs with
  | _ k ih =>
    subst hn
    cases query with
    | nil =>
      rw [pairsArgs] at h
      exact (Option.some.inj h).symm
    | cons c p =>
      rw [pairsArgs] at h
      split_ifs at h with hamp hmem
      · subst hamp
        rw [localPairs, parts_cons_amp]
        exact ih _ (by simp) h rfl
      · simp only at h
        split at h
        · next name value hname hvalue =>
          obtain ⟨rest, hrest, rfl⟩ := Option.map_eq_some_iff.mp h
          rw [localPairs_cons hamp, ← unescapeIn_some hname, ← unescapeIn_some hvalue,
            ih _ (rest_lt c p) hrest rfl]
        · cases h

theorem pairsArgs_true (n : ℕ) (query : Bytes) :
    pairsArgs (fun _ => true) n query = some (localPairs query) := by
  induction hn : query.length using Nat.strong_induction_on generalizing query n with
  | _ k ih =>
    subst hn
    cases query with
    | nil =>
      rw [pairsArgs]
      rfl
    | cons c p =>
      rw [pairsArgs]
      by_cases hamp : c = 38
      · subst hamp
        rw [if_pos rfl, localPairs, parts_cons_amp]
        exact ih _ (by simp) n p rfl
      · rw [if_neg hamp, if_pos rfl]
        simp only [unescapeIn_true, ih _ (rest_lt c p) (n + 3) _ rfl, localPairs_cons hamp,
          Option.map_some]

/-- **When the local checks see the names and values that the rest of the module sees.**  No name
and no value has a percent sign with two bytes behind it of which the first is not a digit. -/
theorem pairs_decoded_iff (query : Bytes) :
    (∀ mem pairs, pairsArgs mem 0 query = some pairs → pairs = argPairs query) ↔
      ∀ part ∈ parts query, Intact (rawName part) ∧ Intact (rawValue part) := by
  have hpairs : (∀ mem pairs, pairsArgs mem 0 query = some pairs → pairs = argPairs query) ↔
      localPairs query = argPairs query := by
    constructor
    · intro h
      exact h _ _ (pairsArgs_true 0 query)
    · intro h mem pairs hrun
      rw [pairsArgs_some hrun, h]
  rw [hpairs, localPairs, argPairs, List.map_inj_left]
  refine forall₂_congr fun part _ => ?_
  rw [Prod.mk.injEq, unescape_eq_iff, unescape_eq_iff]

/-- The name `%zz` is `%zz` to the rest of the module and `zz` to the local checks. -/
theorem broken_percent_dropped :
    pairsArgs (fun _ => true) 0 [37, 122, 122, 61, 49] = some [([122, 122], [49])] ∧
      argPairs [37, 122, 122, 61, 49] = [([37, 122, 122], [49])] := by
  have hhex : hextoi [122, 122] = none := by decide
  have hparts : parts [37, 122, 122, 61, 49] = [[37, 122, 122, 61, 49]] := by decide
  have hz : isHex 122 = false := by decide
  constructor
  · rw [pairsArgs_true, localPairs, hparts]
    simp [rawName, rawValue, unescape_percent, unescape_plain, hhex, hz]
  · rw [argPairs, hparts]
    simp [rawName, rawValue, argName_percent, argName_other, hhex]

end Args
