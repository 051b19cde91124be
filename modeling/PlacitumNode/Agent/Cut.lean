import PlacitumNode.Agent.Json

/-!
# Cutting an archived object (`retain/filter.go`)

An object that is longer than the limit of the archive is cut: a body to its first bytes, headers
and a query string to whole pairs.

* `unmarshalPairs`, `marshalPairs`: a `[][]string` read and written by `encoding/json`;
* `cutHeaders`, `cutArgs`, `cutToLimit`;
* `cutLoop_spec`: the pairs kept are the first ones, and what is written of them fits;
* `cutToLimit_whole_iff`: the inputs of which whole pairs are kept.
-/

namespace Cut

open Octets Utf8 GoJson Codec

/-! ### `[][]string` -/

/-- A slice; `none` is nil. -/
abbrev Slice (α : Type) := Option (List α)

/-- A string is decoded from a literal; `null` leaves it empty. -/
def readString (s : Bytes) : Option (Bytes × Bytes) :=
  match jpByte 34 s with
  | some t => (scanString t).map fun r => (unquote r.1, r.2)
  | none => (jpLiteral (ascii "null") s).map fun r => ([], r)

section

variable {α : Type}

/-- The elements of an array that is not empty, and the rest after the closing bracket. -/
def readItems (elem : Bytes → Option (α × Bytes)) : ℕ → Bytes → Option (List α × Bytes)
  | 0, _ => none
  | n + 1, s =>
    match elem s with
    | none => none
    | some (x, r) =>
      match jpByte 44 (jpWs r) with
      | some t => (readItems elem n (jpWs t)).map fun p => (x :: p.1, p.2)
      | none => (jpByte 93 (jpWs r)).map fun t => ([x], t)

/-- A slice is decoded from an array; `null` makes it nil. -/
def readSlice (elem : Bytes → Option (α × Bytes)) (s : Bytes) : Option (Slice α × Bytes) :=
  match jpByte 91 s with
  | some t =>
    match jpByte 93 (jpWs t) with
    | some r => some (some [], r)
    | none => (readItems elem (jpWs t).length (jpWs t)).map fun p => (some p.1, p.2)
  | none => (jpLiteral (ascii "null") s).map fun r => (none, r)

def marshalSlice (elem : α → Bytes) : Slice α → Bytes
  | none => ascii "null"
  | some xs => 91 :: (commaJoin (xs.map elem) ++ [93])

end

/-- One header: its name, its value, and what else the array holds. -/
abbrev Pair := Slice Bytes

/-- `json.Unmarshal` into `[][]string`; `none` is the error. -/
def unmarshalPairs (data : Bytes) : Option (Slice Pair) :=
  match readSlice (readSlice readString) (jpWs data) with
  | some (v, r) => if jpWs r = [] then some v else none
  | none => none

/-- `json.Marshal` of a pair -/
def marshalPair (pair : Pair) : Bytes := marshalSlice quote pair

/-- `json.Marshal` of the pairs, which are never nil. -/
def marshalPairs (out : List Pair) : Bytes := marshalSlice marshalPair (some out)

/-! ### The cuts -/

/-- The loop of `cutHeaders`. -/
def cutLoop (limit : ℕ) : List Pair → List Pair → ℕ → List Pair
  | [], out, _ => out
  | pair :: pairs, out, size =>
    let add := (marshalPair pair).length + if 0 < out.length then 1 else 0
    if size + add > limit then out else cutLoop limit pairs (out ++ [pair]) (size + add)

/-- `cutHeaders` -/
def cutHeaders (data : Bytes) (limit : ℕ) : Bytes :=
  match unmarshalPairs data with
  | none => data.take limit
  | some pairs => marshalPairs (cutLoop limit (pairs.getD []) [] 2)

/-- `strings.LastIndexByte` over the first `n` bytes. -/
def lastIndexByte (s : Bytes) (c : UInt8) : ℕ → Option ℕ
  | 0 => none
  | n + 1 => if s[n]? = some c then some n else lastIndexByte s c n

/-- `cutArgs` -/
def cutArgs (data : Bytes) (limit : ℕ) : Bytes :=
  let cut := data.take limit
  if limit < data.length ∧ data[limit]? = some 38 then cut
  else
    match lastIndexByte cut 38 cut.length with
    | some i => if 0 < i then cut.take i else cut
    | none => cut

/-- `"headers"`, `"args"` and any other kind of object -/
inductive Kind
  | headers
  | args
  | body
  deriving DecidableEq

/-- `cutToLimit` -/
def cutToLimit (kind : Kind) (data : Bytes) (limit : ℤ) : Bytes × Bool :=
  if limit ≤ 0 ∨ (data.length : ℤ) ≤ limit then (data, false)
  else
    match kind with
    | .headers => (cutHeaders data limit.toNat, true)
    | .args => (cutArgs data limit.toNat, true)
    | .body => (data.take limit.toNat, true)

/-- `strings.Split(s, "&")` -/
def splitAmp : Bytes → List Bytes
  | [] => [[]]
  | c :: s =>
    if c = 38 then [] :: splitAmp s
    else
      match splitAmp s with
      | p :: ps => (c :: p) :: ps
      | [] => [[c]]

/-! ### Reading back what was written -/

section

variable {α : Type} {elem : Bytes → Option (α × Bytes)} {w : α → Bytes}

/-- The reader takes what was written for `x`, whatever follows. -/
def Reads (elem : Bytes → Option (α × Bytes)) (w : α → Bytes) (x : α) : Prop :=
  (∃ b t, w x = b :: t ∧ isWs b = false ∧ b ≠ 93) ∧ ∀ r, elem (w x ++ r) = some (x, r)

theorem readItems_join {xs : List α} (hne : xs ≠ []) (h : ∀ x ∈ xs, Reads elem w x) (n : ℕ)
    (hn : xs.length ≤ n) (r : Bytes) :
    readItems elem n (commaJoin (xs.map w) ++ 93 :: r) = some (xs, r) := by
  induction xs generalizing n with
  | nil => exact absurd rfl hne
  | cons x xs ih =>
    obtain ⟨n, rfl⟩ : ∃ m, n = m + 1 := ⟨n - 1, by rw [List.length_cons] at hn; omega⟩
    have hx := (h x List.mem_cons_self).2
    cases xs with
    | nil =>
      have hws : jpWs (93 :: r) = 93 :: r := jpWs_cons (by decide) r
      have hno : jpByte 44 (93 :: r) = none := jpByte_eq_none.2 (by simp)
      rw [List.map_cons, List.map_nil, commaJoin, readItems, hx]
      simp only
      rw [hws, hno, jpByte_cons]
      rfl
    | cons y ys =>
      obtain ⟨⟨b, t, hy, hb, _⟩, _⟩ := h y (List.mem_cons_of_mem _ List.mem_cons_self)
      have hjoin : ∃ t', commaJoin ((y :: ys).map w) = b :: t' := by
        cases ys with
        | nil => exact ⟨t, hy⟩
        | cons z zs => exact ⟨_, by rw [List.map_cons, List.map_cons, commaJoin, hy]; rfl⟩
      have hrest := ih (by simp) (fun z hz => h z (List.mem_cons_of_mem _ hz)) n
        (by rw [List.length_cons] at hn; omega)
      obtain ⟨t', ht'⟩ := hjoin
      have hws : ∀ u, jpWs (44 :: u) = 44 :: u := fun u => jpWs_cons (by decide) u
      have hws' : ∀ u, jpWs (b :: u) = b :: u := fun u => jpWs_cons (by rw [hb]; simp) u
      rw [List.map_cons, List.map_cons, commaJoin, ← List.map_cons, List.append_assoc, readItems, hx]
      simp only
      rw [List.cons_append, hws, jpByte_cons]
      simp only
      rw [ht', List.cons_append, hws', ← List.cons_append, ← ht', hrest]
      rfl

theorem length_le_join {xs : List α} (h : ∀ x ∈ xs, Reads elem w x) :
    xs.length ≤ (commaJoin (xs.map w)).length := by
  induction xs with
  | nil => exact Nat.zero_le _
  | cons x xs ih =>
    obtain ⟨⟨b, t, hx, _, _⟩, _⟩ := h x List.mem_cons_self
    have hrest := ih fun y hy => h y (List.mem_cons_of_mem _ hy)
    cases xs with
    | nil => simp [commaJoin, hx]
    | cons y ys =>
      rw [List.map_cons, List.map_cons, commaJoin, ← List.map_cons, hx]
      simp only [List.length_append, List.length_cons] at hrest ⊢
      omega

/-- **A slice that was written is read back.** -/
theorem reads_slice {v : Slice α} (h : ∀ xs, v = some xs → ∀ x ∈ xs, Reads elem w x) :
    Reads (readSlice elem) (marshalSlice w) v := by
  cases v with
  | none =>
    refine ⟨⟨110, _, rfl, by decide, by decide⟩, fun r => ?_⟩
    have hno : jpByte 91 (ascii "null" ++ r) = none := jpByte_eq_none.2 (by simp [ascii])
    rw [marshalSlice, readSlice, hno, jpLiteral_eq_some.2 rfl]
    rfl
  | some xs =>
    have h := h xs rfl
    refine ⟨⟨91, _, rfl, by decide, by decide⟩, fun r => ?_⟩
    rw [marshalSlice, readSlice, List.cons_append, jpByte_cons]
    simp only
    rw [List.append_assoc, List.singleton_append]
    cases xs with
    | nil =>
      rw [List.map_nil, commaJoin, List.nil_append, jpWs_cons (by decide), jpByte_cons]
    | cons x xs =>
      obtain ⟨⟨b, t, hx, hb, hclose⟩, _⟩ := h x List.mem_cons_self
      obtain ⟨t', ht'⟩ : ∃ t', commaJoin ((x :: xs).map w) = b :: t' := by
        cases xs with
        | nil => exact ⟨t, hx⟩
        | cons z zs => exact ⟨_, by rw [List.map_cons, List.map_cons, commaJoin, hx]; rfl⟩
      have hws : jpWs (commaJoin ((x :: xs).map w) ++ 93 :: r) =
          commaJoin ((x :: xs).map w) ++ 93 :: r := by
        rw [ht', List.cons_append]
        exact jpWs_cons (by rw [hb]; simp) _
      have hno : jpByte 93 (commaJoin ((x :: xs).map w) ++ 93 :: r) = none := by
        rw [ht', List.cons_append]
        exact jpByte_eq_none.2 (by simpa using hclose)
      have hlen := length_le_join h
      rw [hws, hno]
      simp only
      rw [readItems_join (by simp) h _ (by rw [List.length_append]; omega)]
      rfl

end

/-! ### Headers -/

/-- A string that is the encoding of characters. -/
theorem reads_string (cs : List Char) : Reads readString quote (encode cs) := by
  refine ⟨⟨34, _, rfl, by decide, by decide⟩, fun r => ?_⟩
  obtain ⟨hbody, _⟩ := readQuoted (encode cs)
  rw [quote, readString, List.cons_append, jpByte_cons]
  simp only
  rw [List.append_assoc, List.singleton_append, scanString_body hbody, Option.map_some,
    unquote_quoteBody, runes_encode]

/-- The strings of a pair are well formed. -/
def Good (pair : Pair) : Prop := ∀ xs, pair = some xs → ∀ x ∈ xs, WellFormed x

theorem reads_pair {pair : Pair} (h : Good pair) :
    Reads (readSlice readString) marshalPair pair :=
  reads_slice fun xs hxs x hx => by
    obtain ⟨cs, rfl⟩ := h xs hxs x hx
    exact reads_string cs

theorem readString_good {s x r : Bytes} (h : readString s = some (x, r)) : WellFormed x := by
  unfold readString at h
  split at h
  · obtain ⟨⟨body, r'⟩, _, heq⟩ := Option.map_eq_some_iff.1 h
    cases heq
    exact ⟨_, rfl⟩
  · obtain ⟨r', _, heq⟩ := Option.map_eq_some_iff.1 h
    cases heq
    exact ⟨[], rfl⟩

section

variable {α : Type} {elem : Bytes → Option (α × Bytes)} {P : α → Prop}

theorem readItems_all (helem : ∀ s x r, elem s = some (x, r) → P x) {n : ℕ} {s r : Bytes}
    {xs : List α} (h : readItems elem n s = some (xs, r)) : ∀ x ∈ xs, P x := by
  induction n generalizing s xs with
  | zero => cases h
  | succ n ih =>
    rw [readItems] at h
    cases hx : elem s with
    | none => rw [hx] at h; cases h
    | some p =>
      obtain ⟨x, t⟩ := p
      have hPx := helem s x t hx
      rw [hx] at h
      simp only at h
      split at h
      · obtain ⟨⟨ys, r'⟩, hys, heq⟩ := Option.map_eq_some_iff.1 h
        cases heq
        exact List.forall_mem_cons.2 ⟨hPx, ih hys⟩
      · obtain ⟨r', _, heq⟩ := Option.map_eq_some_iff.1 h
        cases heq
        exact List.forall_mem_singleton.2 hPx

theorem readSlice_all (helem : ∀ s x r, elem s = some (x, r) → P x) {s r : Bytes} {v : Slice α}
    (h : readSlice elem s = some (v, r)) : ∀ xs, v = some xs → ∀ x ∈ xs, P x := by
  unfold readSlice at h
  rintro xs rfl
  split at h
  · split at h
    · cases h
      exact fun x hx => absurd hx List.not_mem_nil
    · obtain ⟨⟨ys, r'⟩, hys, heq⟩ := Option.map_eq_some_iff.1 h
      cases heq
      exact readItems_all helem hys
  · obtain ⟨r', _, heq⟩ := Option.map_eq_some_iff.1 h
    cases heq

end

/-- What `json.Unmarshal` yields is well formed. -/
theorem unmarshal_good {data : Bytes} {pairs : List Pair}
    (h : unmarshalPairs data = some (some pairs)) : ∀ pair ∈ pairs, Good pair := by
  unfold unmarshalPairs at h
  split at h
  · next v r hv =>
    split_ifs at h
    cases h
    exact readSlice_all (P := Good)
      (fun s x r hx => readSlice_all (P := WellFormed) (fun _ _ _ => readString_good) hx) hv pairs rfl
  · cases h

theorem unmarshal_marshal {pairs : List Pair} (h : ∀ pair ∈ pairs, Good pair) :
    unmarshalPairs (marshalPairs pairs) = some (some pairs) := by
  have hread := (reads_slice (v := some pairs) fun xs hxs pair hpair => by
    cases hxs
    exact reads_pair (h pair hpair)).2 []
  have hws : jpWs (marshalPairs pairs) = marshalPairs pairs := jpWs_cons (by decide) _
  rw [List.append_nil] at hread
  rw [unmarshalPairs, hws]
  unfold marshalPairs
  rw [hread]
  rfl

theorem length_join_append (l : List Bytes) (x : Bytes) : (commaJoin (l ++ [x])).length =
    (commaJoin l).length + (x.length + if 0 < l.length then 1 else 0) := by
  induction l with
  | nil => simp [commaJoin]
  | cons y l ih =>
    cases l with
    | nil =>
      simp [commaJoin]
    | cons z l =>
      simp only [List.cons_append, commaJoin, List.length_append, List.length_cons] at ih ⊢
      rw [ih, if_pos (by omega), if_pos (by omega)]
      omega

/-- The loop knows the length of what will be written of the pairs it keeps. -/
theorem length_marshal_append (out : List Pair) (pair : Pair) :
    (marshalPairs (out ++ [pair])).length = (marshalPairs out).length +
      ((marshalPair pair).length + if 0 < out.length then 1 else 0) := by
  have h := length_join_append (out.map marshalPair) (marshalPair pair)
  rw [List.length_map] at h
  simp only [marshalPairs, marshalSlice, List.map_append, List.map_cons, List.map_nil, List.length_cons,
    List.length_append, h]
  omega

/-- **The pairs kept are the first ones**, and what is written of them fits. -/
theorem cutLoop_spec (limit : ℕ) (pairs out : List Pair) :
    ∃ kept, kept <+: pairs ∧
      cutLoop limit pairs out (marshalPairs out).length = out ++ kept ∧
      (kept ≠ [] → (marshalPairs (out ++ kept)).length ≤ limit) := by
  induction pairs generalizing out with
  | nil => exact ⟨[], List.prefix_rfl, (List.append_nil out).symm, fun h => absurd rfl h⟩
  | cons pair pairs ih =>
    rw [cutLoop, ← length_marshal_append]
    split_ifs with hfull
    · exact ⟨[], List.nil_prefix, (List.append_nil out).symm, fun h => absurd rfl h⟩
    · obtain ⟨kept, hpre, hloop, hfit⟩ := ih (out ++ [pair])
      refine ⟨pair :: kept, List.cons_prefix_cons.2 ⟨rfl, hpre⟩, ?_, fun _ => ?_⟩
      · rw [hloop, List.append_assoc, List.singleton_append]
      · cases kept with
        | nil => exact not_lt.1 hfull
        | cons k ks =>
          have h := hfit (by simp)
          rwa [List.append_assoc, List.singleton_append] at h

/-- Headers are cut to an array of their first pairs, which fits if an empty array does. -/
theorem cutHeaders_spec {data : Bytes} {pairs : List Pair} (limit : ℕ)
    (h : unmarshalPairs data = some (some pairs)) :
    (∃ kept, kept <+: pairs ∧ unmarshalPairs (cutHeaders data limit) = some (some kept)) ∧
      ((cutHeaders data limit).length ≤ limit ↔ 2 ≤ limit) := by
  obtain ⟨kept, hpre, hloop, hfit⟩ := cutLoop_spec limit pairs []
  have hcut : cutHeaders data limit = marshalPairs kept := by
    rw [cutHeaders, h]
    exact congrArg marshalPairs hloop
  have hmin : 2 ≤ (marshalPairs kept).length := by
    simp [marshalPairs, marshalSlice]
  rw [hcut]
  refine ⟨⟨kept, hpre, unmarshal_marshal fun p hp => unmarshal_good h p (hpre.subset hp)⟩, ?_⟩
  constructor
  · exact le_trans hmin
  · intro hlimit
    cases kept with
    | nil => exact hlimit
    | cons k ks => exact hfit (by simp)

/-! ### The query string -/

theorem splitAmp_amp (s : Bytes) : splitAmp (38 :: s) = [] :: splitAmp s := by
  rw [splitAmp, if_pos rfl]

theorem splitAmp_append (s t : Bytes) : splitAmp (s ++ 38 :: t) = splitAmp s ++ splitAmp t := by
  induction s with
  | nil => simp [splitAmp]
  | cons c s ih =>
    rw [List.cons_append, splitAmp, splitAmp, ih]
    split_ifs
    · rfl
    · cases hs : splitAmp s with
      | nil =>
        exfalso
        revert hs
        cases s with
        | nil => simp [splitAmp]
        | cons d s =>
          rw [splitAmp]
          split_ifs
          · simp
          · split <;> simp
      | cons p ps => rfl

/-- The first part reaches to the first `&`. -/
theorem splitAmp_head {s : Bytes} (hs : 38 ∉ s) (t : Bytes) :
    ∃ p ps, splitAmp (s ++ t) = (s ++ p) :: ps ∧ ∀ c u, t = c :: u → c ≠ 38 → p ≠ [] := by
  induction s with
  | nil =>
    cases t with
    | nil => exact ⟨[], [], rfl, fun c u h => by cases h⟩
    | cons c t =>
      rw [List.nil_append, splitAmp]
      split_ifs with hc
      · exact ⟨[], _, rfl, fun d u h hd => absurd ((List.cons.inj h).1 ▸ hc) hd⟩
      · split
        · exact ⟨_, _, rfl, fun _ _ _ _ => by simp⟩
        · exact ⟨_, _, rfl, fun _ _ _ _ => by simp⟩
  | cons b s ih =>
    rw [List.mem_cons, not_or] at hs
    obtain ⟨p, ps, hp, hne⟩ := ih hs.2
    exact ⟨p, ps, by rw [List.cons_append, splitAmp, if_neg (Ne.symm hs.1), hp]; rfl, hne⟩

theorem lastIndexByte_some {s : Bytes} {c : UInt8} {n i : ℕ} (h : lastIndexByte s c n = some i) :
    i < n ∧ s[i]? = some c ∧ ∀ j, i < j → j < n → s[j]? ≠ some c := by
  induction n with
  | zero => cases h
  | succ n ih =>
    rw [lastIndexByte] at h
    split_ifs at h with hn
    · cases h
      exact ⟨Nat.lt_succ_self _, hn, fun j hj hj' => by omega⟩
    · obtain ⟨hi, hc, hafter⟩ := ih h
      refine ⟨by omega, hc, fun j hj hj' => ?_⟩
      rcases Nat.lt_succ_iff_lt_or_eq.1 hj' with hlt | rfl
      · exact hafter j hj hlt
      · exact hn

theorem lastIndexByte_none {s : Bytes} {c : UInt8} {n : ℕ} (h : lastIndexByte s c n = none) :
    ∀ j < n, s[j]? ≠ some c := by
  induction n with
  | zero => exact fun j hj => absurd hj (Nat.not_lt_zero j)
  | succ n ih =>
    rw [lastIndexByte] at h
    split_ifs at h with hn
    intro j hj
    rcases Nat.lt_succ_iff_lt_or_eq.1 hj with hlt | rfl
    · exact ih h j hlt
    · exact hn

theorem splitAmp_plain {s : Bytes} (hs : 38 ∉ s) : splitAmp s = [s] := by
  induction s with
  | nil => rfl
  | cons b s ih =>
    rw [List.mem_cons, not_or] at hs
    rw [splitAmp, if_neg (Ne.symm hs.1), ih hs.2]

/-- A part that is cut in the middle is not a part. -/
theorem not_prefix_of_cut {s t : Bytes} {x : UInt8} (hs : 38 ∉ s) (hx : x ≠ 38) :
    ¬splitAmp s <+: splitAmp (s ++ x :: t) := by
  obtain ⟨p, ps, hp, hne⟩ := splitAmp_head hs (x :: t)
  rw [splitAmp_plain hs, hp, List.cons_prefix_cons]
  rintro ⟨heq, _⟩
  have hlen := congrArg List.length heq
  have hpos := List.length_pos_iff.2 (hne x t rfl hx)
  rw [List.length_append] at hlen
  omega

/-- At an `&` the parts before it are the first ones. -/
theorem prefix_of_amp {data : Bytes} {i : ℕ} (h : data[i]? = some 38) :
    splitAmp (data.take i) <+: splitAmp data := by
  obtain ⟨hi, hc⟩ := List.getElem?_eq_some_iff.1 h
  have hdata : data = data.take i ++ 38 :: data.drop (i + 1) := by
    rw [← hc, ← List.drop_eq_getElem_cons hi, List.take_append_drop]
  conv_rhs => rw [hdata]
  rw [splitAmp_append]
  exact List.prefix_append _ _

theorem not_prefix_take {data : Bytes} {limit : ℕ} (hlen : limit < data.length)
    (hamp : data[limit]? ≠ some 38) (hno : ∀ j < limit, data[j]? ≠ some 38) :
    ¬splitAmp (data.take limit) <+: splitAmp data := by
  have hmem : 38 ∉ data.take limit := by
    intro h
    obtain ⟨j, hj⟩ := List.mem_iff_getElem?.1 h
    have hjl := (List.getElem?_eq_some_iff.1 hj).1
    rw [List.length_take_of_le (le_of_lt hlen)] at hjl
    exact hno j hjl (by rw [← hj, List.getElem?_take_of_lt hjl])
  have hx : data[limit] ≠ 38 := fun h => hamp (by rw [List.getElem?_eq_getElem hlen, h])
  have hdata : data = data.take limit ++ data[limit] :: data.drop (limit + 1) := by
    rw [← List.drop_eq_getElem_cons hlen, List.take_append_drop]
  have h := not_prefix_of_cut (t := data.drop (limit + 1)) hmem hx
  rwa [← hdata] at h

/-- **Where a query string can be cut**: at its limit, or at an `&` before it that is not the first
byte. -/
theorem cutArgs_spec {data : Bytes} {limit : ℕ} (hlimit : 0 < limit) (hlen : limit < data.length) :
    (cutArgs data limit).length ≤ limit ∧
      (splitAmp (cutArgs data limit) <+: splitAmp data ↔
        data[limit]? = some 38 ∨ ∃ i, 0 < i ∧ i < limit ∧ data[i]? = some 38) := by
  have htake : (data.take limit).length = limit := List.length_take_of_le (le_of_lt hlen)
  have hget : ∀ j < limit, (data.take limit)[j]? = data[j]? := fun j hj => List.getElem?_take_of_lt hj
  unfold cutArgs
  simp only
  -- An `&` right at the limit ends the last parameter there.
  by_cases hamp : data[limit]? = some 38
  · rw [if_pos ⟨hlen, hamp⟩]
    exact ⟨le_of_eq htake, iff_of_true (prefix_of_amp hamp) (.inl hamp)⟩
  · rw [if_neg fun h => hamp h.2, htake]
    cases hlast : lastIndexByte (data.take limit) 38 limit with
    | none =>
      have hno : ∀ j < limit, data[j]? ≠ some 38 := fun j hj => by
        rw [← hget j hj]
        exact lastIndexByte_none hlast j hj
      refine ⟨le_of_eq htake, iff_of_false (not_prefix_take hlen hamp hno) ?_⟩
      rintro (h | ⟨i, _, hi, hc⟩)
      · exact hamp h
      · exact hno i hi hc
    | some i =>
      obtain ⟨hi, hc, hafter⟩ := lastIndexByte_some hlast
      rw [hget i hi] at hc
      simp only
      split_ifs with hpos
      · rw [List.take_take, min_eq_left (le_of_lt hi)]
        refine ⟨?_, iff_of_true (prefix_of_amp hc) (.inr ⟨i, hpos, hi, hc⟩)⟩
        rw [List.length_take]
        omega
      · -- the only `&` before the limit is the first byte
        obtain rfl : i = 0 := Nat.eq_zero_of_not_pos hpos
        have hno : ∀ j, 0 < j → j < limit → data[j]? ≠ some 38 := fun j hj hjl => by
          rw [← hget j hjl]
          exact hafter j hj hjl
        refine ⟨le_of_eq htake, iff_of_false ?_ ?_⟩
        · obtain ⟨l, rfl⟩ : ∃ l, limit = l + 1 := ⟨limit - 1, by omega⟩
          cases data with
          | nil => cases hc
          | cons c d =>
            obtain rfl : c = 38 := Option.some.inj hc
            rw [List.take_succ_cons, splitAmp_amp, splitAmp_amp, List.cons_prefix_cons]
            rintro ⟨_, hpre⟩
            exact not_prefix_take (Nat.lt_of_succ_lt_succ hlen) hamp
              (fun j hj => hno (j + 1) (by omega) (by omega)) hpre
        · rintro (h | ⟨j, hj, hjl, hjc⟩)
          · exact hamp h
          · exact hno j hj hjl hjc

/-! ### Every kind -/

/-- The object is cut to whole pairs within the limit, and the mark says that something is missing. -/
def KeepsWhole (kind : Kind) (data : Bytes) (limit : ℤ) : Prop :=
  ((cutToLimit kind data limit).1.length : ℤ) ≤ limit ∧
    ((cutToLimit kind data limit).1 ≠ data → (cutToLimit kind data limit).2 = true) ∧
    match kind with
    | .headers => ∀ pairs, unmarshalPairs data = some (some pairs) →
        ∃ kept, kept <+: pairs ∧ unmarshalPairs (cutToLimit kind data limit).1 = some (some kept)
    | .args => splitAmp (cutToLimit kind data limit).1 <+: splitAmp data
    | .body => (cutToLimit kind data limit).1 <+: data

/-- Nothing has to be cut, or there is a place for the cut. -/
def Cuttable (kind : Kind) (data : Bytes) (limit : ℕ) : Prop :=
  data.length ≤ limit ∨
    match kind with
    | .headers => 2 ≤ limit
    | .args => data[limit]? = some 38 ∨ ∃ i, 0 < i ∧ i < limit ∧ data[i]? = some 38
    | .body => True

/-- **When whole pairs are kept within the limit.** -/
theorem cutToLimit_whole_iff (kind : Kind) (data : Bytes) (limit : ℕ) (hlimit : 0 < limit)
    (hdata : kind = .headers → ∃ pairs, unmarshalPairs data = some (some pairs)) :
    KeepsWhole kind data limit ↔ Cuttable kind data limit := by
  by_cases hlen : data.length ≤ limit
  · have hcut : cutToLimit kind data limit = (data, false) := by
      unfold cutToLimit
      rw [if_pos (.inr (by omega))]
    refine iff_of_true ⟨?_, fun h => absurd ?_ h, ?_⟩ (.inl hlen)
    · rw [hcut]
      exact_mod_cast hlen
    · rw [hcut]
    · cases kind with
      | headers =>
        intro pairs h
        rw [hcut]
        exact ⟨pairs, List.prefix_rfl, h⟩
      | args =>
        simp only [hcut]
        exact List.prefix_rfl
      | body =>
        simp only [hcut]
        exact List.prefix_rfl
  · have hguard : ¬((limit : ℤ) ≤ 0 ∨ (data.length : ℤ) ≤ limit) := by omega
    -- Over the limit each kind has a cut of its own.
    cases kind with
    | headers =>
      have hcut : cutToLimit .headers data limit = (cutHeaders data limit, true) := by
        unfold cutToLimit
        rw [if_neg hguard]
        rfl
      have hcond : Cuttable .headers data limit ↔ 2 ≤ limit := or_iff_right hlen
      obtain ⟨pairs, hpairs⟩ := hdata rfl
      obtain ⟨⟨kept, hpre, hkept⟩, hfit⟩ := cutHeaders_spec limit hpairs
      simp only [KeepsWhole, hcut, hcond, implies_true, true_and, Nat.cast_le, hfit]
      refine and_iff_left fun pairs' h => ?_
      rw [hpairs] at h
      cases h
      exact ⟨kept, hpre, hkept⟩
    | args =>
      have hcut : cutToLimit .args data limit = (cutArgs data limit, true) := by
        unfold cutToLimit
        rw [if_neg hguard]
        rfl
      obtain ⟨hfit, hiff⟩ := cutArgs_spec hlimit (not_le.1 hlen)
      simp only [KeepsWhole, hcut, implies_true, true_and, Nat.cast_le, hfit]
      exact hiff.trans (or_iff_right hlen).symm
    | body =>
      have hcut : cutToLimit .body data limit = (data.take limit, true) := by
        unfold cutToLimit
        rw [if_neg hguard]
        rfl
      simp only [KeepsWhole, hcut, implies_true, true_and, Nat.cast_le]
      refine iff_of_true ⟨?_, List.take_prefix _ _⟩ (.inr trivial)
      rw [List.length_take]
      exact min_le_left _ _

/-- `[[],[]]`, cut to four bytes, is `[[]]`. -/
theorem cutToLimit_whole_two_pairs : KeepsWhole .headers (ascii "[[],[]]") 4 :=
  (cutToLimit_whole_iff .headers (ascii "[[],[]]") 4 (by decide) fun _ =>
    ⟨[some [], some []], by decide⟩).2 (.inr (by decide))

/-- `abcdef`, cut to three bytes, is a part that the client never sent. -/
theorem half_part_kept : ¬KeepsWhole .args (ascii "abcdef") 3 := by
  rintro ⟨_, _, hpre⟩
  revert hpre
  decide

end Cut
