import Mathlib.Data.List.AList
import PlacitumNode.Agent.Json

/-!
# Editing a locator (`audit/store.go`)

The agent moves an archived object, marks it as cut or as out of reach, and changes the locator in
the record: a JSON object is decoded into a map, members are set or deleted, and the map is written
in a fixed order.

* `locatorFields`, `renderLocator`, `readdress`, `trimmed`, `unreachable`;
* `lookup_fields`: the map holds the last value of every name;
* `ordered_perm`: every member of the map is written, once;
* `editing_exact_iff`: the locators whose editing is total and exact.
-/

namespace Locator

open Octets Utf8 GoJson Codec JsonText Numerals

/-! ### The map -/

/-- `map[string]json.RawMessage` -/
abbrev Fields := AList fun _ : Bytes => Bytes

/-- `locatorOrder` -/
def locatorOrder : List Bytes :=
  [ascii "unavailable", ascii "size", ascii "declared_size", ascii "sha256", ascii "complete",
    ascii "truncated", ascii "encoding", ascii "enc", ascii "store", ascii "driver", ascii "key",
    ascii "expires_at", ascii "hint", ascii "offset"]

/-- `locatorAddress` -/
def locatorAddress : List Bytes :=
  [ascii "store", ascii "driver", ascii "key", ascii "expires_at", ascii "hint", ascii "offset"]

/-- `unicode.IsSpace` -/
def isSpace (c : Char) : Bool :=
  (9 ≤ c.toNat && c.toNat ≤ 13) || c.toNat = 0x20 || c.toNat = 0x85 || c.toNat = 0xa0 ||
    c.toNat = 0x1680 || (0x2000 ≤ c.toNat && c.toNat ≤ 0x200a) || c.toNat = 0x2028 ||
    c.toNat = 0x2029 || c.toNat = 0x202f || c.toNat = 0x205f || c.toNat = 0x3000

/-- `len(bytes.TrimSpace(raw)) == 0` -/
def blank (raw : Bytes) : Bool := (runes raw).all isSpace

/-- The members that a raw locator has; nothing is an object without members. -/
def decoded (raw : Bytes) : Option (Option (List (Bytes × Bytes))) :=
  if blank raw then some (some []) else unmarshalFields raw

/-- The map that the decoder fills, member after member. -/
def fieldsOf (ms : List (Bytes × Bytes)) : Fields := ms.foldl (fun f m => f.insert m.1 m.2) ∅

/-- `locatorFields`: the outer `none` is the error, the inner one the nil map. -/
def locatorFields (raw : Bytes) : Option (Option Fields) := (decoded raw).map (Option.map fieldsOf)

/-- The members in the order in which they are written. -/
def ordered (fields : Fields) : List (Bytes × Bytes) :=
  (locatorOrder ++ (fields.keys.filter (· ∉ locatorOrder)).mergeSort (· ≤ ·)).filterMap fun name =>
    (fields.lookup name).map (Prod.mk name)

/-- `renderLocator` -/
def renderLocator (fields : Fields) : Bytes :=
  123 :: (commaJoin ((ordered fields).map memberText) ++ [125])

/-! ### The edits -/

/-- What an edit ends with; `panic` is an assignment to an entry of a nil map. -/
inductive Outcome
  | error
  | panic
  | ok (raw : Bytes)

/-- All three decode, change the map, at least by one assignment, and write it. -/
def edit (raw : Bytes) (f : Fields → Fields) : Outcome :=
  match locatorFields raw with
  | none => .error
  | some none => .panic
  | some (some fields) => .ok (renderLocator (f fields))

def deleteAddress (fields : Fields) : Fields :=
  locatorAddress.foldl (fun f name => f.erase name) fields

/-- `Readdress` -/
def readdress (raw store driver key : Bytes) (expiresAt : ℤ) : Outcome :=
  edit raw fun fields =>
    let fields := deleteAddress fields
    let fields := fields.insert (ascii "store") (quote store)
    let fields := fields.insert (ascii "driver") (quote driver)
    let fields := fields.insert (ascii "key") (quote key)
    if 0 < expiresAt then fields.insert (ascii "expires_at") (decimal expiresAt.toNat) else fields

/-- `Trimmed` -/
def trimmed (raw : Bytes) (size : ℤ) : Outcome :=
  edit raw fun fields =>
    let fields := fields.insert (ascii "truncated") (ascii "true")
    let fields := fields.insert (ascii "complete") (ascii "false")
    if 0 ≤ size then fields.insert (ascii "size") (decimal size.toNat) else fields

/-- `Unreachable` -/
def unreachable (raw reason : Bytes) : Outcome :=
  edit raw fun fields => (deleteAddress fields).insert (ascii "unavailable") (quote reason)

/-! ### What the edits are for -/

/-- The value of a name that may be repeated. -/
def lastValue (ms : List (Bytes × Bytes)) (name : Bytes) : Option Bytes :=
  (ms.reverse.find? fun m => m.1 = name).map Prod.snd

/-- The new address in place of the old one. -/
def readdressed (store driver key : Bytes) (expiresAt : ℤ) (old : Bytes → Option Bytes)
    (name : Bytes) : Option Bytes :=
  if name = ascii "store" then some (quote store)
  else if name = ascii "driver" then some (quote driver)
  else if name = ascii "key" then some (quote key)
  else if name = ascii "expires_at" then
    if 0 < expiresAt then some (decimal expiresAt.toNat) else none
  else if name ∈ locatorAddress then none
  else old name

/-- The size of what is left. -/
def marked (size : ℤ) (old : Bytes → Option Bytes) (name : Bytes) : Option Bytes :=
  if name = ascii "truncated" then some (ascii "true")
  else if name = ascii "complete" then some (ascii "false")
  else if name = ascii "size" ∧ 0 ≤ size then some (decimal size.toNat)
  else old name

/-- The reason in place of the address. -/
def withoutAddress (reason : Bytes) (old : Bytes → Option Bytes) (name : Bytes) : Option Bytes :=
  if name = ascii "unavailable" then some (quote reason)
  else if name ∈ locatorAddress then none
  else old name

/-- The edit ends with an error where there is no object, and else with an object of the members
wanted, each once. -/
def Exact (raw : Bytes) (want : (Bytes → Option Bytes) → Bytes → Option Bytes) : Outcome → Prop
  | .error => decoded raw = none
  | .panic => False
  | .ok text => ∃ ms ms', decoded raw = some (some ms) ∧ unmarshalFields text = some (some ms') ∧
      (ms'.map Prod.fst).Nodup ∧ ∀ name v, (name, v) ∈ ms' ↔ want (lastValue ms) name = some v

/-! ### Lookups -/

theorem lookup_insert_eq (f : Fields) (n v x : Bytes) :
    (f.insert n v).lookup x = if x = n then some v else f.lookup x := by
  split_ifs with h
  · rw [h, AList.lookup_insert]
  · rw [AList.lookup_insert_ne h]

theorem lookup_erase_eq (f : Fields) (n x : Bytes) :
    (f.erase n).lookup x = if x = n then none else f.lookup x := by
  split_ifs with h
  · rw [h, AList.lookup_erase]
  · rw [AList.lookup_erase_ne h]

theorem lookup_deleteAddress (f : Fields) (x : Bytes) :
    (deleteAddress f).lookup x = if x ∈ locatorAddress then none else f.lookup x := by
  have hfold : ∀ (l : List Bytes) (f : Fields),
      (l.foldl (fun f name => f.erase name) f).lookup x = if x ∈ l then none else f.lookup x := by
    intro l
    induction l with
    | nil => intro f; simp
    | cons n l ih =>
      intro f
      rw [List.foldl_cons, ih, lookup_erase_eq]
      by_cases hn : x = n <;> simp [hn]
  exact hfold locatorAddress f

/-- **The map holds the last value of every name.** -/
theorem lookup_fields (ms : List (Bytes × Bytes)) (x : Bytes) :
    (fieldsOf ms).lookup x = lastValue ms x := by
  unfold fieldsOf lastValue
  induction ms using List.reverseRecOn with
  | nil => rfl
  | append_singleton ms m ih =>
    rw [List.foldl_append, List.foldl_cons, List.foldl_nil, lookup_insert_eq, ih, List.reverse_append,
      List.reverse_singleton, List.singleton_append, List.find?_cons]
    by_cases hx : x = m.1
    · simp [hx]
    · simp [hx, Ne.symm hx]

/-! ### What is written -/

/-- **Every member of the map is written**, and nothing else. -/
theorem mem_ordered (f : Fields) (n v : Bytes) : (n, v) ∈ ordered f ↔ f.lookup n = some v := by
  unfold ordered
  rw [List.mem_filterMap]
  constructor
  · rintro ⟨x, _, hx⟩
    obtain ⟨w, hw, heq⟩ := Option.map_eq_some_iff.1 hx
    obtain ⟨rfl, rfl⟩ := Prod.mk.inj heq
    exact hw
  · intro h
    have hmem : n ∈ f.keys := AList.mem_keys.1 (AList.lookup_isSome.1 (by rw [h]; rfl))
    refine ⟨n, ?_, by rw [h]; rfl⟩
    rw [List.mem_append, List.mem_mergeSort, List.mem_filter]
    by_cases hin : n ∈ locatorOrder
    · exact .inl hin
    · exact .inr ⟨hmem, by simpa using hin⟩

/-- The known names: distinct, plain, and these among them. -/
theorem order_table : locatorOrder.Nodup ∧ (∀ n ∈ locatorOrder, ∀ b ∈ n, b ≠ 34 ∧ b ≠ 92 ∧ 0x20 ≤ b) ∧
    (∀ s ∈ ["unavailable", "size", "declared_size", "sha256", "complete", "truncated",
      "encoding", "enc", "store", "driver", "key", "expires_at", "hint", "offset"],
      ascii s = encode s.toList) ∧
    (∀ s ∈ ["store", "driver", "key", "expires_at", "truncated", "complete", "size",
      "unavailable"], ascii s ∈ locatorOrder) ∧ ascii "expires_at" ∈ locatorAddress := by
  decide +kernel

theorem ascii_mem_order {s : String} (hs : s ∈ ["store", "driver", "key", "expires_at", "truncated",
    "complete", "size", "unavailable"]) : ascii s ∈ locatorOrder :=
  order_table.2.2.2.1 s hs

/-- **Every member is written once.** -/
theorem nodup_ordered (f : Fields) : ((ordered f).map Prod.fst).Nodup := by
  have hnames : (locatorOrder ++
      (f.keys.filter (· ∉ locatorOrder)).mergeSort (· ≤ ·)).Nodup := by
    refine List.Nodup.append order_table.1 ?_ ?_
    · exact (List.mergeSort_perm _ _).nodup_iff.2 ((show f.keys.Nodup from f.nodupKeys).filter _)
    · intro x hx hy
      rw [List.mem_mergeSort, List.mem_filter] at hy
      have := hy.2
      simp [hx] at this
  have hsub : ∀ l : List Bytes,
      ((l.filterMap fun name => (f.lookup name).map (Prod.mk name)).map Prod.fst).Sublist l := by
    intro l
    induction l with
    | nil => exact List.Sublist.slnil
    | cons n l ih =>
      cases hn : f.lookup n with
      | none =>
        rw [List.filterMap_cons_none (by rw [hn]; rfl)]
        exact ih.cons n
      | some v =>
        rw [List.filterMap_cons_some (by rw [hn]; rfl), List.map_cons]
        exact ih.cons_cons n
  exact (hsub _).nodup hnames

/-! ### Plain names are enough -/

/-- The name is written as it stands. -/
def NameOk (n : Bytes) : Prop := WellFormed n ∧ Clean n

theorem readable_of_nameOk {n v : Bytes} (hn : NameOk n) (hv : Raw v) : Readable (n, v) := by
  obtain ⟨⟨cs, rfl⟩, hclean⟩ := hn
  exact ⟨body_of_clean hclean, unquote_clean hclean, hv⟩

theorem nameOk_order : ∀ n ∈ locatorOrder, NameOk n := by
  have hnames : locatorOrder = ["unavailable", "size", "declared_size", "sha256", "complete",
      "truncated", "encoding", "enc", "store", "driver", "key", "expires_at", "hint",
      "offset"].map ascii := rfl
  obtain ⟨_, hclean, hascii, _⟩ := order_table
  intro n hn
  refine ⟨?_, hclean n hn⟩
  rw [hnames] at hn
  obtain ⟨s, hs, rfl⟩ := List.mem_map.1 hn
  exact ⟨s.toList, hascii s hs⟩

theorem unmarshal_sound {raw : Bytes} {ms : List (Bytes × Bytes)}
    (h : unmarshalFields raw = some (some ms)) : ∀ m ∈ ms, WellFormed m.1 ∧ Raw m.2 := by
  unfold unmarshalFields at h
  split at h
  · split at h
    · next t _ ms' r hread =>
      split_ifs at h
      cases h
      split at hread
      · cases hread
        exact fun m hm => absurd hm List.not_mem_nil
      · obtain ⟨bodies, hnames, _, hraw, _⟩ := readMembers_sound hread
        intro m hm
        have hmem : m.1 ∈ bodies.map unquote := by
          rw [← hnames]
          exact List.mem_map_of_mem hm
        obtain ⟨b, _, hb⟩ := List.mem_map.1 hmem
        exact ⟨⟨_, hb.symm⟩, hraw m hm⟩
    · cases h
  · split at h
    · split_ifs at h
      cases h
    · cases h

theorem lastValue_mem {ms : List (Bytes × Bytes)} {n v : Bytes} (h : lastValue ms n = some v) :
    (n, v) ∈ ms := by
  obtain ⟨m, hm, rfl⟩ := Option.map_eq_some_iff.1 h
  have hn : m.1 = n := by simpa using List.find?_some hm
  rw [← hn]
  exact List.mem_reverse.1 (List.mem_of_find?_eq_some hm)

/-- The locator is an object whose names need no escape, or no JSON object at all. -/
def Plain (raw : Bytes) : Prop :=
  decoded raw ≠ some none ∧ ∀ ms, decoded raw = some (some ms) → ∀ m ∈ ms, Clean m.1

theorem readable_old {raw : Bytes} (hplain : Plain raw) {ms : List (Bytes × Bytes)}
    (hms : decoded raw = some (some ms)) {n v : Bytes} (h : lastValue ms n = some v) :
    Readable (n, v) := by
  have hmem := lastValue_mem h
  have hclean := hplain.2 ms hms _ hmem
  unfold decoded at hms
  split_ifs at hms
  · cases hms
    cases hmem
  · obtain ⟨hwf, hraw⟩ := unmarshal_sound hms _ hmem
    exact readable_of_nameOk ⟨hwf, hclean⟩ hraw

theorem edit_exact {raw : Bytes} (hplain : Plain raw) {f : Fields → Fields}
    {want : (Bytes → Option Bytes) → Bytes → Option Bytes}
    (hf : ∀ ms x, (f (fieldsOf ms)).lookup x = want (lastValue ms) x)
    (hnew : ∀ old n v, want old n = some v → (old n = some v ∨ NameOk n ∧ Raw v)) :
    Exact raw want (edit raw f) := by
  unfold edit locatorFields
  cases hdec : decoded raw with
  | none => exact hdec
  | some nil? =>
    cases nil? with
    | none => exact absurd hdec hplain.1
    | some ms =>
      refine ⟨ms, ordered (f (fieldsOf ms)), hdec, unmarshal_object fun m hm => ?_,
        nodup_ordered _, fun n v => by rw [mem_ordered, hf]⟩
      have hm' := (mem_ordered _ m.1 m.2).1 hm
      rw [hf] at hm'
      rcases hnew _ _ _ hm' with hold | ⟨hn, hv⟩
      · exact readable_old hplain hdec hold
      · exact readable_of_nameOk hn hv

theorem order_ne : ascii "store" ≠ ascii "driver" ∧ ascii "store" ≠ ascii "key" ∧
    ascii "store" ≠ ascii "expires_at" ∧ ascii "driver" ≠ ascii "key" ∧
    ascii "driver" ≠ ascii "expires_at" ∧ ascii "key" ≠ ascii "expires_at" ∧
    ascii "truncated" ≠ ascii "complete" ∧ ascii "truncated" ≠ ascii "size" ∧
    ascii "complete" ≠ ascii "size" := by
  decide +kernel

theorem readdress_exact {raw : Bytes} (hplain : Plain raw) (store driver key : Bytes)
    (expiresAt : ℤ) :
    Exact raw (readdressed store driver key expiresAt)
      (readdress raw store driver key expiresAt) := by
  refine edit_exact hplain (fun ms x => ?_) (fun old n v h => ?_)
  · obtain ⟨h₁, h₂, h₃, h₄, h₅, h₆, _⟩ := order_ne
    have hmem : ascii "expires_at" ∈ locatorAddress := order_table.2.2.2.2
    unfold readdressed
    by_cases hexp : 0 < expiresAt
    · simp only [if_pos hexp, lookup_insert_eq, lookup_deleteAddress, lookup_fields]
      by_cases hs : x = ascii "store"
      · simp [hs, h₁, h₂, h₃]
      · by_cases hd : x = ascii "driver"
        · simp [hd, Ne.symm h₁, h₄, h₅]
        · by_cases hk : x = ascii "key"
          · simp [hk, Ne.symm h₂, Ne.symm h₄, h₆]
          · simp [hs, hd, hk]
    · simp only [if_neg hexp, lookup_insert_eq, lookup_deleteAddress, lookup_fields]
      by_cases hs : x = ascii "store"
      · simp [hs, h₁, h₂]
      · by_cases hd : x = ascii "driver"
        · simp [hd, Ne.symm h₁, h₄]
        · by_cases hk : x = ascii "key"
          · simp [hk, Ne.symm h₂, Ne.symm h₄]
          · by_cases hx : x = ascii "expires_at"
            · simp [hx, Ne.symm h₃, Ne.symm h₅, Ne.symm h₆, hmem]
            · simp [hs, hd, hk, hx]
  · unfold readdressed at h
    split_ifs at h with hs hd hk hx hexp hmem
    · cases h
      exact .inr ⟨nameOk_order n (hs ▸ ascii_mem_order (by simp)), raw_quote _⟩
    · cases h
      exact .inr ⟨nameOk_order n (hd ▸ ascii_mem_order (by simp)), raw_quote _⟩
    · cases h
      exact .inr ⟨nameOk_order n (hk ▸ ascii_mem_order (by simp)), raw_quote _⟩
    · cases h
      exact .inr ⟨nameOk_order n (hx ▸ ascii_mem_order (by simp)), raw_decimal _⟩
    · exact .inl h

theorem trimmed_exact {raw : Bytes} (hplain : Plain raw) (size : ℤ) :
    Exact raw (marked size) (trimmed raw size) := by
  refine edit_exact hplain (fun ms x => ?_) (fun old n v h => ?_)
  · obtain ⟨_, _, _, _, _, _, h₁, h₂, h₃⟩ := order_ne
    unfold marked
    by_cases hsize : 0 ≤ size
    · simp only [if_pos hsize, lookup_insert_eq, lookup_fields]
      by_cases ht : x = ascii "truncated"
      · simp [ht, h₁, h₂]
      · by_cases hc : x = ascii "complete"
        · simp [hc, Ne.symm h₁, h₃]
        · simp [ht, hc, hsize]
    · simp only [if_neg hsize, lookup_insert_eq, lookup_fields]
      by_cases ht : x = ascii "truncated"
      · simp [ht, h₁]
      · simp [ht, hsize]
  · unfold marked at h
    split_ifs at h with ht hc hs
    · cases h
      exact .inr ⟨nameOk_order n (ht ▸ ascii_mem_order (by simp)), raw_true⟩
    · cases h
      exact .inr ⟨nameOk_order n (hc ▸ ascii_mem_order (by simp)), raw_false⟩
    · cases h
      exact .inr ⟨nameOk_order n (hs.1 ▸ ascii_mem_order (by simp)), raw_decimal _⟩
    · exact .inl h

theorem unreachable_exact {raw : Bytes} (hplain : Plain raw) (reason : Bytes) :
    Exact raw (withoutAddress reason) (unreachable raw reason) := by
  refine edit_exact hplain (fun ms x => ?_) (fun old n v h => ?_)
  · unfold withoutAddress
    rw [lookup_insert_eq, lookup_deleteAddress, lookup_fields]
  · unfold withoutAddress at h
    split_ifs at h with hu hmem
    · cases h
      exact .inr ⟨nameOk_order n (hu ▸ ascii_mem_order (by simp)), raw_quote _⟩
    · exact .inl h

/-! ### Names that need an escape break the object -/

theorem asciiCount_join (ms : List (Bytes × Bytes)) (hne : ms ≠ []) :
    asciiCount (commaJoin (ms.map memberText)) + 1 =
      (ms.map fun m => asciiCount m.1).sum + (ms.map fun m => asciiCount m.2).sum +
        4 * ms.length := by
  have hmember : ∀ m : Bytes × Bytes,
      asciiCount (memberText m) = asciiCount m.1 + asciiCount m.2 + 3 := by
    intro m
    rw [memberText, asciiCount_cons_low (by decide), asciiCount_append, asciiCount_cons_low (by decide),
      asciiCount_cons_low (by decide)]
    omega
  induction ms with
  | nil => exact absurd rfl hne
  | cons m ms ih =>
    cases ms with
    | nil =>
      simp only [List.map_cons, List.map_nil, commaJoin, hmember, List.sum_cons, List.sum_nil,
        List.length_cons, List.length_nil]
      omega
    | cons m' ms' =>
      have hrest := ih (by simp)
      rw [List.map_cons, List.map_cons, commaJoin, ← List.map_cons, asciiCount_append,
        asciiCount_cons_low (by decide), hmember]
      simp only [List.map_cons, List.sum_cons, List.length_cons] at hrest ⊢
      omega

theorem eq_of_sum_le {α : Type} {l : List α} {f g : α → ℕ} (hle : ∀ x ∈ l, f x ≤ g x)
    (hsum : (l.map g).sum ≤ (l.map f).sum) : ∀ x ∈ l, f x = g x := by
  induction l with
  | nil => exact fun x hx => absurd hx List.not_mem_nil
  | cons y l ih =>
    have hy := hle y List.mem_cons_self
    have hrest := fun x hx => hle x (List.mem_cons_of_mem y hx)
    have hmono : (l.map f).sum ≤ (l.map g).sum := List.sum_le_sum hrest
    rw [List.map_cons, List.map_cons, List.sum_cons, List.sum_cons] at hsum
    intro x hx
    rcases List.mem_cons.1 hx with rfl | hx
    · omega
    · exact ih hrest (by omega) x hx

/-- If the members written are the members read, no name needed an escape: the text has no bytes
to spare for one. -/
theorem clean_of_read {ms ms' : List (Bytes × Bytes)} (hne : ms ≠ []) (hperm : ms'.Perm ms)
    (hread : unmarshalFields (123 :: (commaJoin (ms.map memberText) ++ [125])) = some (some ms')) :
    ∀ m ∈ ms', Clean m.1 := by
  have hhead : ∃ t, commaJoin (ms.map memberText) = 34 :: t := by
    cases ms with
    | nil => exact absurd rfl hne
    | cons m ms =>
      cases ms with
      | nil => exact ⟨_, rfl⟩
      | cons y ys => exact ⟨_, rfl⟩
  obtain ⟨t, ht⟩ := hhead
  have hws : jpWs (commaJoin (ms.map memberText) ++ [125]) =
      commaJoin (ms.map memberText) ++ [125] := by
    rw [ht]
    exact jpWs_cons (by decide) _
  have hno : jpByte 125 (commaJoin (ms.map memberText) ++ [125]) = none := by
    rw [ht, jpByte_eq_none]
    simp
  rw [unmarshalFields, jpWs_cons (by decide), jpByte_cons] at hread
  simp only at hread
  rw [hws, hno] at hread
  simp only at hread
  split at hread
  · next ms₁ r hmembers =>
    split_ifs at hread
    obtain rfl : ms₁ = ms' := by simpa using hread
    obtain ⟨bodies, hnames, hbodies, _, hcount⟩ := readMembers_sound hmembers
    have hjoin := asciiCount_join ms hne
    have hlast : asciiCount [125] = 1 := by decide
    have hsum₁ : (ms₁.map fun m => asciiCount m.1).sum = (ms.map fun m => asciiCount m.1).sum :=
      (hperm.map _).sum_eq
    have hsum₂ : (ms₁.map fun m => asciiCount m.2).sum = (ms.map fun m => asciiCount m.2).sum :=
      (hperm.map _).sum_eq
    have hlen := hperm.length_eq
    have hbody : (ms₁.map fun m => asciiCount m.1).sum =
        (bodies.map fun b => asciiCount (unquote b)).sum := by
      have h := congrArg (fun l => (List.map asciiCount l).sum) hnames
      simp only [List.map_map] at h
      exact h
    rw [asciiCount_append, hlast, hlen] at hcount
    have heq := eq_of_sum_le (l := bodies) (f := fun b => asciiCount (unquote b)) (g := asciiCount)
      (fun b hb => (count_unquote (hbodies b hb)).1) (by omega)
    intro m hm
    have hmem : m.1 ∈ bodies.map unquote := by
      rw [← hnames]
      exact List.mem_map_of_mem hm
    obtain ⟨b, hb, hmb⟩ := List.mem_map.1 hmem
    rw [← hmb]
    exact clean_unquote (hbodies b hb) ((count_unquote (hbodies b hb)).2 (heq b hb))
  · cases hread

theorem plain_of_exact {raw : Bytes} (h : Exact raw (marked 0) (trimmed raw 0)) : Plain raw := by
  refine ⟨fun hnull => ?_, fun ms hms => ?_⟩
  · unfold trimmed edit locatorFields at h
    rw [hnull] at h
    exact h
  · unfold trimmed edit locatorFields at h
    rw [hms] at h
    obtain ⟨ms₀, ms', hms₀, hread, hnodup, hiff⟩ := h
    rw [hms] at hms₀
    obtain rfl : ms = ms₀ := by simpa using hms₀
    -- the map that was written has the members wanted
    have hlook : ∀ x, (((fieldsOf ms).insert (ascii "truncated") (ascii "true")).insert
        (ascii "complete") (ascii "false") |>.insert (ascii "size") (decimal 0)).lookup x =
        marked 0 (lastValue ms) x := by
      intro x
      obtain ⟨_, _, _, _, _, _, h₁, h₂, h₃⟩ := order_ne
      unfold marked
      simp only [lookup_insert_eq, lookup_fields]
      by_cases ht : x = ascii "truncated"
      · simp [ht, h₁, h₂]
      · by_cases hc : x = ascii "complete"
        · simp [hc, Ne.symm h₁, h₃]
        · simp [ht, hc]
    simp only [le_refl, if_true, Int.toNat_zero] at hread
    unfold renderLocator at hread
    generalize hf : (((fieldsOf ms).insert (ascii "truncated") (ascii "true")).insert
        (ascii "complete") (ascii "false")).insert (ascii "size") (decimal 0) = f at hread hlook
    have hperm : ms'.Perm (ordered f) := by
      rw [List.perm_ext_iff_of_nodup (List.Nodup.of_map _ hnodup) (List.Nodup.of_map _ (nodup_ordered f))]
      rintro ⟨n, v⟩
      rw [hiff, mem_ordered, hlook]
    have hne : ordered f ≠ [] := by
      have hmem : (ascii "truncated", ascii "true") ∈ ordered f := by
        rw [mem_ordered, hlook, marked, if_pos rfl]
      exact List.ne_nil_of_mem hmem
    have hclean := clean_of_read hne hperm hread
    intro m hm
    have hold : ∃ v, lastValue ms m.1 = some v := by
      unfold lastValue
      rw [← Option.isSome_iff_exists, Option.isSome_map, List.find?_isSome]
      exact ⟨m, List.mem_reverse.2 hm, by simp⟩
    obtain ⟨v, hv⟩ := hold
    have hwant : ∃ w, marked 0 (lastValue ms) m.1 = some w := by
      unfold marked
      split_ifs
      · exact ⟨_, rfl⟩
      · exact ⟨_, rfl⟩
      · exact ⟨_, rfl⟩
      · exact ⟨v, hv⟩
    obtain ⟨w, hw⟩ := hwant
    exact hclean (m.1, w) ((hiff m.1 w).2 hw)

/-- **The locators whose editing is total and exact** are those that are not null and have only
names that need no escape. -/
theorem editing_exact_iff (raw : Bytes) :
    (∀ store driver key expiresAt size reason,
      Exact raw (readdressed store driver key expiresAt) (readdress raw store driver key expiresAt) ∧
      Exact raw (marked size) (trimmed raw size) ∧
      Exact raw (withoutAddress reason) (unreachable raw reason)) ↔ Plain raw := by
  constructor
  · intro h
    exact plain_of_exact (h [] [] [] 0 0 []).2.1
  · intro hplain store driver key expiresAt size reason
    exact ⟨readdress_exact hplain store driver key expiresAt, trimmed_exact hplain size,
      unreachable_exact hplain reason⟩

/-- A null locator stops the agent. -/
theorem null_panics : ¬Exact (ascii "null") (withoutAddress (ascii "gone"))
    (unreachable (ascii "null") (ascii "gone")) := by
  have hdec : decoded (ascii "null") = some none := by
    have hruns : runes (ascii "null") = ['n', 'u', 'l', 'l'] := runes_encode ['n', 'u', 'l', 'l']
    have hblank : blank (ascii "null") = false := by
      rw [blank, hruns]
      decide
    rw [decoded, hblank]
    rfl
  unfold unreachable edit locatorFields
  rw [hdec]
  exact fun h => h

end Locator
