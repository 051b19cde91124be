import Mathlib.Data.List.DropRight
import PlacitumNode.Agent.Names
import PlacitumNode.Lib.Separated

/-!
# The extensions of a WebSocket handshake (`runtime/ngx_http_waf_handler.c`)

A location can take extensions out of the `Sec-WebSocket-Extensions` headers of a request before the
backend sees them, because a compressed frame cannot be inspected.

* `wsStripOne`, `wsStrip`: the elements of a header and the headers of a request;
* `Removed`: the elements that are listed;
* `Stripped`: what becomes of a header;
* `wsStrip_stripped`: this is what the code does.
-/

namespace Extensions

open Octets Names Separated

/-- `ngx_table_elt_t`: a header line of a request has no NUL. -/
structure Header where
  hash : ℕ
  key : Bytes
  value : Bytes
  lowcaseKey : Bytes
  value_nul : 0 ∉ value

/-- `ngx_hash_key` -/
def hashKey (bs : Bytes) : ℕ := bs.foldl (fun h c => (h * 31 + c.toNat) % 2 ^ 64) 0

def extensionsKey : Bytes := ascii "Sec-WebSocket-Extensions"

def strippedKey : Bytes := ascii "X-WAF-Stripped-Extensions"

def blank (c : UInt8) : Bool := c = 32 || c = 9

/-- The name of an element: the part before its parameters, without the blanks around it. -/
def elementName (element : Bytes) : Bytes :=
  ((element.takeWhile (· ≠ 59)).dropWhile blank).rdropWhile blank

/-- `p`, `out`, `left` and `removed` in the loop of `ngx_http_waf_ws_strip_one`. -/
def stripLoop (names : List Bytes) (all : Bool) (p out : Bytes) (left removed : ℕ) :
    Bytes × ℕ × ℕ :=
  match p with
  | [] => (out, left, removed)
  | c :: s =>
    let element := (c :: s).takeWhile (· ≠ 44)
    let rest := ((c :: s).dropWhile (· ≠ 44)).drop 1
    if all || listedIn (some names) (elementName element) then
      stripLoop names all rest out left (removed + 1)
    else
      stripLoop names all rest ((if left ≠ 0 then out ++ [44] else out) ++ element) (left + 1) removed
termination_by p.length
decreasing_by all_goals exact rest_lt 44 c s

theorem nul_element {p : Bytes} (h : 0 ∉ p) : 0 ∉ p.takeWhile (· ≠ 44) :=
  fun hmem => h ((List.takeWhile_sublist _).subset hmem)

theorem nul_rest {p : Bytes} (h : 0 ∉ p) : 0 ∉ (p.dropWhile (· ≠ 44)).drop 1 :=
  fun hmem => h ((List.dropWhile_sublist _).subset (List.mem_of_mem_drop hmem))

/-- No NUL comes in. -/
theorem stripLoop_nul {names : List Bytes} {all : Bool} {p out : Bytes} {left removed : ℕ}
    (hp : 0 ∉ p) (hout : 0 ∉ out) : 0 ∉ (stripLoop names all p out left removed).1 := by
  induction hn : p.length using Nat.strong_induction_on generalizing p out left removed with
  | _ n ih =>
    subst hn
    cases p with
    | nil =>
      rw [stripLoop]
      exact hout
    | cons c s =>
      rw [stripLoop]
      split_ifs
      · exact ih _ (rest_lt 44 c s) (nul_rest hp) hout rfl
      · refine ih _ (rest_lt 44 c s) (nul_rest hp) ?_ rfl
        simp only [List.mem_append, not_or]
        exact ⟨⟨hout, by decide⟩, nul_element hp⟩
      · refine ih _ (rest_lt 44 c s) (nul_rest hp) ?_ rfl
        rw [List.mem_append, not_or]
        exact ⟨hout, nul_element hp⟩

/-- `ngx_http_waf_ws_strip_one` after its loop: `r` is `out`, `left` and `removed`.  `mem` says whether
the lower-case key can be allocated. -/
def wsStripEnd (mem : Bool) (ext : Header) (r : Bytes × ℕ × ℕ) (hr : 0 ∉ r.1) : Header × ℕ × ℕ :=
  if r.2.2 = 0 then (ext, 0, r.2.1)
  else if r.2.1 ≠ 0 then ({ ext with value := r.1, value_nul := hr }, r.2.2, r.2.1)
  else if mem then
    ({ ext with
        key := strippedKey
        lowcaseKey := strippedKey.map lower
        hash := hashKey (strippedKey.map lower) }, r.2.2, r.2.1)
  else ({ ext with key := strippedKey, lowcaseKey := [], hash := 0 }, r.2.2, r.2.1)

/-- `ngx_http_waf_ws_strip_one`: the header, the number of elements that were removed, and the number
of those that are kept.  `mem` says which of the two allocations succeed. -/
def wsStripOne (mem : Bool × Bool) (names : List Bytes) (all : Bool) (ext : Header) :
    Header × ℕ × ℕ :=
  if mem.1 then
    wsStripEnd mem.2 ext (stripLoop names all ext.value [] 0 0)
      (stripLoop_nul ext.value_nul List.not_mem_nil)
  else (ext, 0, 0)

/-- The test for a header with extensions. -/
def Header.hasExtensions (h : Header) : Bool :=
  h.key.length = extensionsKey.length && strncasecmp h.key extensionsKey h.key.length = 0 &&
    h.value.length ≠ 0

/-- `names` has `all`. -/
def hasAll (names : List Bytes) : Bool := names.any fun name => name = ascii "all"

/-- The loop of `ngx_http_waf_ws_strip` over the headers, with the numbers of elements removed and
kept. -/
def wsStrip (mem : ℕ → Bool × Bool) (names : List Bytes) : List Header → List Header × ℕ × ℕ
  | [] => ([], 0, 0)
  | h :: hs =>
    let rest := wsStrip (fun n => mem (n + 1)) names hs
    if h.hasExtensions then
      let one := wsStripOne (mem 0) names (hasAll names) h
      (one.1 :: rest.1, one.2.1 + rest.2.1, one.2.2 + rest.2.2)
    else (h :: rest.1, rest.2.1, rest.2.2)

/-! ### What becomes of a header -/

/-- Bytes that differ in the case of letters only. -/
def SameFold (a b : Bytes) : Prop := a.map lower = b.map lower

/-- The header is named `Sec-WebSocket-Extensions`, in any case. -/
def Header.IsExtensions (h : Header) : Prop := SameFold h.key extensionsKey

/-- An element that is to be removed. -/
def Removed (names : List Bytes) (element : Bytes) : Prop :=
  ascii "all" ∈ names ∨ ∃ name ∈ names, SameFold name (elementName element)

instance (names : List Bytes) (element : Bytes) : Decidable (Removed names element) :=
  inferInstanceAs (Decidable (_ ∨ ∃ name ∈ names, name.map lower = (elementName element).map lower))

/-- The elements that stay. -/
def kept (names : List Bytes) (value : Bytes) : List Bytes :=
  (cells 44 value).filter fun x => ¬Removed names x

/-- A header after the stripping. -/
structure Stripped (names : List Bytes) (h h' : Header) : Prop where
  other : ¬h.IsExtensions → h' = h
  untouched : kept names h.value = cells 44 h.value → h' = h
  left : h.IsExtensions → kept names h.value ≠ [] → kept names h.value ≠ cells 44 h.value →
    h'.key = h.key ∧ h'.lowcaseKey = h.lowcaseKey ∧ h'.hash = h.hash ∧
      h'.value = [44].intercalate (kept names h.value)
  gone : h.IsExtensions → cells 44 h.value ≠ [] → kept names h.value = [] →
    ¬h'.IsExtensions ∧ h'.value = h.value
  clean : h'.IsExtensions → ∀ x ∈ cells 44 h'.value, ¬Removed names x
  short : h'.value.length ≤ h.value.length
  buffer : (stripLoop names (hasAll names) h.value [] 0 0).1.length ≤ h.value.length

/-! ### What is compared -/

theorem sameFold_iff {a b : Bytes} : SameFold a b ↔ SameBytes a b := by
  rw [SameFold, ← List.forall₂_eq_eq_eq, List.forall₂_map_left_iff, List.forall₂_map_right_iff]

/-- Without a NUL the comparison finds exactly the same bytes in any case. -/
theorem compare_iff {a b : Bytes} (hb : 0 ∉ b) :
    (a.length = b.length ∧ strncasecmp a b b.length = 0) ↔ SameFold a b := by
  rw [sameFold_iff]
  constructor
  · rintro ⟨hlen, hcmp⟩
    exact strncasecmp_eq_zero hlen (fun h => hb (List.mem_of_mem_dropLast h)) hcmp
  · intro h
    exact ⟨h.length_eq, strncasecmp_of_same h _⟩

theorem nul_elementName {element : Bytes} (h : 0 ∉ element) : 0 ∉ elementName element := by
  intro hmem
  have hdrop := (List.rdropWhile_prefix _ _).subset hmem
  exact h ((List.takeWhile_sublist _).subset ((List.dropWhile_sublist _).subset hdrop))

/-- The test of the loop. -/
theorem removed_iff (names : List Bytes) {element : Bytes} (h : 0 ∉ element) :
    (hasAll names || listedIn (some names) (elementName element)) = true ↔
      Removed names element := by
  rw [Bool.or_eq_true, hasAll, listedIn, List.any_eq_true, List.any_eq_true, Removed]
  refine or_congr ?_ ?_
  · simp
  · refine exists_congr fun name => and_congr_right fun _ => ?_
    rw [Bool.and_eq_true, decide_eq_true_eq, decide_eq_true_eq]
    exact compare_iff (nul_elementName h)

theorem hasExtensions_iff (h : Header) :
    h.hasExtensions = true ↔ h.IsExtensions ∧ h.value ≠ [] := by
  have hnul : 0 ∉ extensionsKey := by decide
  rw [Header.hasExtensions, Bool.and_eq_true, Bool.and_eq_true, decide_eq_true_eq, decide_eq_true_eq,
    decide_eq_true_eq, Header.IsExtensions, ← compare_iff hnul, ne_eq, List.length_eq_zero_iff]
  refine and_congr_left fun _ => and_congr_right fun hlen => ?_
  rw [hlen]

/-! ### The loop -/

section

variable {names : List Bytes} {p out : Bytes} {left removed : ℕ}

/-- The elements that are removed. -/
def removedCount (names : List Bytes) (value : Bytes) : ℕ := (cells 44 value).countP (Removed names)

theorem kept_cons (names : List Bytes) (c : UInt8) (s : Bytes) : kept names (c :: s) =
    if Removed names ((c :: s).takeWhile (· ≠ 44)) then
      kept names (((c :: s).dropWhile (· ≠ 44)).drop 1)
    else (c :: s).takeWhile (· ≠ 44) :: kept names (((c :: s).dropWhile (· ≠ 44)).drop 1) := by
  rw [kept, cells_cons, List.filter_cons, kept]
  generalize (c :: s).takeWhile (· ≠ 44) = element
  by_cases h : Removed names element
  · rw [if_pos h, if_neg (by simpa using h)]
  · rw [if_neg h, if_pos (by simpa using h)]

theorem removedCount_cons (names : List Bytes) (c : UInt8) (s : Bytes) :
    removedCount names (c :: s) = removedCount names (((c :: s).dropWhile (· ≠ 44)).drop 1) +
      if Removed names ((c :: s).takeWhile (· ≠ 44)) then 1 else 0 := by
  rw [removedCount, cells_cons, List.countP_cons, removedCount]
  simp

theorem kept_nil (names : List Bytes) : kept names [] = [] := by rw [kept, cells_nil]; rfl

theorem removedCount_nil (names : List Bytes) : removedCount names [] = 0 := by
  rw [removedCount, cells_nil]
  rfl

/-- After an element that is kept, every other one comes with its comma. -/
theorem stripLoop_more (hp : 0 ∉ p) (hleft : left ≠ 0) :
    stripLoop names (hasAll names) p out left removed =
      (out ++ (kept names p).flatMap (44 :: ·), left + (kept names p).length,
        removed + removedCount names p) := by
  induction hn : p.length using Nat.strong_induction_on generalizing p out left removed with
  | _ n ih =>
    subst hn
    cases p with
    | nil => simp [stripLoop, kept_nil, removedCount_nil]
    | cons c s =>
      have hiff := removed_iff names (nul_element hp)
      rw [stripLoop, kept_cons, removedCount_cons]
      by_cases hrem : Removed names ((c :: s).takeWhile (· ≠ 44))
      · rw [if_pos (hiff.mpr hrem), ih _ (rest_lt 44 c s) (nul_rest hp) hleft rfl, if_pos hrem,
          if_pos hrem]
        simp only [Prod.mk.injEq, true_and]
        omega
      · rw [if_neg fun h => hrem (hiff.mp h), if_pos hleft,
          ih _ (rest_lt 44 c s) (nul_rest hp) (Nat.succ_ne_zero left) rfl, if_neg hrem, if_neg hrem]
        simp only [List.flatMap_cons, List.append_assoc, List.length_cons, Prod.mk.injEq]
        exact ⟨rfl, by omega, by omega⟩

/-- **The loop joins the elements that are kept.** -/
theorem stripLoop_eq (names : List Bytes) (removed : ℕ) (hp : 0 ∉ p) :
    stripLoop names (hasAll names) p [] 0 removed =
      ([44].intercalate (kept names p), (kept names p).length, removed + removedCount names p) := by
  induction hn : p.length using Nat.strong_induction_on generalizing p removed with
  | _ n ih =>
    subst hn
    cases p with
    | nil => simp [stripLoop, kept_nil, removedCount_nil]
    | cons c s =>
      have hiff := removed_iff names (nul_element hp)
      rw [stripLoop, kept_cons, removedCount_cons]
      by_cases hrem : Removed names ((c :: s).takeWhile (· ≠ 44))
      · rw [if_pos (hiff.mpr hrem), ih _ (rest_lt 44 c s) _ (nul_rest hp) rfl, if_pos hrem,
          if_pos hrem]
        simp only [Prod.mk.injEq, true_and]
        omega
      · rw [if_neg fun h => hrem (hiff.mp h), if_neg (not_not.mpr rfl),
          stripLoop_more (nul_rest hp) (Nat.succ_ne_zero 0), if_neg hrem, if_neg hrem,
          intercalate_cons]
        simp only [List.nil_append, List.length_cons, Prod.mk.injEq, true_and]
        exact ⟨by omega, by omega⟩

theorem removedCount_eq_zero : removedCount names p = 0 ↔ kept names p = cells 44 p := by
  rw [removedCount, List.countP_eq_zero, kept, List.filter_eq_self]
  simp

end

/-! ### One header and all of them -/

section

variable {names : List Bytes} {h : Header}

theorem stripped_not_extensions : ¬SameFold strippedKey extensionsKey := by
  unfold SameFold
  decide

theorem not_removed_of_kept {value x : Bytes} (hx : x ∈ kept names value) : ¬Removed names x := by
  simpa using (List.mem_filter.mp hx).2

/-- What is left has no element that is listed. -/
theorem clean_intercalate {value : Bytes} (hne : kept names value ≠ []) :
    ∀ x ∈ cells 44 ([44].intercalate (kept names value)), ¬Removed names x := by
  intro x hx
  have hparts := mem_splitOn_of_cells hx
  have hno : ∀ l ∈ kept names value, 44 ∉ l := fun l hl => not_mem_of_cells (List.mem_filter.mp hl).1
  rw [List.splitOn_intercalate 44 hno hne] at hparts
  exact not_removed_of_kept hparts

theorem clean_untouched (heq : kept names h.value = cells 44 h.value) :
    ∀ x ∈ cells 44 h.value, ¬Removed names x := by
  intro x hx
  exact not_removed_of_kept (heq ▸ hx)

theorem loop_short (names : List Bytes) (h : Header) :
    (stripLoop names (hasAll names) h.value [] 0 0).1.length ≤ h.value.length := by
  rw [stripLoop_eq names 0 h.value_nul]
  exact length_intercalate_filter_le 44 _ _

/-- A header that the loop does not take. -/
theorem Stripped.skip (hskip : h.hasExtensions = false) : Stripped names h h := by
  have hempty : h.IsExtensions → h.value = [] := by
    intro hext
    by_contra hvalue
    rw [(hasExtensions_iff h).mpr ⟨hext, hvalue⟩] at hskip
    cases hskip
  refine ⟨fun _ => rfl, fun _ => rfl, fun hext hne _ => ?_, fun hext hne _ => ?_, fun hext => ?_,
    le_rfl, loop_short names h⟩
  · rw [hempty hext, kept_nil] at hne
    exact absurd rfl hne
  · rw [hempty hext, cells_nil] at hne
    exact absurd rfl hne
  · rw [hempty hext, cells_nil]
    simp

/-- The three ends of the loop. -/
theorem wsStripEnd_cases (h : Header) (r : Bytes × ℕ × ℕ) (hr : 0 ∉ r.1) :
    (r.2.2 = 0 ∧ (wsStripEnd true h r hr).1 = h) ∨
    (r.2.2 ≠ 0 ∧ r.2.1 ≠ 0 ∧
      (wsStripEnd true h r hr).1 = { h with value := r.1, value_nul := hr }) ∨
    (r.2.2 ≠ 0 ∧ r.2.1 = 0 ∧ (wsStripEnd true h r hr).1 = { h with
      key := strippedKey
      lowcaseKey := strippedKey.map lower
      hash := hashKey (strippedKey.map lower) }) := by
  rw [wsStripEnd]
  by_cases hremoved : r.2.2 = 0
  · rw [if_pos hremoved]
    exact .inl ⟨hremoved, rfl⟩
  · rw [if_neg hremoved]
    by_cases hleft : r.2.1 = 0
    · rw [if_neg (not_not.mpr hleft), if_pos rfl]
      exact .inr (.inr ⟨hremoved, hleft, rfl⟩)
    · rw [if_pos hleft]
      exact .inr (.inl ⟨hremoved, hleft, rfl⟩)

theorem wsStripOne_stripped (names : List Bytes) (hext : h.hasExtensions = true) :
    Stripped names h (wsStripOne (true, true) names (hasAll names) h).1 := by
  obtain ⟨hkey, -⟩ := (hasExtensions_iff h).mp hext
  have hbuffer := loop_short names h
  have hloop := stripLoop_eq names 0 h.value_nul
  have hnul : 0 ∉ (stripLoop names (hasAll names) h.value [] 0 0).1 :=
    stripLoop_nul h.value_nul List.not_mem_nil
  rw [Nat.zero_add] at hloop
  rw [wsStripOne, if_pos rfl]
  have hcases := wsStripEnd_cases h _ hnul
  generalize (wsStripEnd true h _ hnul).1 = h' at hcases ⊢
  generalize stripLoop names (hasAll names) h.value [] 0 0 = r at hloop hnul hcases
  subst hloop
  rcases hcases with ⟨hzero, heq⟩ | ⟨hsome, hkept, heq⟩ | ⟨hsome, hnil, heq⟩
  · have hall := removedCount_eq_zero.mp hzero
    rw [heq]
    exact ⟨fun _ => rfl, fun _ => rfl, fun _ _ hne => absurd hall hne,
      fun _ hne hnil => absurd (hall ▸ hnil) hne, fun _ => clean_untouched hall, le_rfl, hbuffer⟩
  · have hne := mt removedCount_eq_zero.mpr hsome
    have hkept : kept names h.value ≠ [] := mt List.length_eq_zero_iff.mpr hkept
    rw [heq]
    refine ⟨fun hno => absurd hkey hno, fun heq => absurd heq hne, fun _ _ _ => ⟨rfl, rfl, rfl, rfl⟩,
      fun _ _ hnil => absurd hnil hkept, fun _ => clean_intercalate hkept,
      length_intercalate_filter_le 44 _ _, hbuffer⟩
  · have hne := mt removedCount_eq_zero.mpr hsome
    have hnil : kept names h.value = [] := List.length_eq_zero_iff.mp hnil
    have hgone : ¬h'.IsExtensions := by
      rw [Header.IsExtensions, heq]
      exact stripped_not_extensions
    have hvalue := congrArg Header.value heq
    exact ⟨fun hno => absurd hkey hno, fun heq => absurd heq hne, fun _ hkept _ => absurd hnil hkept,
      fun _ _ _ => ⟨hgone, hvalue⟩, fun hkey' => absurd hkey' hgone,
      le_of_eq (congrArg List.length hvalue), hbuffer⟩

/-- **What the stripping leaves of the headers of a request.** -/
theorem wsStrip_stripped (mem : ℕ → Bool × Bool) (hmem : ∀ n, mem n = (true, true))
    (names : List Bytes) (headers : List Header) :
    List.Forall₂ (Stripped names) headers (wsStrip mem names headers).1 := by
  induction headers generalizing mem with
  | nil => exact .nil
  | cons h hs ih =>
    have hrest := ih (fun n => mem (n + 1)) fun n => hmem (n + 1)
    rw [wsStrip]
    by_cases hext : h.hasExtensions = true
    · simp only [hext, if_true, hmem 0]
      exact .cons (wsStripOne_stripped names hext) hrest
    · rw [if_neg hext]
      exact .cons (.skip (by simpa using hext)) hrest

/-- The one header of the examples. -/
def sampleHeader (value : Bytes) (hnul : 0 ∉ value) : Header :=
  ⟨hashKey (extensionsKey.map lower), extensionsKey, value, extensionsKey.map lower, hnul⟩

def sampleValue : Bytes := ascii "permessage-deflate; client_no_context_takeover, foo,"

def sampleNames : List Bytes := [ascii "Permessage-Deflate"]

theorem wsStrip_sample : List.Forall₂ (Stripped sampleNames) [sampleHeader sampleValue (by decide)]
    (wsStrip (fun _ => (true, true)) sampleNames [sampleHeader sampleValue (by decide)]).1 :=
  wsStrip_stripped _ (fun _ => rfl) _ _

/-- The empty element behind the last comma is not left, and a header with an empty value stays one of
that name when every extension is to go. -/
theorem empty_elements_inexact :
    (sampleValue.splitOn 44 =
        [ascii "permessage-deflate; client_no_context_takeover", ascii " foo", []] ∧
      ¬Removed sampleNames [] ∧
      (wsStrip (fun _ => (true, true)) sampleNames
        [sampleHeader sampleValue (by decide)]).1.map Header.value = [ascii " foo"]) ∧
    (∀ element, Removed [ascii "all"] element) ∧ (sampleHeader [] (by decide)).IsExtensions ∧
      (wsStrip (fun _ => (true, true)) [ascii "all"] [sampleHeader [] (by decide)]).1 =
        [sampleHeader [] (by decide)] := by
  refine ⟨⟨by decide +kernel, by decide +kernel, ?_⟩, fun _ => .inl (List.mem_singleton.mpr rfl), rfl,
    ?_⟩
  · have hext : (sampleHeader sampleValue (by decide)).hasExtensions = true := by decide +kernel
    have hvalue := ((wsStripOne_stripped sampleNames hext).left (by rfl) (by decide +kernel)
      (by decide +kernel)).2.2.2
    rw [wsStrip, if_pos hext]
    simp only [wsStrip, List.map_cons, List.map_nil, hvalue]
    decide +kernel
  · have hext : (sampleHeader [] (by decide)).hasExtensions = false := by decide +kernel
    rw [wsStrip, hext]
    rfl

end

end Extensions
