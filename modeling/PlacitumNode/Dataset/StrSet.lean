import PlacitumNode.Lib.Octets
import PlacitumNode.Lib.Probing

/-!
# Internal sets of strings

The strings of an internal dataset as `ngx_http_waf_dataset.c` keeps them: one after the other in a
blob, each after its length in two bytes, and a hash table of offsets into the blob, one more than
the offset so that 0 is a free slot.  The table has a power of two of slots, at least twice as many as
there are strings.

* `strProbe`: the probe, which `buildStr` and the lookup share;
* `buildStr`: the set of a list of strings;
* `cell`: the string a slot stands for, and `strProbe_eq`: the probe is linear probing for it;
* `Filled`: what holds after every string that was stored;
* `str_set_exact`: the table keeps a free slot, the probe ends, and it finds the strings of the list.
-/

namespace Dataset

open Octets Probing

/-- `ngx_http_waf_str_set_t` -/
structure StrSet where
  mask : ℕ
  table : List ℕ
  blob : Bytes
  deriving DecidableEq

/-- The length in the first two bytes of an entry. -/
def entryLen (entry : Bytes) : ℕ := (entry.getD 0 0).toNat <<< 8 + (entry.getD 1 0).toNat

/-- The loop of `ngx_http_waf_ds_str_probe`; `none` when the rounds run out. -/
def strProbeLoop (set : StrSet) (data : Bytes) : ℕ → ℕ → Option (Bool × ℕ)
  | 0, _ => none
  | fuel + 1, i =>
    let off := set.table.getD i 0
    if off = 0 then some (false, i)
    else
      let entry := set.blob.drop (off - 1)
      if entryLen entry = data.length ∧ (entry.drop 2).take data.length = data then some (true, i)
      else strProbeLoop set data fuel ((i + 1) &&& set.mask)

section

variable (crc : Bytes → ℕ)

/-- `ngx_http_waf_ds_str_probe`: whether the string is there, and the slot where the probe ended.  The
loop goes around the table, so one that has not ended after a round of it never does. -/
def strProbe (set : StrSet) (data : Bytes) : Option (Bool × ℕ) :=
  strProbeLoop set data (set.mask + 1) (crc data &&& set.mask)

/-- The slots of the table: 8, doubled while there are fewer than `2 * n`. -/
def tableLoop (n : ℕ) : ℕ → ℕ → ℕ
  | 0, table => table
  | fuel + 1, table => if table < n * 2 then tableLoop n fuel (table * 2) else table

/-- The strings are appended to the blob, and their offsets stored in the table. -/
def fillLoop : StrSet → List Bytes → Option StrSet
  | set, [] => some set
  | set, s :: rest =>
    let grown := { set with
      blob := set.blob ++ UInt8.ofNat (s.length >>> 8) :: UInt8.ofNat (s.length &&& 0xff) :: s }
    match strProbe crc grown s with
    | none => none
    | some (_, slot) =>
      fillLoop
        { grown with table := set.table.set slot ((set.blob.length % 2 ^ 32 + 1) % 2 ^ 32) } rest

/-- `ngx_http_waf_ds_build_str`: the set, or nothing when a string or the blob is too long or the slab
has no room; `none` when a probe does not end. -/
def buildStr (calloc : ℕ → Bool) (items : List Bytes) : Option (Option StrSet) :=
  let table := tableLoop items.length items.length 8
  if items.any fun s => s.length > 4096 then some none
  else
    let blobLen := (items.map fun s => 2 + s.length).sum
    if blobLen ≥ 0xffffffff then some none
    else if !calloc (40 + table * 4 + blobLen) then some none
    else (fillLoop crc ⟨table - 1, List.replicate table 0, []⟩ items).map some

end

/-! ### The probe -/

/-- The string at an offset of the blob. -/
def entryAt (blob : Bytes) (off : ℕ) : Bytes :=
  ((blob.drop off).drop 2).take (entryLen (blob.drop off))

/-- The string a slot stands for. -/
def cell (set : StrSet) (i : ℕ) : Option Bytes :=
  if set.table.getD i 0 = 0 then none else some (entryAt set.blob (set.table.getD i 0 - 1))

/-- An entry lies whole in the blob. -/
def Whole (blob : Bytes) (off : ℕ) : Prop := entryLen (blob.drop off) + 2 ≤ (blob.drop off).length

/-- The table has a power of two of slots, and every offset in it is that of an entry. -/
structure Formed (set : StrSet) : Prop where
  slots : ∃ k, set.mask + 1 = 2 ^ k
  size : set.table.length = set.mask + 1
  whole : ∀ i, set.table.getD i 0 ≠ 0 → Whole set.blob (set.table.getD i 0 - 1)

theorem entryAt_eq_iff {blob data : Bytes} {off : ℕ} (hw : Whole blob off) :
    entryLen (blob.drop off) = data.length ∧ ((blob.drop off).drop 2).take data.length = data ↔
      entryAt blob off = data := by
  unfold entryAt
  unfold Whole at hw
  constructor
  · rintro ⟨hlen, hdata⟩
    rw [hlen, hdata]
  · intro h
    have hlen : entryLen (blob.drop off) = data.length := by
      rw [← h, List.length_take, List.length_drop]
      omega
    exact ⟨hlen, by rw [← hlen, h]⟩

theorem Formed.and_mask {set : StrSet} (hf : Formed set) (i : ℕ) :
    i &&& set.mask = i % (set.mask + 1) := by
  obtain ⟨k, hk⟩ := hf.slots
  rw [hk, ← Nat.and_two_pow_sub_one_eq_mod, ← hk, Nat.add_sub_cancel]

/-- **The probe is linear probing** over the strings of the slots. -/
theorem strProbeLoop_eq {set : StrSet} (hf : Formed set) (data : Bytes) (fuel i : ℕ) :
    strProbeLoop set data fuel i = probe (set.mask + 1) (cell set) data fuel i := by
  induction fuel generalizing i with
  | zero => rfl
  | succ fuel ih =>
    simp only [strProbeLoop, probe, cell]
    by_cases h0 : set.table.getD i 0 = 0
    · rw [if_pos h0, if_pos h0]
    · rw [if_neg h0, if_neg h0, hf.and_mask, ih]
      simp only [entryAt_eq_iff (hf.whole i h0)]

theorem strProbe_eq {crc : Bytes → ℕ} {set : StrSet} (hf : Formed set) (data : Bytes) :
    strProbe crc set data =
      probe (set.mask + 1) (cell set) data (set.mask + 1) (crc data % (set.mask + 1)) := by
  rw [strProbe, strProbeLoop_eq hf, hf.and_mask]

/-- An entry does not change when the blob grows. -/
theorem Whole.append {blob : Bytes} {off : ℕ} (hw : Whole blob off) (more : Bytes) :
    Whole (blob ++ more) off ∧ entryAt (blob ++ more) off = entryAt blob off := by
  unfold Whole at hw
  have hle : off ≤ blob.length := by
    by_contra hgt
    rw [List.drop_eq_nil_of_le (by omega)] at hw
    simp at hw
  have hdrop : (blob ++ more).drop off = blob.drop off ++ more := List.drop_append_of_le_length hle
  have hlen : entryLen (blob.drop off ++ more) = entryLen (blob.drop off) := by
    unfold entryLen
    rw [List.getD_append _ _ _ _ (by omega), List.getD_append _ _ _ _ (by omega)]
  unfold Whole entryAt
  rw [hdrop, hlen]
  refine ⟨by rw [List.length_append]; omega, ?_⟩
  rw [List.drop_append_of_le_length (by omega),
    List.take_append_of_le_length (by rw [List.length_drop]; omega)]

/-- The entry that is appended for a string. -/
theorem whole_appended (blob s : Bytes) (hs : s.length ≤ 4096) :
    let grown := blob ++ UInt8.ofNat (s.length >>> 8) :: UInt8.ofNat (s.length &&& 0xff) :: s
    Whole grown blob.length ∧ entryAt grown blob.length = s := by
  intro grown
  have hdrop : grown.drop blob.length =
      UInt8.ofNat (s.length >>> 8) :: UInt8.ofNat (s.length &&& 0xff) :: s := List.drop_left
  have hlen : entryLen (grown.drop blob.length) = s.length := by
    rw [hdrop, entryLen, List.getD_cons_zero, List.getD_cons_succ, List.getD_cons_zero,
      UInt8.toNat_ofNat', UInt8.toNat_ofNat', Nat.shiftRight_eq_div_pow, Nat.shiftLeft_eq,
      show s.length &&& 0xff = s.length % 2 ^ 8 from Nat.and_two_pow_sub_one_eq_mod s.length 8]
    omega
  unfold Whole entryAt
  rw [hlen, hdrop]
  exact ⟨by simp, by simp⟩

/-! ### Filling the table -/

/-- The strings that were stored are the strings of the slots, and the table is clustered. -/
structure Filled (crc : Bytes → ℕ) (set : StrSet) (stored : List Bytes) : Prop where
  formed : Formed set
  clustered : Clustered (set.mask + 1) (fun s => crc s % (set.mask + 1)) (cell set)
  cells : ∀ s, (∃ i < set.mask + 1, cell set i = some s) ↔ s ∈ stored
  taken : set.table.countP (fun off => off ≠ 0) ≤ stored.length

section

variable {crc : Bytes → ℕ} {set : StrSet} {stored : List Bytes}

/-- There are more slots than strings, so one of them is free. -/
theorem Filled.free (hf : Filled crc set stored) (hlt : stored.length < set.mask + 1) :
    ∃ i < set.mask + 1, cell set i = none := by
  by_contra hno
  have hall : set.table.countP (fun off => off ≠ 0) = set.table.length := by
    rw [List.countP_eq_length]
    intro off hoff
    obtain ⟨i, hi, rfl⟩ := List.mem_iff_getElem.1 hoff
    refine decide_eq_true fun h0 => hno ⟨i, ?_, ?_⟩
    · rw [← hf.formed.size]
      exact hi
    · rw [cell, if_pos (by rw [List.getD_eq_getElem _ _ hi, h0])]
  have := hf.taken
  rw [hall, hf.formed.size] at this
  omega

/-- **The probe of a filled table** ends and finds the strings that were stored. -/
theorem Filled.strProbe (hf : Filled crc set stored) (hlt : stored.length < set.mask + 1)
    (data : Bytes) :
    ∃ slot, strProbe crc set data = some (decide (data ∈ stored), slot) := by
  rw [strProbe_eq hf.formed]
  obtain ⟨j, ⟨h, hin⟩ | ⟨h, hout⟩⟩ := probe_eq hf.clustered
    (Nat.mod_lt (crc data) (Nat.succ_pos set.mask)) (hf.free hlt)
  · refine ⟨j, ?_⟩
    rw [h, decide_eq_true ((hf.cells data).1 hin)]
  · refine ⟨j, ?_⟩
    have hnot : data ∉ stored := by
      intro hmem
      obtain ⟨i, hi, hcell⟩ := (hf.cells data).2 hmem
      exact hout i hi hcell
    rw [h, decide_eq_false hnot]

/-- The strings of the slots do not change when the blob grows. -/
theorem Filled.grow (hf : Filled crc set stored) (more : Bytes) :
    Filled crc { set with blob := set.blob ++ more } stored ∧
      cell { set with blob := set.blob ++ more } = cell set := by
  have hcell : cell { set with blob := set.blob ++ more } = cell set := by
    funext i
    unfold cell
    simp only
    split
    · rfl
    · next h0 => rw [((hf.formed.whole i h0).append more).2]
  refine ⟨⟨⟨hf.formed.slots, hf.formed.size, fun i h0 => ?_⟩, ?_, ?_, hf.taken⟩, hcell⟩
  · exact ((hf.formed.whole i h0).append more).1
  · rw [hcell]
    exact hf.clustered
  · rw [hcell]
    exact hf.cells

theorem getD_set_of_lt {l : List ℕ} {j v : ℕ} (hj : j < l.length) (i : ℕ) :
    (l.set j v).getD i 0 = if i = j then v else l.getD i 0 := by
  rw [List.getD_eq_getElem?_getD, List.getD_eq_getElem?_getD, List.getElem?_set]
  by_cases h : j = i
  · subst h
    simp [hj]
  · rw [if_neg h, if_neg (Ne.symm h)]

/-- Storing a new string: its probe ends at a free slot, which then stands for it. -/
theorem Filled.store (hf : Filled crc set stored) (hlt : stored.length < set.mask + 1) {s : Bytes}
    (hs : s ∉ stored) (hlen : s.length ≤ 4096) (hat : set.blob.length + 1 < 2 ^ 32) :
    let grown := { set with
      blob := set.blob ++ UInt8.ofNat (s.length >>> 8) :: UInt8.ofNat (s.length &&& 0xff) :: s }
    ∃ slot, Dataset.strProbe crc grown s = some (false, slot) ∧
      Filled crc { grown with table := set.table.set slot ((set.blob.length % 2 ^ 32 + 1) % 2 ^ 32) }
        (s :: stored) := by
  intro grown
  obtain ⟨hg, hsame⟩ :=
    hf.grow (UInt8.ofNat (s.length >>> 8) :: UInt8.ofNat (s.length &&& 0xff) :: s)
  obtain ⟨slot, hprobe⟩ := hg.strProbe hlt s
  rw [decide_eq_false hs] at hprobe
  refine ⟨slot, hprobe, ?_⟩
  have hhome : crc s % (set.mask + 1) < set.mask + 1 := Nat.mod_lt _ (Nat.succ_pos _)
  rw [strProbe_eq hg.formed] at hprobe
  obtain ⟨hfree, d, -, hd, -⟩ := probe_false hhome hprobe
  have hslot : slot < set.mask + 1 := by
    rw [hd]
    exact Nat.mod_lt _ (Nat.succ_pos _)
  have hv : (set.blob.length % 2 ^ 32 + 1) % 2 ^ 32 = set.blob.length + 1 := by omega
  rw [hv]
  have hget := getD_set_of_lt (v := set.blob.length + 1) (hf.formed.size.symm ▸ hslot)
  obtain ⟨hwhole, hentry⟩ := whole_appended set.blob s hlen
  have hcell : cell { grown with table := set.table.set slot (set.blob.length + 1) } =
      Function.update (cell grown) slot (some s) := by
    funext i
    by_cases hi : i = slot
    · subst hi
      rw [Function.update_self, cell]
      simp only [hget, if_true, Nat.add_one_ne_zero, if_false, Nat.add_sub_cancel]
      exact congrArg some hentry
    · rw [Function.update_of_ne hi]
      simp only [cell, hget, if_neg hi]
      rfl
  refine ⟨⟨hf.formed.slots, ?_, fun i h0 => ?_⟩, ?_, fun x => ?_, ?_⟩
  · rw [List.length_set]
    exact hf.formed.size
  · simp only [hget] at h0 ⊢
    by_cases hi : i = slot
    · rw [if_pos hi]
      exact hwhole
    · rw [if_neg hi] at h0 ⊢
      exact hg.formed.whole i h0
  · rw [hcell]
    exact hg.clustered.insert hhome hprobe
  · rw [hcell, List.mem_cons, ← hg.cells x]
    constructor
    · rintro ⟨i, hi, hx⟩
      by_cases his : i = slot
      · rw [his, Function.update_self] at hx
        exact .inl (Option.some.inj hx).symm
      · rw [Function.update_of_ne his] at hx
        exact .inr ⟨i, hi, hx⟩
    · rintro (rfl | ⟨i, hi, hx⟩)
      · exact ⟨slot, hslot, Function.update_self ..⟩
      · refine ⟨i, hi, ?_⟩
        rw [Function.update_of_ne, hx]
        rintro rfl
        rw [hfree] at hx
        cases hx
  · rw [List.countP_set (hf.formed.size.symm ▸ hslot), List.length_cons]
    have := hf.taken
    simp only [ne_eq, decide_not] at this ⊢
    split <;> simp <;> omega

theorem Filled.fillLoop (hf : Filled crc set stored) {items : List Bytes} (hnd : items.Nodup)
    (hnew : ∀ s ∈ items, s ∉ stored) (hlen : ∀ s ∈ items, s.length ≤ 4096)
    (hroom : stored.length + items.length < set.mask + 1)
    (hblob : set.blob.length + (items.map fun s => 2 + s.length).sum < 0xffffffff) :
    ∃ t, Dataset.fillLoop crc set items = some t ∧ t.mask = set.mask ∧
      Filled crc t (items.reverse ++ stored) := by
  induction items generalizing set stored with
  | nil => exact ⟨set, rfl, rfl, hf⟩
  | cons s items ih =>
    rw [List.nodup_cons] at hnd
    rw [List.map_cons, List.sum_cons] at hblob
    rw [List.length_cons] at hroom
    obtain ⟨slot, hprobe, hstored⟩ := hf.store (by omega) (hnew s List.mem_cons_self)
      (hlen s List.mem_cons_self) (by omega)
    simp only [Dataset.fillLoop, hprobe]
    have hnew' : ∀ x ∈ items, x ∉ s :: stored := by
      intro x hx hmem
      rcases List.mem_cons.1 hmem with rfl | hmem
      · exact hnd.1 hx
      · exact hnew x (List.mem_cons_of_mem s hx) hmem
    obtain ⟨t, ht, hmask, hfilled⟩ := ih hstored hnd.2 hnew'
      (fun x hx => hlen x (List.mem_cons_of_mem s hx))
      (by simp only [List.length_cons]; omega)
      (by simp only [List.length_append, List.length_cons]; omega)
    refine ⟨t, ht, hmask, ?_⟩
    rw [List.reverse_cons, List.append_assoc]
    exact hfilled

end

/-! ### The set of a list -/

theorem tableLoop_spec (n fuel table : ℕ) (h : n * 2 ≤ table * 2 ^ fuel) :
    n * 2 ≤ tableLoop n fuel table ∧ ∃ k, tableLoop n fuel table = table * 2 ^ k := by
  induction fuel generalizing table with
  | zero => exact ⟨by simpa [tableLoop] using h, 0, by simp [tableLoop]⟩
  | succ fuel ih =>
    simp only [tableLoop]
    split
    · obtain ⟨hle, k, hk⟩ := ih (table * 2) (by rw [pow_succ] at h; linarith)
      exact ⟨hle, k + 1, by rw [hk]; ring⟩
    · exact ⟨by omega, 0, by simp⟩

/-- The empty table. -/
theorem filled_nil (crc : Bytes → ℕ) {m k : ℕ} (hm : m = 2 ^ k) :
    Filled crc ⟨m - 1, List.replicate m 0, []⟩ [] := by
  have hpos : m - 1 + 1 = m := Nat.sub_add_cancel (hm ▸ Nat.one_le_two_pow)
  have hzero : ∀ i, (List.replicate m 0).getD i 0 = 0 := by
    intro i
    rw [List.getD_eq_getElem?_getD, List.getElem?_replicate]
    split <;> rfl
  have hcell : cell ⟨m - 1, List.replicate m 0, []⟩ = fun _ => none := by
    funext i
    rw [cell, if_pos (hzero i)]
  refine ⟨⟨⟨k, hpos.trans hm⟩, ?_, fun i h0 => absurd (hzero i) h0⟩, ?_, fun s => ?_, ?_⟩
  · rw [List.length_replicate, hpos]
  · rw [hcell]
    exact clustered_empty _ _
  · rw [hcell]
    simp
  · simp

/-- **The set of strings is exact and its probe ends.**  Building the set of a list of distinct strings
always ends, with a set when the blob is small enough for the offsets and the slab has room; the
table has a free slot, and the probe for any string ends and answers whether it is in the list. -/
theorem str_set_exact (crc : Bytes → ℕ) (calloc : ℕ → Bool) (items : List Bytes) (hnd : items.Nodup)
    (hlen : ∀ s ∈ items, 1 ≤ s.length ∧ s.length ≤ 4096) :
    ∃ built, buildStr crc calloc items = some built ∧
      ((items.map fun s => 2 + s.length).sum < 0xffffffff → (∀ size, calloc size = true) →
        built.isSome) ∧
      ∀ set, built = some set →
        (∃ i < set.table.length, set.table.getD i 0 = 0) ∧
        ∀ data, ∃ slot, strProbe crc set data = some (decide (data ∈ items), slot) := by
  unfold buildStr
  have hany : ¬ (items.any fun s => s.length > 4096) = true := by
    rw [List.any_eq_true]
    rintro ⟨s, hs, h⟩
    have := (hlen s hs).2
    have := of_decide_eq_true h
    omega
  simp only [if_neg hany]
  split
  · next hbig => exact ⟨none, rfl, fun h => absurd h (Nat.not_lt.2 hbig), fun set h => by cases h⟩
  · next hsmall =>
    split
    · next hno =>
      refine ⟨none, rfl, fun _ hroom => ?_, fun set h => by cases h⟩
      rw [hroom] at hno
      cases hno
    · obtain ⟨hle, k, hk⟩ := tableLoop_spec items.length items.length 8 (by
        have := Nat.lt_two_pow_self (n := items.length)
        omega)
      generalize tableLoop items.length items.length 8 = table at hle hk ⊢
      have hpow : table = 2 ^ (k + 3) := by
        rw [hk, pow_add]
        ring
      have hpos := Nat.one_le_two_pow (n := k + 3)
      rw [← hpow] at hpos
      obtain ⟨t, ht, hmask, hfilled⟩ := (filled_nil crc hpow).fillLoop hnd
        (fun s _ => List.not_mem_nil) (fun s hs => (hlen s hs).2)
        (by simp only [List.length_nil]; omega) (by simpa using hsmall)
      rw [ht]
      refine ⟨some t, rfl, fun _ _ => rfl, fun set h => ?_⟩
      cases h
      have hlt : (items.reverse ++ []).length < t.mask + 1 := by
        rw [hmask, List.append_nil, List.length_reverse]
        simp only
        omega
      constructor
      · obtain ⟨i, hi, hcell⟩ := hfilled.free hlt
        refine ⟨i, by rwa [hfilled.formed.size], ?_⟩
        unfold cell at hcell
        split at hcell
        · next h0 => exact h0
        · cases hcell
      · intro data
        obtain ⟨slot, h⟩ := hfilled.strProbe hlt data
        refine ⟨slot, ?_⟩
        rw [h]
        simp

/-- Three strings with one checksum. -/
theorem str_set_exact_collision :
    ∃ set, buildStr (fun _ => 7) (fun _ => true) [[1], [2, 2], [3]] = some (some set) ∧
      (∃ slot, strProbe (fun _ => 7) set [2, 2] = some (true, slot)) ∧
      ∃ slot, strProbe (fun _ => 7) set [4] = some (false, slot) := by
  obtain ⟨built, hbuilt, hsome, hset⟩ := str_set_exact (fun _ => 7) (fun _ => true) [[1], [2, 2], [3]]
    (by decide) (by decide)
  obtain ⟨set, rfl⟩ := Option.isSome_iff_exists.1 (hsome (by decide) fun _ => rfl)
  exact ⟨set, hbuilt, (hset set rfl).2 [2, 2], (hset set rfl).2 [4]⟩

end Dataset
