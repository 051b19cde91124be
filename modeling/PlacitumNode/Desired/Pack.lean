import PlacitumNode.Lib.Octets
import PlacitumNode.Lib.Replace

/-!
# A generation and its configuration (`agent/internal/desired/pointer.go`, `apply.go`)

* `RawPack`, `parsePack`: the manifest of a generation, and which ones are accepted;
* `extractRefs`, `substitute`: the store references of a configuration and their replacement;
* `liveText`: the configuration with all references and page tokens replaced at once;
* `substitute_eq`: this is what `substitute` gives, in whatever order it goes through the manifest.
-/

namespace Desired

open Octets Replace

/-- The members of the manifest; a map is a list of its members in some order. -/
structure RawPack where
  v : ℤ
  kind : String
  rev : ℤ
  sha256 : String
  config : String
  store : List (Bytes × String)
  pages : List (Bytes × String)
  store_nodup : (store.map Prod.fst).Nodup
  pages_nodup : (pages.map Prod.fst).Nodup

/-- `NginxPack`, as it is accepted -/
structure Pack where
  rev : ℤ
  sha256 : String
  config : String
  store : List (Bytes × String)
  pages : List (Bytes × String)
  store_nodup : (store.map Prod.fst).Nodup
  pages_nodup : (pages.map Prod.fst).Nodup

def hashed (hash : String) : Bool := "sha256:".toList.isPrefixOf hash.toList

def slash : UInt8 := 47

def safePageName (name : Bytes) : Bool :=
  name ≠ [] && name.length ≤ 128 && !name.contains slash && !name.contains 92 &&
    !(name.tails.any fun t => (ascii "..").isPrefixOf t) && name ≠ ascii "."

/-- `ParsePack`, after the JSON has been read -/
def parsePack (r : RawPack) : Option Pack :=
  if r.v ≠ 1 ∨ r.kind ≠ "nginx-pack" then none
  else if r.rev < 1 then none
  else if r.sha256 = "" ∨ !hashed r.sha256 then none
  else if r.config = "" ∨ !hashed r.config then none
  else if !(r.pages.all fun p => safePageName p.1 && hashed p.2) then none
  else some ⟨r.rev, r.sha256, r.config, r.store, r.pages, r.store_nodup, r.pages_nodup⟩

/-! ### References -/

def isHex (b : UInt8) : Bool := (48 ≤ b && b ≤ 57) || (97 ≤ b && b ≤ 102)

/-- Five groups of lower-case hexadecimal digits. -/
def isUuid (u : Bytes) : Bool :=
  u.length = 36 && u.zipIdx.all fun p => if p.2 ∈ [8, 13, 18, 23] then p.1 = 45 else isHex p.1

def storeToken : Bytes := ascii "store:"

/-- `PagesToken` -/
def pagesToken : Bytes := ascii "pages:"

/-- The identifier of a reference at the head of a text. -/
def refAt (text : Bytes) : Option Bytes :=
  let u := (text.drop 6).take 36
  if storeToken.isPrefixOf text && isUuid u then some u else none

/-- The matches of `storeRefRE` in the text without its first letters. -/
def refs : ℕ → Bytes → List Bytes
  | _, [] => []
  | n + 1, _ :: s => refs n s
  | 0, c :: s =>
    match refAt (c :: s) with
    | some u => u :: refs 41 s
    | none => refs 0 s

def extractRefs (text : Bytes) : List Bytes := (refs 0 text).dedup

/-- `filepath.Join`, of a clean path and a name -/
def join (dir name : Bytes) : Bytes := dir ++ slash :: name

/-- The words that `substitute` replaces, in the order in which it goes through the manifest. -/
def words (order : List Bytes) (storeDir pagesDir : Bytes) : List (Bytes × Bytes) :=
  order.map (fun u => (storeToken ++ u, join storeDir u)) ++ [(pagesToken, pagesDir)]

def substitute (text : Bytes) (order : List Bytes) (storeDir pagesDir : Bytes) : Bytes :=
  (words order storeDir pagesDir).foldl (fun t w => replaceAll w.1 w.2 t) text

/-! ### The text with everything replaced -/

/-- A reference to the manifest, or the token of the pages. -/
def liveToken (keys : List Bytes) (storeDir pagesDir : Bytes) : Tok UInt8 := fun text =>
  let u := (text.drop 6).take 36
  if storeToken.isPrefixOf text && u ∈ keys then some (42, join storeDir u)
  else if pagesToken.isPrefixOf text then some (6, pagesDir)
  else none

def liveText (text : Bytes) (keys : List Bytes) (storeDir pagesDir : Bytes) : Bytes :=
  render (liveToken keys storeDir pagesDir) 0 text

/-- The directory is an absolute path without references and page tokens. -/
structure PlainDir (dir : Bytes) : Prop where
  absolute : dir.head? = some slash
  pages : ¬ pagesToken <:+: dir
  store : ∀ u, isUuid u = true → ¬ storeToken ++ u <:+: dir

theorem mem_uuid {u : Bytes} {b : UInt8} (h : isUuid u = true) (hb : b ∈ u) :
    b = 45 ∨ isHex b = true := by
  simp only [isUuid, Bool.and_eq_true, List.all_eq_true] at h
  obtain ⟨i, hi⟩ := List.mem_iff_getElem?.1 hb
  have hp := h.2 (b, i) (List.mem_zipIdx_iff_getElem?.2 hi)
  simp only at hp
  split at hp
  · exact .inl (of_decide_eq_true hp)
  · exact .inr hp

theorem length_uuid {u : Bytes} (h : isUuid u = true) : u.length = 36 := by
  simp only [isUuid, Bool.and_eq_true, decide_eq_true_eq] at h
  exact h.1

theorem not_mem_uuid {u : Bytes} {b : UInt8} (h : isUuid u = true) (h45 : b ≠ 45)
    (hx : isHex b = false) : b ∉ u := by
  intro hb
  rcases mem_uuid h hb with hb | hb
  · exact h45 hb
  · exact absurd (hx.symm.trans hb) (by simp)

theorem not_prefix_of_head {α : Type*} {c : α} {w s : List α} (h : s.head? ≠ some c) :
    ¬ c :: w <+: s := by
  rintro ⟨x, rfl⟩
  exact h rfl

/-- A word without a letter that starts before the letter ends before it. -/
theorem prefix_of_not_mem {α : Type*} {m : α} {w a b : List α} (hm : m ∉ w)
    (h : w <+: a ++ m :: b) : w <+: a := by
  induction a generalizing w with
  | nil =>
    cases w with
    | nil => exact List.nil_prefix
    | cons c w =>
      obtain ⟨rfl, -⟩ := List.cons_prefix_cons.1 h
      exact absurd List.mem_cons_self hm
  | cons d a ih =>
    cases w with
    | nil => exact List.nil_prefix
    | cons c w =>
      obtain ⟨rfl, hw⟩ := List.cons_prefix_cons.1 h
      exact List.cons_prefix_cons.2 ⟨rfl, ih (fun hmem => hm (List.mem_cons_of_mem _ hmem)) hw⟩

/-- A word without a letter that is found around the letter is found on one side of it. -/
theorem infix_of_not_mem {α : Type*} {m : α} {w a b : List α} (hm : m ∉ w)
    (h : w <:+: a ++ m :: b) : w <:+: a ∨ w <:+: b := by
  induction a with
  | nil =>
    rcases List.infix_cons_iff.1 h with h | h
    · have hw := prefix_of_not_mem (a := []) hm h
      exact .inl hw.isInfix
    · exact .inr h
  | cons c a ih =>
    rcases List.infix_cons_iff.1 h with h | h
    · exact .inl (prefix_of_not_mem (a := c :: a) hm h).isInfix
    · rcases ih h with h | h
      · exact .inl (h.trans (List.suffix_cons c a).isInfix)
      · exact .inr h

/-- A word is not found in the path of a stored file: not in the directory, not across the slash, and
not from a letter of the identifier on. -/
theorem not_in_path {dir u w : Bytes} {c : UInt8} (hdir : ¬ c :: w <:+: dir) (hslash : slash ∉ c :: w)
    (hc : c ∉ u) (x : Bytes) (i : ℕ) (hi : i < (join dir u).length) :
    ¬ c :: w <+: (join dir u ++ x).drop i := by
  rw [join, List.length_append, List.length_cons] at hi
  have hsplit : join dir u ++ x = dir ++ slash :: (u ++ x) := by
    rw [join, List.append_assoc, List.cons_append]
  rw [hsplit]
  rcases Nat.lt_or_ge i dir.length with hlt | hge
  · rw [List.drop_append_of_le_length hlt.le]
    intro hp
    have hp' := prefix_of_not_mem hslash hp
    exact hdir (hp'.isInfix.trans (List.drop_suffix i dir).isInfix)
  · rw [List.drop_append, List.drop_of_length_le hge, List.nil_append]
    apply not_prefix_of_head
    rcases Nat.eq_zero_or_pos (i - dir.length) with h0 | hpos
    · rw [h0]
      intro hh
      exact hslash (by rw [Option.some.inj hh]; exact List.mem_cons_self)
    · obtain ⟨j, hj⟩ := Nat.exists_eq_succ_of_ne_zero hpos.ne'
      have hju : j < u.length := by omega
      rw [hj, List.drop_succ_cons, List.drop_append_of_le_length hju.le, List.drop_eq_getElem_cons hju]
      intro hh
      exact hc (by rw [← Option.some.inj hh]; exact List.getElem_mem hju)

theorem storeToken_eq : storeToken = [115, 116, 111, 114, 101, 58] := by decide

theorem pagesToken_eq : pagesToken = [112, 97, 103, 101, 115, 58] := by decide

theorem slash_not_mem_store {u : Bytes} (h : isUuid u = true) : slash ∉ storeToken ++ u := by
  rw [List.mem_append, not_or]
  exact ⟨by decide, not_mem_uuid h (by decide) (by decide)⟩

/-- A word does not start at a letter of another one, after its first. -/
theorem not_prefix_within {α : Type*} {c : α} {w a : List α} (hc : c ∉ a.drop 1) (x : List α) {i : ℕ}
    (hpos : 0 < i) (hi : i < a.length) : ¬ c :: w <+: (a ++ x).drop i := by
  rw [List.drop_append_of_le_length hi.le, List.drop_eq_getElem_cons hi]
  refine not_prefix_of_head fun hh => hc ?_
  rw [← Option.some.inj hh]
  obtain ⟨j, rfl⟩ := Nat.exists_eq_succ_of_ne_zero hpos.ne'
  exact List.mem_iff_getElem.2 ⟨j, by rw [List.length_drop]; omega, by simp⟩

/-- A reference is not found in another one, nor from one of its letters on. -/
theorem store_apart_store {u v : Bytes} (hu : isUuid u = true) (hv : isUuid v = true) (hne : u ≠ v)
    (x : Bytes) (i : ℕ) (hi : i < (storeToken ++ v).length) :
    ¬ storeToken ++ u <+: (storeToken ++ v ++ x).drop i := by
  have hlen : u.length = v.length := (length_uuid hu).trans (length_uuid hv).symm
  rcases Nat.eq_zero_or_pos i with rfl | hpos
  · rw [List.drop_zero, List.append_assoc, List.prefix_append_right_inj]
    intro hp
    have huv := List.prefix_of_prefix_length_le hp (List.prefix_append v x) hlen.le
    exact hne (huv.eq_of_length hlen)
  · have hc : (115 : UInt8) ∉ (storeToken ++ v).drop 1 := by
      rw [storeToken_eq]
      change (115 : UInt8) ∉ [116, 111, 114, 101, 58] ++ v
      rw [List.mem_append, not_or]
      exact ⟨by decide, not_mem_uuid hv (by decide) (by decide)⟩
    exact not_prefix_within hc x hpos hi

theorem store_apart_pages {u : Bytes} (x : Bytes) (i : ℕ) (hi : i < pagesToken.length) :
    ¬ storeToken ++ u <+: (pagesToken ++ x).drop i := by
  rw [pagesToken_eq] at hi ⊢
  rw [storeToken_eq]
  rintro ⟨y, hy⟩
  have hi : i < 6 := hi
  interval_cases i <;> simp at hy

/-- The words can be replaced one after the other. -/
theorem words_quiet {order : List Bytes} {storeDir pagesDir : Bytes}
    (hk : ∀ u ∈ order, isUuid u = true) (hnd : order.Nodup) (hdir : PlainDir storeDir) :
    (words order storeDir pagesDir).Pairwise Quiet := by
  unfold words
  rw [List.pairwise_append, List.pairwise_map]
  refine ⟨?_, List.pairwise_singleton _ _, ?_⟩
  · refine hnd.imp_of_mem fun {u v} hu hv hne => ⟨?_, ?_⟩
    · have hin := hdir.store v (hk v hv)
      have hs := slash_not_mem_store (hk v hv)
      rw [storeToken_eq] at hin hs ⊢
      exact not_in_path hin hs (not_mem_uuid (hk u hu) (by decide) (by decide))
    · exact store_apart_store (hk u hu) (hk v hv) hne
  · intro p hp q hq
    obtain ⟨u, hu, rfl⟩ := List.mem_map.1 hp
    rw [List.mem_singleton] at hq
    subst hq
    refine ⟨?_, store_apart_pages⟩
    have hin := hdir.pages
    have hs : slash ∉ pagesToken := by decide
    rw [pagesToken_eq] at hin hs ⊢
    exact not_in_path hin hs (not_mem_uuid (hk u hu) (by decide) (by decide))

theorem words_marked {order : List Bytes} {storeDir pagesDir : Bytes}
    (hk : ∀ u ∈ order, isUuid u = true) (hdir : PlainDir storeDir)
    (hpages : pagesDir.head? = some slash) :
    ∀ p ∈ words order storeDir pagesDir, p.1 ≠ [] ∧ slash ∉ p.1 ∧ p.2.head? = some slash := by
  intro p hp
  unfold words at hp
  rcases List.mem_append.1 hp with hp | hp
  · obtain ⟨u, hu, rfl⟩ := List.mem_map.1 hp
    refine ⟨by simp [storeToken_eq], slash_not_mem_store (hk u hu), ?_⟩
    have hne : storeDir ≠ [] := by
      rintro rfl
      cases hdir.absolute
    rw [join, List.head?_append_of_ne_nil _ hne]
    exact hdir.absolute
  · rw [List.mem_singleton] at hp
    subst hp
    exact ⟨by simp [pagesToken_eq], by change slash ∉ pagesToken; decide, hpages⟩

/-- The words of the manifest are its references, in whatever order they stand. -/
theorem table_words {order keys : List Bytes} {storeDir pagesDir : Bytes} (hp : order.Perm keys)
    (hk : ∀ u ∈ keys, isUuid u = true) :
    table (words order storeDir pagesDir) = liveToken keys storeDir pagesDir := by
  funext text
  have hmem : ∀ u ∈ order, storeToken ++ u <+: text ↔
      storeToken <+: text ∧ (text.drop 6).take 36 = u := by
    intro u hu
    have hlen := length_uuid (hk u (hp.subset hu))
    constructor
    · rintro ⟨x, rfl⟩
      refine ⟨⟨u ++ x, (List.append_assoc _ _ _).symm⟩, ?_⟩
      rw [storeToken_eq]
      change ((u ++ x).take 36) = u
      rw [List.take_append_of_le_length hlen.ge, ← hlen, List.take_length]
    · rintro ⟨⟨x, rfl⟩, hu'⟩
      rw [storeToken_eq] at hu' ⊢
      change x.take 36 = u at hu'
      exact ⟨x.drop 36, by rw [← hu', List.append_assoc, List.take_append_drop]⟩
  set refs := order.map fun u => (storeToken ++ u, join storeDir u)
  rw [words, table_append]
  unfold liveToken
  simp only
  split
  · next h =>
    simp only [Bool.and_eq_true, List.isPrefixOf_iff_prefix, decide_eq_true_eq] at h
    have hu := hp.symm.subset h.2
    cases ht : table refs text with
    | none =>
      have hno := table_eq_none.1 ht _ (List.mem_map.2 ⟨_, hu, rfl⟩)
      exact absurd ((hmem _ hu).2 ⟨h.1, rfl⟩) hno
    | some r =>
      obtain ⟨n, new⟩ := r
      obtain ⟨q, hq, hpre, rfl, rfl⟩ := table_eq_some ht
      obtain ⟨v, hv, rfl⟩ := List.mem_map.1 hq
      obtain ⟨-, hvu⟩ := (hmem v hv).1 hpre
      rw [hvu, List.length_append, length_uuid (hk v (hp.subset hv))]
      rfl
  · next h =>
    have hnone : table refs text = none := by
      rw [table_eq_none]
      rintro q hq hpre
      obtain ⟨v, hv, rfl⟩ := List.mem_map.1 hq
      obtain ⟨hs, rfl⟩ := (hmem v hv).1 hpre
      apply h
      simp only [Bool.and_eq_true, List.isPrefixOf_iff_prefix, decide_eq_true_eq]
      exact ⟨hs, hp.subset hv⟩
    rw [hnone]
    rfl

/-- **The order in which the manifest is gone through does not matter.** -/
theorem substitute_eq {text : Bytes} {order keys : List Bytes} {storeDir pagesDir : Bytes}
    (hp : order.Perm keys) (hk : ∀ u ∈ keys, isUuid u = true) (hnd : keys.Nodup)
    (hdir : PlainDir storeDir) (hpages : pagesDir.head? = some slash) :
    substitute text order storeDir pagesDir = liveText text keys storeDir pagesDir := by
  have hk' : ∀ u ∈ order, isUuid u = true := fun u hu => hk u (hp.subset hu)
  unfold substitute liveText
  rw [foldl_replaceAll _ (words_marked hk' hdir hpages) (words_quiet hk' (hp.nodup_iff.2 hnd) hdir),
    table_words hp hk]

theorem PlainDir.join {dir name : Bytes} (h : PlainDir dir) (hname : name.length < 6) :
    PlainDir (join dir name) := by
  have hne : dir ≠ [] := by
    rintro rfl
    cases h.absolute
  refine ⟨?_, fun hin => ?_, fun u hu hin => ?_⟩
  · rw [Desired.join, List.head?_append_of_ne_nil _ hne]
    exact h.absolute
  · rcases infix_of_not_mem (by decide) hin with hin | hin
    · exact h.pages hin
    · have := hin.length_le
      rw [pagesToken_eq] at this
      exact absurd (this.trans_lt hname) (by simp)
  · rcases infix_of_not_mem (slash_not_mem_store hu) hin with hin | hin
    · exact h.store u hu hin
    · have := hin.length_le
      rw [List.length_append, storeToken_eq] at this
      simp at this
      omega

/-! ### Names -/

theorem refs_isUuid {n : ℕ} {text u : Bytes} (h : u ∈ refs n text) : isUuid u = true := by
  induction text generalizing n with
  | nil =>
    cases n <;> cases h
  | cons c s ih =>
    cases n with
    | succ n => exact ih h
    | zero =>
      rw [refs] at h
      split at h
      · next v hv =>
        rcases List.mem_cons.1 h with rfl | h
        · unfold refAt at hv
          simp only at hv
          split at hv
          · next hc =>
            rw [Bool.and_eq_true] at hc
            rw [← Option.some.inj hv]
            exact hc.2
          · cases hv
        · exact ih h
      · exact ih h

theorem extractRefs_isUuid {text u : Bytes} (h : u ∈ extractRefs text) : isUuid u = true :=
  refs_isUuid (List.mem_dedup.1 h)

/-- A name that stays in its directory. -/
def plainName (name : Bytes) : Bool :=
  name ≠ [] && !name.contains slash && name ≠ ascii "." && name ≠ ascii ".."

theorem plainName_of_safe {name : Bytes} (h : safePageName name = true) : plainName name = true := by
  simp only [safePageName, Bool.and_eq_true, Bool.not_eq_true', List.any_eq_false] at h
  obtain ⟨⟨⟨⟨⟨h1, -⟩, h2⟩, -⟩, h3⟩, h4⟩ := h
  simp only [plainName, Bool.and_eq_true, Bool.not_eq_true']
  refine ⟨⟨⟨h1, h2⟩, h4⟩, decide_eq_true ?_⟩
  rintro rfl
  exact h3 (ascii "..") ((List.mem_tails _ _).2 (List.suffix_refl _)) (by decide)

theorem plainName_of_uuid {u : Bytes} (h : isUuid u = true) : plainName u = true := by
  have hlen := length_uuid h
  simp only [plainName, Bool.and_eq_true, Bool.not_eq_true', decide_eq_true_eq,
    List.contains_eq_mem, decide_eq_false_iff_not]
  refine ⟨⟨⟨?_, not_mem_uuid h (by decide) (by decide)⟩, ?_⟩, ?_⟩
  all_goals
    rintro rfl
    exact absurd hlen (by decide)

end Desired
