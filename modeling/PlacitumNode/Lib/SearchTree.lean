import Mathlib

/-!
# Binary search trees

A tree of records that are found by a key.  Keys are compared with a three-way comparison; a new
record is put at the leaf where the search for its key ends, and may be followed by a rebalancing that
keeps the records in their order.  What the tree holds is its list in order.

* `Bst`, `toList`, `search`, `insert`, `modify`, `first`, `next`;
* `Sorted`: the keys increase strictly;
* `Balance`: rebalancing and deletion, as far as they are known;
* `search_eq_some`, `search_eq_none`, `Sorted.insert`, `Sorted.delete`: what they do to a sorted tree.
-/

namespace SearchTree

inductive Bst (α : Type*)
  | nil
  | node (l : Bst α) (a : α) (r : Bst α)

namespace Bst

variable {α κ : Type*}

/-- The records in order. -/
def toList : Bst α → List α
  | nil => []
  | node l a r => l.toList ++ a :: r.toList

@[simp] theorem toList_nil : (nil : Bst α).toList = [] := rfl

@[simp] theorem toList_node (l : Bst α) (a : α) (r : Bst α) :
    (node l a r).toList = l.toList ++ a :: r.toList := rfl

/-- The records changed in place. -/
def map (f : α → α) : Bst α → Bst α
  | nil => nil
  | node l a r => node (l.map f) (f a) (r.map f)

@[simp] theorem toList_map (f : α → α) (t : Bst α) : (t.map f).toList = t.toList.map f := by
  induction t with
  | nil => rfl
  | node l a r ihl ihr => simp [map, ihl, ihr]

variable (cmp : κ → κ → Ordering) (key : α → κ)

def search (k : κ) : Bst α → Option α
  | nil => none
  | node l a r =>
    match cmp k (key a) with
    | .lt => search k l
    | .gt => search k r
    | .eq => some a

/-- The record is put where the search for its key ends, after records with the same key. -/
def insert (x : α) : Bst α → Bst α
  | nil => node nil x nil
  | node l a r => if cmp (key x) (key a) = .lt then node (insert x l) a r else node l a (insert x r)

/-- The first record in order. -/
def first (t : Bst α) : Option α := t.toList.head?

/-- The record after the one with the key. -/
def next [DecidableEq κ] (k : κ) (t : Bst α) : Option α :=
  (t.toList.dropWhile fun a => key a ≠ k).tail.head?

/-- The record with the key is changed in place. -/
def modify [DecidableEq κ] (k : κ) (f : α → α) (t : Bst α) : Bst α :=
  t.map fun a => if key a = k then f a else a

/-- The keys increase. -/
def Sorted (t : Bst α) : Prop := t.toList.Pairwise fun a b => cmp (key a) (key b) = .lt

instance (t : Bst α) : Decidable (Sorted cmp key t) := by unfold Sorted; infer_instance

end Bst

open Bst

/-- Rebalancing and deletion by key: the list in order is known, the shape of the tree is not. -/
structure Balance {α κ : Type*} [DecidableEq κ] (key : α → κ) where
  fix : Bst α → Bst α
  delete : κ → Bst α → Bst α
  toList_fix : ∀ t, (fix t).toList = t.toList
  toList_delete : ∀ k t, (delete k t).toList = t.toList.filter fun a => key a ≠ k

section Spec

variable {α κ : Type*} {cmp : κ → κ → Ordering} {key : α → κ} {t : Bst α} {k : κ} {a x : α}

theorem Sorted.node {l r : Bst α} (h : Sorted cmp key (.node l a r)) :
    Sorted cmp key l ∧ Sorted cmp key r ∧ (∀ b ∈ l.toList, cmp (key b) (key a) = .lt) ∧
      ∀ b ∈ r.toList, cmp (key a) (key b) = .lt := by
  unfold Sorted at h ⊢
  rw [toList_node, List.pairwise_append, List.pairwise_cons] at h
  obtain ⟨hl, ⟨hr, hrs⟩, hlr⟩ := h
  exact ⟨hl, hrs, fun b hb => hlr b hb a List.mem_cons_self, hr⟩

variable [Std.TransCmp cmp] [Std.LawfulEqCmp cmp]

omit [Std.TransCmp cmp] in
theorem mem_of_search (h : t.search cmp key k = some a) : a ∈ t.toList ∧ key a = k := by
  induction t with
  | nil => cases h
  | node l b r ihl ihr =>
    simp only [search] at h
    rw [toList_node, List.mem_append, List.mem_cons]
    split at h
    · exact ⟨.inl (ihl h).1, (ihl h).2⟩
    · exact ⟨.inr (.inr (ihr h).1), (ihr h).2⟩
    · next heq =>
      cases h
      exact ⟨.inr (.inl rfl), (Std.LawfulEqCmp.eq_of_compare heq).symm⟩

/-- **The search finds** the record of a key in a sorted tree. -/
theorem search_of_mem (hs : Sorted cmp key t) (ha : a ∈ t.toList) :
    t.search cmp key (key a) = some a := by
  induction t with
  | nil => cases ha
  | node l b r ihl ihr =>
    obtain ⟨hl, hr, hlt, hgt⟩ := Sorted.node hs
    simp only [search]
    rw [toList_node, List.mem_append, List.mem_cons] at ha
    rcases ha with ha | rfl | ha
    · rw [hlt a ha]
      exact ihl hl ha
    · have hself : cmp (key a) (key a) = .eq := Std.ReflCmp.compare_self
      rw [hself]
    · rw [Std.OrientedCmp.gt_iff_lt.2 (hgt a ha)]
      exact ihr hr ha

theorem search_eq_some (hs : Sorted cmp key t) :
    t.search cmp key k = some a ↔ a ∈ t.toList ∧ key a = k := by
  constructor
  · exact mem_of_search
  · rintro ⟨ha, rfl⟩
    exact search_of_mem hs ha

theorem search_eq_none (hs : Sorted cmp key t) :
    t.search cmp key k = none ↔ ∀ a ∈ t.toList, key a ≠ k := by
  constructor
  · intro h a ha hk
    have hsome := (search_eq_some hs).2 ⟨ha, hk⟩
    rw [h] at hsome
    cases hsome
  · intro h
    cases hsearch : t.search cmp key k with
    | none => rfl
    | some a =>
      obtain ⟨ha, hk⟩ := mem_of_search hsearch
      exact absurd hk (h a ha)

omit [Std.TransCmp cmp] [Std.LawfulEqCmp cmp] in
theorem insert_perm (cmp : κ → κ → Ordering) (key : α → κ) (x : α) (t : Bst α) :
    (t.insert cmp key x).toList.Perm (x :: t.toList) := by
  induction t with
  | nil => exact .refl _
  | node l a r ihl ihr =>
    simp only [Bst.insert]
    split
    · rw [toList_node, toList_node]
      exact ihl.append_right _
    · rw [toList_node, toList_node]
      have hr : (l.toList ++ a :: (r.insert cmp key x).toList).Perm
          (l.toList ++ a :: x :: r.toList) := (ihr.cons a).append_left _
      refine hr.trans ?_
      have hswap : (l.toList ++ a :: x :: r.toList).Perm (l.toList ++ x :: a :: r.toList) :=
        (List.Perm.swap x a r.toList).append_left _
      exact hswap.trans List.perm_middle

/-- A record with a new key keeps a sorted tree sorted. -/
theorem Sorted.insert (hs : Sorted cmp key t) (hx : ∀ a ∈ t.toList, key a ≠ key x) :
    Sorted cmp key (t.insert cmp key x) := by
  induction t with
  | nil => exact List.pairwise_singleton _ _
  | node l a r ihl ihr =>
    obtain ⟨hl, hr, hlt, hgt⟩ := Sorted.node hs
    have hxl : ∀ b ∈ l.toList, key b ≠ key x := fun b hb => hx b (by simp [hb])
    have hxr : ∀ b ∈ r.toList, key b ≠ key x := fun b hb => hx b (by simp [hb])
    have hxa : key a ≠ key x := hx a (by simp)
    simp only [Bst.insert]
    split
    · next hlt' =>
      have hil := ihl hl hxl
      unfold Sorted at hil ⊢
      rw [toList_node, List.pairwise_append, List.pairwise_cons]
      have hall : ∀ b ∈ (l.insert cmp key x).toList, cmp (key b) (key a) = .lt := by
        intro b hb
        rcases List.mem_cons.1 ((insert_perm cmp key x l).mem_iff.1 hb) with rfl | hb
        · exact hlt'
        · exact hlt b hb
      refine ⟨hil, ⟨hgt, hr⟩, fun b hb d hd => ?_⟩
      rcases List.mem_cons.1 hd with rfl | hd
      · exact hall b hb
      · exact Std.TransCmp.lt_trans (hall b hb) (hgt d hd)
    · next hge =>
      have hgt' : cmp (key a) (key x) = .lt := by
        cases hc : cmp (key x) (key a) with
        | lt => exact absurd hc hge
        | eq => exact absurd (Std.LawfulEqCmp.eq_of_compare hc).symm hxa
        | gt => exact Std.OrientedCmp.gt_iff_lt.1 hc
      have hir := ihr hr hxr
      unfold Sorted at hir ⊢
      rw [toList_node, List.pairwise_append, List.pairwise_cons]
      have hall : ∀ b ∈ (r.insert cmp key x).toList, cmp (key a) (key b) = .lt := by
        intro b hb
        rcases List.mem_cons.1 ((insert_perm cmp key x r).mem_iff.1 hb) with rfl | hb
        · exact hgt'
        · exact hgt b hb
      refine ⟨hl, ⟨hall, hir⟩, fun b hb d hd => ?_⟩
      rcases List.mem_cons.1 hd with rfl | hd
      · exact hlt b hb
      · exact Std.TransCmp.lt_trans (hlt b hb) (hall d hd)

omit [Std.TransCmp cmp] [Std.LawfulEqCmp cmp] in
theorem Sorted.map {f : α → α} (hs : Sorted cmp key t) (hf : ∀ a, key (f a) = key a) :
    Sorted cmp key (t.map f) := by
  unfold Sorted at hs ⊢
  rw [toList_map, List.pairwise_map]
  simpa only [hf] using hs

theorem Sorted.key_injective (hs : Sorted cmp key t) {b : α} (ha : a ∈ t.toList) (hb : b ∈ t.toList)
    (h : key a = key b) : a = b := by
  have hsa := search_of_mem hs ha
  rw [h, search_of_mem hs hb] at hsa
  exact (Option.some.inj hsa).symm

omit [Std.LawfulEqCmp cmp] in
theorem Sorted.nodup (hs : Sorted cmp key t) : (t.toList.map key).Nodup := by
  rw [List.Nodup, List.pairwise_map]
  refine hs.imp fun {a b} hlt heq => ?_
  have hself : cmp (key b) (key b) = .eq := Std.ReflCmp.compare_self
  rw [heq, hself] at hlt
  cases hlt

variable [DecidableEq κ] (bal : Balance key)

omit [Std.TransCmp cmp] [Std.LawfulEqCmp cmp] in
theorem Sorted.fix (hs : Sorted cmp key t) : Sorted cmp key (bal.fix t) := by
  unfold Sorted at hs ⊢
  rwa [bal.toList_fix]

omit [Std.TransCmp cmp] [Std.LawfulEqCmp cmp] in
theorem Sorted.delete (hs : Sorted cmp key t) : Sorted cmp key (bal.delete k t) := by
  unfold Sorted at hs ⊢
  rw [bal.toList_delete]
  exact hs.filter _

omit [Std.TransCmp cmp] [Std.LawfulEqCmp cmp] in
theorem Sorted.modify {f : α → α} (hs : Sorted cmp key t) (hf : ∀ a, key (f a) = key a) :
    Sorted cmp key (t.modify key k f) := by
  refine Sorted.map hs fun a => ?_
  split
  · exact hf a
  · rfl

/-- The record of a key, and the others. -/
theorem filter_perm (hs : Sorted cmp key t) (ha : a ∈ t.toList) :
    t.toList.Perm (a :: t.toList.filter fun b => key b ≠ key a) := by
  classical
  have hnd : t.toList.Nodup := List.Nodup.of_map key (Sorted.nodup hs)
  have heq : (t.toList.filter fun b => key b ≠ key a) = t.toList.filter fun b => b != a := by
    refine List.filter_congr fun b hb => ?_
    rw [decide_not, bne, Bool.beq_eq_decide_eq, Bool.not_inj_iff, decide_eq_decide]
    exact ⟨Sorted.key_injective hs hb ha, fun h => by rw [h]⟩
  rw [heq, ← hnd.erase_eq_filter]
  exact List.perm_cons_erase ha

/-- Deleting takes the record of the key, and nothing else. -/
theorem delete_perm (hs : Sorted cmp key t) (ha : a ∈ t.toList) :
    t.toList.Perm (a :: (bal.delete (key a) t).toList) := by
  rw [bal.toList_delete]
  exact filter_perm hs ha

/-- Changing a record leaves the others as they are. -/
theorem modify_perm {f : α → α} (hs : Sorted cmp key t) (ha : a ∈ t.toList) :
    (t.modify key (key a) f).toList.Perm (f a :: t.toList.filter fun b => key b ≠ key a) := by
  rw [Bst.modify, toList_map]
  have hp := (filter_perm hs ha).map fun b => if key b = key a then f b else b
  rw [List.map_cons, if_pos rfl] at hp
  have hrest : ∀ b ∈ t.toList.filter fun b => key b ≠ key a,
      (if key b = key a then f b else b) = b := by
    intro b hb
    rw [if_neg (of_decide_eq_true (List.mem_filter.1 hb).2)]
  rwa [List.map_congr_left hrest, List.map_id'] at hp

end Spec

/-- A tree without rebalancing. -/
def Balance.plain {α κ : Type*} [DecidableEq κ] (key : α → κ) : Balance key where
  fix t := t
  delete k t := (t.toList.filter fun a => key a ≠ k).foldr (fun a t => .node .nil a t) .nil
  toList_fix _ := rfl
  toList_delete k t := by
    induction t.toList.filter fun a => key a ≠ k with
    | nil => rfl
    | cons a l ih => simp [ih]

end SearchTree
