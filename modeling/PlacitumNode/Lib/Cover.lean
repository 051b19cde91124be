import PlacitumNode.Lib.Loop

/-!
# Search in a list of ranges

Ranges sorted by their start, with the running maximum of their ends beside them: a value lies in
some range exactly when the maximum that stands at the last range starting at or before it reaches
it.  The order is given by a comparison that a rank in a linear order explains.

* `sortUniq` sorts and drops the repetitions that then stand side by side.
* `upper` is the binary search for the first index at which a predicate stops to hold.
* `cover` is the running maximum, and `reached` the test (`reached_iff`).
-/

namespace Cover

variable {α : Type*}

/-! ### Sorting -/

/-- A sorting function of the C library, given by what its specification promises of it. -/
structure Qsort where
  sort : {α : Type} → (α → α → ℤ) → List α → List α
  perm : ∀ {α : Type} (cmp : α → α → ℤ) (l : List α), (sort cmp l).Perm l
  sorted : ∀ {α : Type} {cmp : α → α → ℤ} (l : List α), (∀ x y, cmp x y ≤ 0 ∨ cmp y x ≤ 0) →
    (∀ x y z, cmp x y ≤ 0 → cmp y z ≤ 0 → cmp x z ≤ 0) → (sort cmp l).Pairwise fun x y => cmp x y ≤ 0

/-- The merge sort of the standard library is one. -/
def Qsort.merge : Qsort where
  sort cmp l := l.mergeSort fun x y => decide (cmp x y ≤ 0)
  perm cmp l := List.mergeSort_perm l _
  sorted {α cmp} l htotal htrans := by
    have h := @List.pairwise_mergeSort α (fun x y => decide (cmp x y ≤ 0))
      (fun x y z hxy hyz => by
        simp only [decide_eq_true_eq] at hxy hyz ⊢
        exact htrans x y z hxy hyz)
      (fun x y => by simpa only [Bool.or_eq_true, decide_eq_true_eq] using htotal x y) l
    simpa only [decide_eq_true_eq] using h

/-- The elements after `last` that differ from the one kept before them. -/
def uniqFrom (cmp : α → α → ℤ) (last : α) : List α → List α
  | [] => []
  | x :: l => if cmp last x = 0 then uniqFrom cmp last l else x :: uniqFrom cmp x l

def uniq (cmp : α → α → ℤ) : List α → List α
  | [] => []
  | x :: l => x :: uniqFrom cmp x l

/-- The sorted elements without repetitions; a short list is left as it is. -/
def sortUniq {α : Type} (q : Qsort) (cmp : α → α → ℤ) (l : List α) : List α :=
  if l.length < 2 then l else uniq cmp (q.sort cmp l)

theorem uniqFrom_sublist (cmp : α → α → ℤ) (last : α) (l : List α) :
    (uniqFrom cmp last l).Sublist l := by
  induction l generalizing last with
  | nil => exact List.Sublist.refl []
  | cons x l ih =>
    unfold uniqFrom
    split
    · exact (ih last).cons x
    · exact (ih x).cons_cons x

/-- A dropped element is equal to the one kept before it. -/
theorem mem_uniqFrom {cmp : α → α → ℤ} (heq : ∀ x y, cmp x y = 0 → x = y) (last : α) (l : List α)
    {y : α} (hy : y ∈ l) : y = last ∨ y ∈ uniqFrom cmp last l := by
  induction l generalizing last with
  | nil => cases hy
  | cons x l ih =>
    unfold uniqFrom
    split
    · next h =>
      obtain rfl := heq last x h
      rcases List.mem_cons.1 hy with rfl | hy
      · exact .inl rfl
      · exact ih last hy
    · rcases List.mem_cons.1 hy with rfl | hy
      · exact .inr (List.mem_cons_self ..)
      · right
        rcases ih x hy with rfl | h
        · exact List.mem_cons_self ..
        · exact List.mem_cons_of_mem x h

theorem uniq_sublist (cmp : α → α → ℤ) (l : List α) : (uniq cmp l).Sublist l := by
  cases l with
  | nil => exact List.Sublist.refl []
  | cons x l => exact (uniqFrom_sublist cmp x l).cons_cons x

theorem mem_uniq {cmp : α → α → ℤ} (heq : ∀ x y, cmp x y = 0 → x = y) (l : List α) {y : α} :
    y ∈ uniq cmp l ↔ y ∈ l := by
  refine ⟨fun h => (uniq_sublist cmp l).subset h, fun hy => ?_⟩
  cases l with
  | nil => exact hy
  | cons x l =>
    rcases List.mem_cons.1 hy with rfl | hy
    · exact List.mem_cons_self ..
    · rcases mem_uniqFrom heq x l hy with rfl | h
      · exact List.mem_cons_self ..
      · exact List.mem_cons_of_mem x h

section sortUniq

variable {α : Type} {cmp : α → α → ℤ} (q : Qsort) (l : List α)

/-- Sorting and dropping repetitions keep the elements. -/
theorem mem_sortUniq (heq : ∀ x y, cmp x y = 0 → x = y) {y : α} :
    y ∈ sortUniq q cmp l ↔ y ∈ l := by
  unfold sortUniq
  split
  · rfl
  · rw [mem_uniq heq, (q.perm cmp l).mem_iff]

/-- What is left is in order. -/
theorem pairwise_sortUniq (htotal : ∀ x y, cmp x y ≤ 0 ∨ cmp y x ≤ 0)
    (htrans : ∀ x y z, cmp x y ≤ 0 → cmp y z ≤ 0 → cmp x z ≤ 0) :
    (sortUniq q cmp l).Pairwise fun x y => cmp x y ≤ 0 := by
  unfold sortUniq
  split
  · next h =>
    match l, h with
    | [], _ => exact List.Pairwise.nil
    | [x], _ => exact List.pairwise_singleton _ x
  · exact (q.sorted l htotal htrans).sublist (uniq_sublist cmp _)

end sortUniq

/-! ### Binary search -/

def upperStep (p : ℕ → Bool) : ℕ × ℕ → (ℕ × ℕ) ⊕ ℕ
  | (lo, hi) =>
    if lo < hi then
      let mid := lo + (hi - lo) / 2
      if p mid then .inl (mid + 1, hi) else .inl (lo, mid)
    else .inr lo

/-- The first index below `n` at which `p` does not hold, or `n`. -/
def upper (p : ℕ → Bool) (n : ℕ) : ℕ :=
  (Loop.exec (upperStep p) (fun s => s.2 - s.1) (0, n)).getD 0

theorem upperStep_shrinks (p : ℕ → Bool) :
    Loop.Shrinks (upperStep p) fun s => s.2 - s.1 := by
  rintro ⟨lo, hi⟩ s' h
  simp only [upperStep] at h
  split at h
  · split at h <;>
    · cases h
      simp only
      omega
  · cases h

/-- The binary search finds where a property ends that holds from the start on. -/
theorem upper_spec {p : ℕ → Bool} {n : ℕ} (hp : ∀ i j, i ≤ j → j < n → p j → p i) :
    upper p n ≤ n ∧ (∀ i < upper p n, p i) ∧ ∀ i, upper p n ≤ i → i < n → ¬ p i := by
  obtain ⟨r, hr⟩ := Loop.exec_isSome (upperStep_shrinks p) (0, n)
  have hu : upper p n = r := by
    unfold upper
    rw [hr]
    rfl
  rw [hu]
  -- below `lo` the predicate holds, from `hi` on it does not
  have key : ∀ s : ℕ × ℕ, Loop.exec (upperStep p) (fun s => s.2 - s.1) s = some r →
      s.1 ≤ s.2 → s.2 ≤ n → (∀ i < s.1, p i) → (∀ i, s.2 ≤ i → i < n → ¬ p i) →
      r ≤ n ∧ (∀ i < r, p i) ∧ ∀ i, r ≤ i → i < n → ¬ p i := by
    intro s hs
    refine Loop.exec_induct (upperStep_shrinks p)
      (P := fun s r => s.1 ≤ s.2 → s.2 ≤ n → (∀ i < s.1, p i) → (∀ i, s.2 ≤ i → i < n → ¬ p i) →
        r ≤ n ∧ (∀ i < r, p i) ∧ ∀ i, r ≤ i → i < n → ¬ p i) ?_ ?_ hs
    · rintro ⟨lo, hi⟩ r h hle hn hlo hhi
      simp only [upperStep] at h
      split at h
      · split at h <;> cases h
      · cases h
        simp only at *
        exact ⟨by omega, hlo, fun i hi' hin => hhi i (by omega) hin⟩
    · rintro ⟨lo, hi⟩ s' r h ih hle hn hlo hhi
      simp only [upperStep] at h
      split at h
      · next hlt =>
        split at h
        · next hmid =>
          cases h
          refine ih (by simp only; omega) hn (fun i hi' => ?_) hhi
          exact hp i _ (Nat.le_of_lt_succ hi') (by simp only at hn; omega) hmid
        · next hmid =>
          cases h
          refine ih (by simp only; omega) (by simp only at hn ⊢; omega) hlo (fun i hi' hin hpi => ?_)
          exact hmid (hp _ i hi' hin hpi)
      · cases h
  exact key (0, n) hr (Nat.zero_le n) le_rfl (fun i hi => absurd hi (Nat.not_lt_zero i))
    (fun i hi hin => absurd hin (by simp only at hi; omega))

/-! ### The running maximum -/

/-- The running maximum from a given one. -/
def coverFrom (gt : α → α → Bool) (c : α) : List (α × α) → List α
  | [] => []
  | r :: l =>
    let c' := if gt r.2 c then r.2 else c
    c' :: coverFrom gt c' l

/-- The running maximum of the ends. -/
def cover (gt : α → α → Bool) : List (α × α) → List α
  | [] => []
  | r :: l => r.2 :: coverFrom gt r.2 l

/-- Whether the maximum that stands at the last start not after the value reaches it. -/
def reached (before reaches : α → Bool) (starts covers : List α) : Bool :=
  let i := upper (fun i => (starts[i]?).any before) starts.length
  if i = 0 then false else (covers[i - 1]?).any reaches

@[simp] theorem reached_nil (before reaches : α → Bool) (covers : List α) :
    reached before reaches [] covers = false := by
  simp [reached, upper, upperStep, Loop.exec, Loop.run]

section cover

variable {gt : α → α → Bool}

@[simp] theorem length_coverFrom (c : α) (l : List (α × α)) :
    (coverFrom gt c l).length = l.length := by
  induction l generalizing c with
  | nil => rfl
  | cons r l ih => simp [coverFrom, ih]

@[simp] theorem length_cover (l : List (α × α)) : (cover gt l).length = l.length := by
  cases l with
  | nil => rfl
  | cons r l => simp [cover]

variable {β : Type*} [LinearOrder β] {rank : α → β}

theorem coverFrom_reaches (hgt : ∀ x y, gt x y = true ↔ rank y < rank x) (c : α)
    (l : List (α × α)) {n : ℕ} {y : α} (hy : (coverFrom gt c l)[n]? = some y) (a : β) :
    a ≤ rank y ↔ a ≤ rank c ∨ ∃ r ∈ l.take (n + 1), a ≤ rank r.2 := by
  induction l generalizing c n with
  | nil => simp [coverFrom] at hy
  | cons r l ih =>
    have hmax : ∀ b : β, b ≤ rank (if gt r.2 c then r.2 else c) ↔ b ≤ rank c ∨ b ≤ rank r.2 := by
      intro b
      split
      · next h =>
        have h' := ((hgt _ _).1 h).le
        exact ⟨.inr, fun hb => hb.elim (fun hb => hb.trans h') id⟩
      · next h =>
        have h' : rank r.2 ≤ rank c := le_of_not_gt fun hc => h ((hgt _ _).2 hc)
        exact ⟨.inl, fun hb => hb.elim id fun hb => hb.trans h'⟩
    simp only [coverFrom] at hy
    cases n with
    | zero =>
      simp only [List.getElem?_cons_zero, Option.some.injEq] at hy
      subst hy
      rw [hmax]
      simp
    | succ n =>
      rw [List.getElem?_cons_succ] at hy
      rw [ih _ hy, hmax, or_assoc]
      simp only [List.take_succ_cons, List.mem_cons, exists_eq_or_imp]

/-- The running maximum reaches a value exactly when one of the ends so far does. -/
theorem cover_reaches (hgt : ∀ x y, gt x y = true ↔ rank y < rank x) (l : List (α × α)) {n : ℕ}
    {y : α} (hy : (cover gt l)[n]? = some y) (a : β) :
    a ≤ rank y ↔ ∃ r ∈ l.take (n + 1), a ≤ rank r.2 := by
  cases l with
  | nil => simp [cover] at hy
  | cons r l =>
    simp only [cover] at hy
    cases n with
    | zero =>
      simp only [List.getElem?_cons_zero, Option.some.injEq] at hy
      subst hy
      simp
    | succ n =>
      rw [List.getElem?_cons_succ] at hy
      rw [coverFrom_reaches hgt _ _ hy]
      simp only [List.take_succ_cons, List.mem_cons, exists_eq_or_imp]

/-- **The search is membership in a range.** -/
theorem reached_iff {before reaches : α → Bool} {a : β}
    (hgt : ∀ x y, gt x y = true ↔ rank y < rank x) (hbefore : ∀ x, before x = true ↔ rank x ≤ a)
    (hreaches : ∀ x, reaches x = true ↔ a ≤ rank x) {l : List (α × α)}
    (hl : l.Pairwise fun r s => rank r.1 ≤ rank s.1) :
    reached before reaches (l.map Prod.fst) (cover gt l) = true ↔
      ∃ r ∈ l, rank r.1 ≤ a ∧ a ≤ rank r.2 := by
  set p : ℕ → Bool := fun i => ((l.map Prod.fst)[i]?).any before with hp
  have hpi : ∀ i (hi : i < l.length), p i = true ↔ rank l[i].1 ≤ a := by
    intro i hi
    simp [hp, hi, hbefore]
  have hmono : ∀ i j, i ≤ j → j < (l.map Prod.fst).length → p j → p i := by
    intro i j hij hj hpj
    rw [List.length_map] at hj
    rw [hpi i (by omega)]
    rw [hpi j hj] at hpj
    rcases hij.eq_or_lt with rfl | hlt
    · exact hpj
    · exact (List.pairwise_iff_getElem.1 hl i j (by omega) hj hlt).trans hpj
  obtain ⟨hn, hbelow, habove⟩ := upper_spec hmono
  unfold reached
  rw [← hp]
  set u := upper p (l.map Prod.fst).length with hu
  rw [List.length_map] at hn habove
  -- the ranges that start at or before `a` are the first `u`
  have hmem : (∃ r ∈ l, rank r.1 ≤ a ∧ a ≤ rank r.2) ↔ ∃ r ∈ l.take u, a ≤ rank r.2 := by
    constructor
    · rintro ⟨r, hr, hs, he⟩
      obtain ⟨i, hi, rfl⟩ := List.mem_iff_getElem.1 hr
      have hiu : i < u := by
        by_contra hge
        exact habove i (by omega) hi ((hpi i hi).2 hs)
      exact ⟨l[i], List.mem_take_iff_getElem.2 ⟨i, by omega, rfl⟩, he⟩
    · rintro ⟨r, hr, he⟩
      obtain ⟨i, hi, rfl⟩ := List.mem_take_iff_getElem.1 hr
      exact ⟨_, List.getElem_mem (by omega), (hpi i (by omega)).1 (hbelow i (by omega)), he⟩
  rw [hmem]
  simp only
  split
  · next h0 => simp [h0]
  · next h0 =>
    have hlt : u - 1 < (cover gt l).length := by
      rw [length_cover]
      omega
    rw [List.getElem?_eq_getElem hlt, Option.any_some, hreaches,
      cover_reaches hgt l (List.getElem?_eq_getElem hlt),
      Nat.sub_add_cancel (Nat.one_le_iff_ne_zero.2 h0)]

end cover

end Cover
