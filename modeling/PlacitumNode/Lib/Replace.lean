import Mathlib

/-!
# Replacing tokens in a text

* `render tok s`: the text with every token replaced, from left to right;
* `replaceAll old new`: the replacement of one word;
* `table l`: the tokens of a list of words with their replacements;
* `foldl_replaceAll`: replacing one word after the other is the same as replacing them all at once,
  when no word can be found in the replacement of an earlier one or across its borders.

A replacement starts with a mark `m` that no word contains, so that a word never starts before a
replacement and ends in it.
-/

namespace Replace

variable {α : Type*} [DecidableEq α]

/-- A token at the head of a text: its length and its replacement. -/
abbrev Tok (α : Type*) := List α → Option (ℕ × List α)

/-- The text without its first `n` letters, with its tokens replaced. -/
def render (tok : Tok α) : ℕ → List α → List α
  | _, [] => []
  | n + 1, _ :: s => render tok n s
  | 0, c :: s =>
    match tok (c :: s) with
    | some (n, new) => new ++ render tok (n - 1) s
    | none => c :: render tok 0 s

def one (old new : List α) : Tok α := fun s =>
  if old.isPrefixOf s then some (old.length, new) else none

/-- Every occurrence of `old` from left to right. -/
def replaceAll (old new s : List α) : List α := render (one old new) 0 s

/-- The first word of the list at the head of the text. -/
def table (l : List (List α × List α)) : Tok α := fun s =>
  (l.find? fun p => p.1.isPrefixOf s).map fun p => (p.1.length, p.2)

variable {tok : Tok α} {old new s : List α} {m : α}

omit [DecidableEq α] in
theorem render_drop (tok : Tok α) (n : ℕ) (s : List α) : render tok n s = render tok 0 (s.drop n) := by
  induction n generalizing s with
  | zero => rfl
  | succ n ih =>
    cases s with
    | nil => rfl
    | cons c s => exact ih s

omit [DecidableEq α] in
theorem render_some {n : ℕ} (h : tok s = some (n, new)) (hs : s ≠ []) (hn : 0 < n) :
    render tok 0 s = new ++ render tok 0 (s.drop n) := by
  cases s with
  | nil => exact absurd rfl hs
  | cons c s =>
    rw [render, h]
    dsimp only
    rw [render_drop]
    congr 2
    obtain ⟨k, rfl⟩ := Nat.exists_eq_succ_of_ne_zero hn.ne'
    rfl

omit [DecidableEq α] in
theorem render_none {c : α} (h : tok (c :: s) = none) :
    render tok 0 (c :: s) = c :: render tok 0 s := by
  rw [render, h]

omit [DecidableEq α] in
/-- Letters at which no token starts are kept. -/
theorem render_append {a x : List α} (h : ∀ i < a.length, tok ((a ++ x).drop i) = none) :
    render tok 0 (a ++ x) = a ++ render tok 0 x := by
  induction a with
  | nil => rfl
  | cons c a ih =>
    have h0 : tok (c :: (a ++ x)) = none := h 0 (Nat.succ_pos _)
    rw [List.cons_append, render_none h0, ih, List.cons_append]
    intro i hi
    exact h (i + 1) (Nat.succ_lt_succ hi)

omit [DecidableEq α] in
/-- What the rendered text starts with, up to the mark, the text starts with. -/
theorem prefix_of_render {y : List α} (hnew : ∀ s n new, tok s = some (n, new) → new.head? = some m)
    (hm : m ∉ y) (h : y <+: render tok 0 s) : y <+: s := by
  induction s generalizing y with
  | nil => exact h
  | cons c s ih =>
    cases y with
    | nil => exact List.nil_prefix
    | cons b y =>
      cases ht : tok (c :: s) with
      | some p =>
        obtain ⟨n, new⟩ := p
        have hhead := hnew _ _ _ ht
        rw [render, ht] at h
        cases new with
        | nil => cases hhead
        | cons a new =>
          obtain rfl : b = a := (List.cons_prefix_cons.1 h).1
          exact absurd (by rw [Option.some.inj hhead]; exact List.mem_cons_self) hm
      | none =>
        rw [render_none ht] at h
        obtain ⟨rfl, hy⟩ := List.cons_prefix_cons.1 h
        exact List.cons_prefix_cons.2 ⟨rfl, ih (fun hmem => hm (List.mem_cons_of_mem _ hmem)) hy⟩

/-- The word can be replaced after the tokens: it does not occur in their replacements, and no token
starts in it. -/
structure Apart (tok : Tok α) (old : List α) (m : α) : Prop where
  mark : m ∉ old
  ne : old ≠ []
  pos : ∀ s n new, tok s = some (n, new) → s ≠ [] ∧ 0 < n
  head : ∀ s n new, tok s = some (n, new) → new.head? = some m
  inside : ∀ s n new, tok s = some (n, new) → ∀ x, ∀ i < new.length, ¬ old <+: (new ++ x).drop i
  across : ∀ x, ∀ i < old.length, tok ((old ++ x).drop i) = none

theorem one_of_head (h : old <+: s) : one old new s = some (old.length, new) :=
  if_pos (List.isPrefixOf_iff_prefix.2 h)

theorem one_eq_none (h : ¬ old <+: s) : one old new s = none :=
  if_neg fun hp => h (List.isPrefixOf_iff_prefix.1 hp)

/-- **One more word.** -/
theorem replaceAll_render (h : Apart tok old m) (s : List α) :
    replaceAll old new (render tok 0 s) = render (fun s => (tok s).or (one old new s)) 0 s := by
  induction hlen : s.length using Nat.strong_induction_on generalizing s with
  | _ k ih =>
    subst hlen
    cases s with
    | nil => rfl
    | cons c s =>
      cases ht : tok (c :: s) with
      | some p =>
        obtain ⟨n, r⟩ := p
        obtain ⟨hne, hn⟩ := h.pos _ _ _ ht
        have hor : ((tok (c :: s)).or (one old new (c :: s))) = some (n, r) := by rw [ht]; rfl
        rw [render_some ht hne hn, render_some hor hne hn, ← ih _ ?_ _ rfl]
        · refine render_append fun i hi => one_eq_none ?_
          exact h.inside _ _ _ ht _ i hi
        · rw [List.length_drop, List.length_cons]
          omega
      | none =>
        by_cases hp : old <+: c :: s
        · obtain ⟨x, hx⟩ := hp
          have hpos : 0 < old.length := List.length_pos_iff.2 h.ne
          have hor : ((tok (c :: s)).or (one old new (c :: s))) = some (old.length, new) := by
            rw [ht, one_of_head ⟨x, hx⟩]
            rfl
          have hright := @render_some _ (fun s => (tok s).or (one old new s)) _ _ _ hor (by simp) hpos
          have hleft := @render_some _ (one old new) _ _ _
            (one_of_head (List.prefix_append old (render tok 0 x))) (by simp [h.ne]) hpos
          rw [hright, ← hx, List.drop_left, ← ih _ ?_ _ rfl, render_append (h.across x), replaceAll,
            hleft, List.drop_left]
          · rfl
          · rw [← hx, List.length_append]
            omega
        · have hor : ((tok (c :: s)).or (one old new (c :: s))) = none := by
            rw [ht, one_eq_none hp]
            rfl
          have hp' : ¬ old <+: c :: render tok 0 s := by
            intro hpre
            cases old with
            | nil => exact h.ne rfl
            | cons b y =>
              obtain ⟨rfl, hy⟩ := List.cons_prefix_cons.1 hpre
              refine hp (List.cons_prefix_cons.2 ⟨rfl, prefix_of_render h.head ?_ hy⟩)
              exact fun hmem => h.mark (List.mem_cons_of_mem _ hmem)
          rw [render_none ht, render_none hor, ← ih _ ?_ _ rfl]
          · exact render_none (one_eq_none hp')
          · simp

/-! ### A list of words -/

/-- The word of `q` can be replaced after that of `p`. -/
def Quiet (p q : List α × List α) : Prop :=
  (∀ x, ∀ i < p.2.length, ¬ q.1 <+: (p.2 ++ x).drop i) ∧
    ∀ x, ∀ i < q.1.length, ¬ p.1 <+: (q.1 ++ x).drop i

theorem table_eq_some {l : List (List α × List α)} {n : ℕ} {r : List α}
    (h : table l s = some (n, r)) : ∃ p ∈ l, p.1 <+: s ∧ n = p.1.length ∧ r = p.2 := by
  unfold table at h
  obtain ⟨p, hp, heq⟩ := Option.map_eq_some_iff.1 h
  have hpre : p.1.isPrefixOf s = true := by
    have := List.find?_some hp
    exact this
  obtain ⟨rfl, rfl⟩ := Prod.mk.inj heq
  exact ⟨p, List.mem_of_find?_eq_some hp, List.isPrefixOf_iff_prefix.1 hpre, rfl, rfl⟩

theorem table_eq_none {l : List (List α × List α)} :
    table l s = none ↔ ∀ p ∈ l, ¬ p.1 <+: s := by
  unfold table
  rw [Option.map_eq_none_iff, List.find?_eq_none]
  refine forall₂_congr fun p _ => not_congr List.isPrefixOf_iff_prefix

theorem table_append (l : List (List α × List α)) (p : List α × List α) :
    table (l ++ [p]) = fun s => (table l s).or (one p.1 p.2 s) := by
  funext s
  unfold table one
  rw [List.find?_append, Option.map_or]
  congr 1
  rw [List.find?_singleton]
  split <;> rfl

/-- **One word after the other is all words at once.** -/
theorem foldl_replaceAll (l : List (List α × List α))
    (hm : ∀ p ∈ l, p.1 ≠ [] ∧ m ∉ p.1 ∧ p.2.head? = some m) (hq : l.Pairwise Quiet) (s : List α) :
    l.foldl (fun s p => replaceAll p.1 p.2 s) s = render (table l) 0 s := by
  induction l using List.reverseRecOn with
  | nil =>
    induction s with
    | nil => rfl
    | cons c s ih =>
      rw [render_none rfl, ← ih]
      rfl
  | append_singleton l p ih =>
    rw [List.foldl_append, List.foldl_cons, List.foldl_nil, table_append]
    have hl : ∀ q ∈ l, q ∈ l ++ [p] := fun q hql => List.mem_append_left _ hql
    have hpl := hm p (List.mem_append_right _ (List.mem_singleton_self p))
    obtain ⟨hq, -, hpq⟩ := List.pairwise_append.1 hq
    rw [ih (fun q hql => hm q (hl q hql)) hq]
    refine replaceAll_render ⟨hpl.2.1, hpl.1, fun s n r h => ?_, fun s n r h => ?_, fun s n r h => ?_,
      fun x i hi => ?_⟩ s
    · obtain ⟨q, hql, hpre, rfl, -⟩ := table_eq_some h
      have hne := (hm q (hl q hql)).1
      exact ⟨fun hs => hne (List.prefix_nil.1 (hs ▸ hpre)), List.length_pos_iff.2 hne⟩
    · obtain ⟨q, hql, -, -, rfl⟩ := table_eq_some h
      exact (hm q (hl q hql)).2.2
    · obtain ⟨q, hql, -, -, rfl⟩ := table_eq_some h
      exact (hpq q hql p (List.mem_singleton_self p)).1
    · refine table_eq_none.2 fun q hql => ?_
      exact (hpq q hql p (List.mem_singleton_self p)).2 x i hi

end Replace
