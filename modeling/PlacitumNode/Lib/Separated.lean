import Mathlib

/-!
# Lists of parts between separators

* `splitOn_of_nil`, `splitOn_of_cons`: the first part and the rest;
* `cells`: the parts, without an empty one behind the last separator, as a loop finds them that ends
  with the text;
* `length_intercalate_filter_le`: some of the parts need no more room than the text.
-/

namespace Separated

section

variable {α : Type*}

/-- The room that parts need with a separator in front of each. -/
def room (parts : List (List α)) : ℕ := (parts.map fun x => x.length + 1).sum

theorem room_cons (x : List α) (parts : List (List α)) :
    room (x :: parts) = x.length + 1 + room parts := rfl

theorem room_filter_le (p : List α → Bool) (parts : List (List α)) :
    room (parts.filter p) ≤ room parts := by
  induction parts with
  | nil => exact le_rfl
  | cons x parts ih =>
    rw [List.filter_cons]
    split_ifs
    · rw [room_cons, room_cons]
      omega
    · rw [room_cons]
      omega

theorem length_flatMap_sep (a : α) (parts : List (List α)) :
    (parts.flatMap (a :: ·)).length = room parts := by
  induction parts with
  | nil => rfl
  | cons x parts ih => rw [List.flatMap_cons, List.length_append, ih, room_cons, List.length_cons]

theorem intercalate_cons (a : α) (x : List α) (parts : List (List α)) :
    [a].intercalate (x :: parts) = x ++ parts.flatMap (a :: ·) := by
  induction parts generalizing x with
  | nil => simp
  | cons y parts ih => rw [List.intercalate_cons_cons, ih, List.flatMap_cons]; simp

/-- The first part needs no separator. -/
theorem length_intercalate_lt (a : α) {parts : List (List α)} (h : parts ≠ []) :
    ([a].intercalate parts).length < room parts := by
  cases parts with
  | nil => exact absurd rfl h
  | cons x parts =>
    rw [intercalate_cons, List.length_append, length_flatMap_sep, room_cons]
    omega

end

variable {α : Type*} [DecidableEq α] {a : α} {l : List α}

theorem not_mem_takeWhile (a : α) (l : List α) : a ∉ l.takeWhile (· ≠ a) := by
  intro h
  simpa using List.mem_takeWhile_imp h

theorem splitOn_of_nil (h : l.dropWhile (· ≠ a) = []) : l.splitOn a = [l] := by
  have hsplit := List.takeWhile_append_dropWhile (p := (· ≠ a)) (l := l)
  rw [h, List.append_nil] at hsplit
  exact List.splitOn_eq_singleton (hsplit ▸ not_mem_takeWhile a l)

theorem splitOn_of_cons {b : α} {rest : List α} (h : l.dropWhile (· ≠ a) = b :: rest) :
    l.splitOn a = l.takeWhile (· ≠ a) :: rest.splitOn a := by
  have hb : b = a := by
    have := List.head?_dropWhile_not (p := (· ≠ a)) (l := l)
    rw [h] at this
    simpa using this
  have hsplit := List.takeWhile_append_dropWhile (p := (· ≠ a)) (l := l)
  rw [h, hb] at hsplit
  conv_lhs => rw [← hsplit]
  exact List.splitOn_append_cons_self_of_not_mem (not_mem_takeWhile a l) rest

/-- The parts between separators; a separator at the end opens none. -/
def cells (a : α) (l : List α) : List (List α) :=
  if (l.splitOn a).getLast? = some [] then (l.splitOn a).dropLast else l.splitOn a

theorem cells_nil (a : α) : cells a [] = [] := by
  rw [cells, List.splitOn_eq_singleton List.not_mem_nil]
  rfl

/-- The first part and the others. -/
theorem cells_cons (a c : α) (l : List α) : cells a (c :: l) =
    (c :: l).takeWhile (· ≠ a) :: cells a (((c :: l).dropWhile (· ≠ a)).drop 1) := by
  cases hrest : (c :: l).dropWhile (· ≠ a) with
  | nil =>
    have hall : (c :: l).takeWhile (· ≠ a) = c :: l := by
      have hsplit := List.takeWhile_append_dropWhile (p := (· ≠ a)) (l := c :: l)
      rwa [hrest, List.append_nil] at hsplit
    rw [cells, splitOn_of_nil hrest, hall, List.drop_nil, cells_nil]
    simp
  | cons b rest =>
    have hne : rest.splitOn a ≠ [] := List.splitOn_ne_nil a rest
    rw [cells, splitOn_of_cons hrest, List.getLast?_cons_of_ne_nil hne, List.dropLast_cons_of_ne_nil hne,
      List.drop_succ_cons, List.drop_zero, cells]
    split_ifs <;> rfl

/-- The parts that a loop finds are parts. -/
theorem mem_splitOn_of_cells {x : List α} (h : x ∈ cells a l) : x ∈ l.splitOn a := by
  rw [cells] at h
  split_ifs at h
  · exact List.mem_of_mem_dropLast h
  · exact h

theorem rest_lt (a c : α) (l : List α) :
    (((c :: l).dropWhile (· ≠ a)).drop 1).length < (c :: l).length := by
  have := (List.dropWhile_sublist (l := c :: l) (· ≠ a)).length_le
  simp only [List.length_drop, List.length_cons] at this ⊢
  omega

theorem room_cells_le (a : α) (l : List α) : room (cells a l) ≤ l.length + 1 := by
  induction hn : l.length using Nat.strong_induction_on generalizing l with
  | _ n ih =>
    subst hn
    cases l with
    | nil => simp [cells_nil, room]
    | cons c l =>
      have hlen := congrArg List.length
        (List.takeWhile_append_dropWhile (p := (· ≠ a)) (l := c :: l))
      have hrest := ih _ (rest_lt a c l) _ rfl
      rw [List.length_append] at hlen
      rw [cells_cons, room_cons]
      rw [List.length_drop] at hrest
      cases hdrop : (c :: l).dropWhile (· ≠ a) with
      | nil =>
        rw [hdrop, List.length_nil] at hlen
        rw [List.drop_nil, cells_nil]
        simp only [room, List.map_nil, List.sum_nil]
        omega
      | cons b rest =>
        rw [hdrop, List.length_cons] at hlen
        rw [hdrop, List.length_cons] at hrest
        omega

/-- **Some of the parts need no more room than the text.** -/
theorem length_intercalate_filter_le (a : α) (p : List α → Bool) (l : List α) :
    ([a].intercalate ((cells a l).filter p)).length ≤ l.length := by
  by_cases h : (cells a l).filter p = []
  · rw [h]
    exact Nat.zero_le _
  · have hlt := length_intercalate_lt a h
    have hfilter := room_filter_le p (cells a l)
    have hcells := room_cells_le a l
    omega

/-- No part holds the separator. -/
theorem not_mem_of_mem_splitOn {x : List α} (h : x ∈ l.splitOn a) : a ∉ x := by
  induction hn : l.length using Nat.strong_induction_on generalizing l with
  | _ n ih =>
    subst hn
    cases hrest : l.dropWhile (· ≠ a) with
    | nil =>
      have hsplit := List.takeWhile_append_dropWhile (p := (· ≠ a)) (l := l)
      rw [hrest, List.append_nil] at hsplit
      rw [splitOn_of_nil hrest, List.mem_singleton] at h
      rw [h, ← hsplit]
      exact not_mem_takeWhile a l
    | cons b rest =>
      have hlt := (List.dropWhile_suffix (· ≠ a) (l := l)).length_le
      rw [hrest, List.length_cons] at hlt
      rw [splitOn_of_cons hrest, List.mem_cons] at h
      rcases h with rfl | h
      · exact not_mem_takeWhile a l
      · exact ih _ (by omega) h rfl

theorem not_mem_of_cells {x : List α} (h : x ∈ cells a l) : a ∉ x :=
  not_mem_of_mem_splitOn (mem_splitOn_of_cells h)

end Separated
