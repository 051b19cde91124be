import Mathlib

/-!
# Lists through links

An intrusive list: every cell names the next one.  `Links next head l` says that following `next`
from `head` visits exactly the cells of `l`, in order, and then ends.  A list that is read off in
this way without repetition is acyclic.
-/

namespace Linked

variable {α : Type*}

/-- Following `next` from the given cell visits the cells of the list and ends. -/
def Links (next : α → Option α) : Option α → List α → Prop
  | none, [] => True
  | some a, b :: l => a = b ∧ Links next (next a) l
  | _, _ => False

variable {next : α → Option α} {a : α} {l : List α}

@[simp] theorem links_nil : Links next none [] := trivial

@[simp] theorem links_some_cons {b : α} :
    Links next (some a) (b :: l) ↔ a = b ∧ Links next (next a) l := Iff.rfl

theorem exists_of_links_some (h : Links next (some a) l) :
    ∃ l', l = a :: l' ∧ Links next (next a) l' := by
  cases l with
  | nil => exact absurd h (by simp [Links])
  | cons b l =>
    obtain ⟨rfl, h⟩ := h
    exact ⟨l, rfl, h⟩

/-- A change of the links outside the list. -/
theorem links_congr {next' : α → Option α} {head : Option α}
    (h : ∀ b ∈ l, next' b = next b) (hl : Links next head l) : Links next' head l := by
  induction l generalizing head with
  | nil =>
    cases head with
    | none => trivial
    | some a => exact hl
  | cons b l ih =>
    cases head with
    | none => exact hl
    | some a =>
      obtain ⟨rfl, hl⟩ := hl
      refine ⟨rfl, ?_⟩
      rw [h a List.mem_cons_self]
      exact ih (fun c hc => h c (List.mem_cons_of_mem a hc)) hl

end Linked
