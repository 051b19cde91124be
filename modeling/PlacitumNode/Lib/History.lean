import Mathlib

/-!
# Histories

A history is a list of entries, the oldest first, and a rule says which entries may follow a history.
`Each R h` says that every entry of the history `h` follows what is before it by the rule `R`; it is
kept when an entry is appended that the rule allows (`each_concat`).

* `Each`: every entry is allowed;
* `trailing`: how many entries at the end have a property.
-/

namespace History

variable {α : Type*} {R : List α → α → Prop}

/-- Every entry is one that the rule allows after those before it. -/
def Each (R : List α → α → Prop) (h : List α) : Prop :=
  ∀ before a after, h = before ++ a :: after → R before a

theorem each_nil : Each R [] := fun before _ _ h => by simp at h

theorem each_concat {h : List α} {a : α} : Each R (h ++ [a]) ↔ Each R h ∧ R h a := by
  constructor
  · intro hall
    refine ⟨fun before b after heq => ?_, hall h a [] rfl⟩
    exact hall before b (after ++ [a]) (by rw [heq, List.append_assoc, List.cons_append])
  · rintro ⟨hall, ha⟩ before b after heq
    rcases List.eq_nil_or_concat after with rfl | ⟨after', c, rfl⟩
    · obtain ⟨rfl, hab⟩ := List.append_inj' heq rfl
      obtain rfl := List.singleton_inj.1 hab
      exact ha
    · rw [List.concat_eq_append, ← List.cons_append, ← List.append_assoc] at heq
      obtain ⟨rfl, -⟩ := List.append_inj' heq rfl
      exact hall before b after' rfl

/-- Every entry but the first follows some entry. -/
theorem Each.after {h before after : List α} {a b : α} (hall : Each R h)
    (heq : h = before ++ a :: b :: after) : R (before ++ [a]) b :=
  hall (before ++ [a]) b after (by rw [heq, List.append_assoc, List.singleton_append])

variable (p : α → Bool)

/-- The number of entries at the end that have the property. -/
def trailing (h : List α) : ℕ := (h.reverse.takeWhile p).length

theorem trailing_concat (h : List α) (a : α) :
    trailing p (h ++ [a]) = if p a then trailing p h + 1 else 0 := by
  unfold trailing
  rw [List.reverse_append, List.reverse_singleton, List.singleton_append, List.takeWhile_cons]
  split_ifs <;> simp

end History
