import Mathlib

/-!
# Loops that consume their input

A loop is a step function `σ → σ ⊕ ρ`: an iteration goes on in a new state or leaves with a result.
When every iteration makes a measure of the state smaller, the loop ends, and `exec` computes its
result with as many iterations as the measure allows.  `exec_inl` and `exec_inr` unfold one
iteration, and `exec_induct` is the induction over the iterations of a loop, so that proofs about
loops do not count iterations.
-/

namespace Loop

variable {σ ρ : Type*}

/-- The result of the loop after at most `n` iterations. -/
def run (step : σ → σ ⊕ ρ) : ℕ → σ → Option ρ
  | 0, _ => none
  | n + 1, s =>
    match step s with
    | .inl s' => run step n s'
    | .inr r => some r

/-- Every iteration that goes on makes the state smaller. -/
def Shrinks (step : σ → σ ⊕ ρ) (size : σ → ℕ) : Prop := ∀ s s', step s = .inl s' → size s' < size s

/-- The loop, run for as many iterations as the size of the state allows. -/
def exec (step : σ → σ ⊕ ρ) (size : σ → ℕ) (s : σ) : Option ρ := run step (size s + 1) s

variable {step : σ → σ ⊕ ρ} {size : σ → ℕ} {s s' : σ} {r : ρ}

theorem run_mono {n m : ℕ} (h : run step n s = some r) (hnm : n ≤ m) : run step m s = some r := by
  induction n generalizing s m with
  | zero => cases h
  | succ n ih =>
    obtain ⟨m, rfl⟩ := Nat.exists_eq_add_of_le' (Nat.one_le_of_lt hnm)
    simp only [run] at h ⊢
    cases hs : step s with
    | inr r' => rwa [hs] at h
    | inl s' =>
      rw [hs] at h
      exact ih h (by omega)

theorem exists_run (h : Shrinks step size) {n : ℕ} (hn : size s < n) :
    ∃ r, run step n s = some r := by
  induction n generalizing s with
  | zero => omega
  | succ n ih =>
    simp only [run]
    cases hs : step s with
    | inr r => exact ⟨r, rfl⟩
    | inl s' =>
      have hlt := h s s' hs
      exact ih (by omega)

theorem exec_isSome (h : Shrinks step size) (s : σ) : ∃ r, exec step size s = some r :=
  exists_run h (Nat.lt_succ_self _)

theorem exec_inr (hs : step s = .inr r) : exec step size s = some r := by
  simp only [exec, run, hs]

theorem exec_inl (h : Shrinks step size) (hs : step s = .inl s') :
    exec step size s = exec step size s' := by
  obtain ⟨r, hr⟩ := exec_isSome h s'
  rw [hr]
  unfold exec at hr ⊢
  simp only [run, hs]
  exact run_mono hr (h s s' hs)

/-- **Induction over the iterations of a loop**, from its result back to a state. -/
theorem exec_induct (h : Shrinks step size) {P : σ → ρ → Prop}
    (hout : ∀ s r, step s = .inr r → P s r)
    (hgo : ∀ s s' r, step s = .inl s' → P s' r → P s r) (hr : exec step size s = some r) :
    P s r := by
  induction hn : size s using Nat.strong_induction_on generalizing s with
  | h n ih =>
    subst hn
    cases hs : step s with
    | inr r' =>
      rw [exec_inr hs] at hr
      cases hr
      exact hout s r hs
    | inl s' =>
      rw [exec_inl h hs] at hr
      exact hgo s s' r hs (ih _ (h s s' hs) hr rfl)

/-- The loop goes on from `s` to `s'`. -/
def Reaches (step : σ → σ ⊕ ρ) : σ → σ → Prop :=
  Relation.ReflTransGen fun s s' => step s = .inl s'

theorem Reaches.refl : Reaches step s s := Relation.ReflTransGen.refl

theorem Reaches.trans {t : σ} (h : Reaches step s s') (h' : Reaches step s' t) : Reaches step s t :=
  Relation.ReflTransGen.trans h h'

theorem Reaches.single (h : step s = .inl s') : Reaches step s s' := Relation.ReflTransGen.single h

theorem exec_reaches (h : Shrinks step size) (hs : Reaches step s s') :
    exec step size s = exec step size s' := by
  induction hs with
  | refl => rfl
  | tail _ hstep ih => exact ih.trans (exec_inl h hstep)

end Loop
