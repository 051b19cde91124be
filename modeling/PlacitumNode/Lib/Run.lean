import Mathlib

/-!
# Runs of an event-driven machine

A machine is a step function `σ → ε → σ`.  A run is the left fold of the step over a list of
events, and `Along step P` says that every step of a run, taken in the state the run has reached,
satisfies the condition `P`.  The invariant rule turns a statement about one step into a statement
about every state of a run.
-/

namespace Run

variable {σ ε : Type*}

/-- The state reached from `s` by the events `es`. -/
def runFrom (step : σ → ε → σ) (s : σ) (es : List ε) : σ := es.foldl step s

/-- Every step of the run satisfies `P` in the state before it. -/
def Along (step : σ → ε → σ) (P : σ → ε → Prop) : σ → List ε → Prop
  | _, [] => True
  | s, e :: es => P s e ∧ Along step P (step s e) es

instance Along.instDecidable (step : σ → ε → σ) (P : σ → ε → Prop) [∀ s e, Decidable (P s e)] :
    ∀ s es, Decidable (Along step P s es)
  | _, [] => inferInstanceAs (Decidable True)
  | s, e :: es =>
    have := Along.instDecidable step P (step s e) es
    inferInstanceAs (Decidable (P s e ∧ Along step P (step s e) es))

variable {step : σ → ε → σ} {P Q : σ → ε → Prop} {s : σ}

@[simp] theorem runFrom_nil (step : σ → ε → σ) (s : σ) : runFrom step s [] = s := rfl

@[simp] theorem runFrom_cons (step : σ → ε → σ) (s : σ) (e : ε) (es : List ε) :
    runFrom step s (e :: es) = runFrom step (step s e) es := rfl

theorem runFrom_append (step : σ → ε → σ) (s : σ) (es fs : List ε) :
    runFrom step s (es ++ fs) = runFrom step (runFrom step s es) fs := by
  simp [runFrom]

/-- A step that commutes with the steps of a run can be taken after it. -/
theorem runFrom_step_comm {e : ε} {fs : List ε}
    (h : ∀ f ∈ fs, ∀ s, step (step s e) f = step (step s f) e) (s : σ) :
    runFrom step (step s e) fs = step (runFrom step s fs) e := by
  induction fs generalizing s with
  | nil => rfl
  | cons f fs ih =>
    rw [runFrom_cons, runFrom_cons, h f List.mem_cons_self]
    exact ih (fun g hg => h g (List.mem_cons_of_mem f hg)) _

/-- Two runs whose steps commute in pairs can be exchanged. -/
theorem runFrom_swap {es fs : List ε}
    (h : ∀ e ∈ es, ∀ f ∈ fs, ∀ s, step (step s e) f = step (step s f) e) (s : σ) :
    runFrom step (runFrom step s es) fs = runFrom step (runFrom step s fs) es := by
  induction es generalizing s with
  | nil => rfl
  | cons e es ih =>
    rw [runFrom_cons, runFrom_cons, ih fun a ha => h a (List.mem_cons_of_mem e ha),
      runFrom_step_comm (h e List.mem_cons_self)]

theorem along_cons {e : ε} {es : List ε} :
    Along step P s (e :: es) ↔ P s e ∧ Along step P (step s e) es := Iff.rfl

theorem along_append {es fs : List ε} :
    Along step P s (es ++ fs) ↔
      Along step P s es ∧ Along step P (runFrom step s es) fs := by
  induction es generalizing s with
  | nil => simp [Along]
  | cons e es ih => simp [Along, ih, and_assoc]

/-- The condition at one step of a run. -/
theorem Along.at_step {es fs : List ε} {e : ε} (h : Along step P s (es ++ e :: fs)) :
    P (runFrom step s es) e := (along_append.1 h).2.1

theorem along_and {es : List ε} (hP : Along step P s es) (hQ : Along step Q s es) :
    Along step (fun s e => P s e ∧ Q s e) s es := by
  induction es generalizing s with
  | nil => trivial
  | cons e es ih => exact ⟨⟨hP.1, hQ.1⟩, ih hP.2 hQ.2⟩

/-- **Invariant rule.** A property kept by every step that meets the condition holds after every
run whose steps meet the condition. -/
theorem invariant_run {Inv : σ → Prop} (hstep : ∀ s e, Inv s → P s e → Inv (step s e))
    {es : List ε} (h0 : Inv s) (hP : Along step P s es) : Inv (runFrom step s es) := by
  induction es generalizing s with
  | nil => exact h0
  | cons e es ih => exact ih (hstep s e h0 hP.1) hP.2

/-- The invariant rule for machines every step of which keeps the property. -/
theorem invariant_always {Inv : σ → Prop} (hstep : ∀ s e, Inv s → Inv (step s e))
    (es : List ε) (h0 : Inv s) : Inv (runFrom step s es) := by
  induction es generalizing s with
  | nil => exact h0
  | cons e es ih => exact ih (hstep s e h0)

end Run
