import PlacitumNode.Wave.NoEarlyAllow

/-!
# What a reply adds to the score

A score action that would take the total below zero is cut off there.  A reply of which nothing is
cut off, on a route whose list of actions has room, adds an amount that depends on the reply and its
mode alone, never on what other replies did.

* `ownScore`, `bump`, `gain`: the amount;
* `dip`, `low`: how far the total falls on the way there;
* `account_score`, `actionMerge_bump`: one step of it.
-/

namespace Waves

open Flags Octets Slots Run

variable {c : Conf} {s : St} {i : Index}

/-- The score an entry starts with. -/
def Reply.ownScore (r : Reply) : ℤ := if r.votes then 100 else r.score

/-- What accounting adds to the score of the phase. -/
def Reply.accounted (r : Reply) : ℤ :=
  if r.passive = false ∧ (r.votes = true ∨ r.verdict = .score) ∧ 0 < r.ownScore then r.ownScore
  else 0

/-- The score of an entry after one more action, where the total sets no limit. -/
def bump (x : ℤ) (a : Action) : ℤ :=
  if a.verb = .score then max (-100) (min 100 (x + a.value)) else x

/-- The lowest score of an entry on the way through its actions. -/
def dip : ℤ → List Action → ℤ
  | x, [] => x
  | x, a :: l => min x (dip (bump x a) l)

/-- What a recorded reply adds to the score of the phase when nothing is cut off. -/
def Reply.gain (r : Reply) : ℤ :=
  r.accounted + if r.passive then 0 else r.actions.foldl bump r.ownScore - r.ownScore

/-- The lowest the score of the phase gets while a recorded reply is merged, from where it was. -/
def Reply.low (r : Reply) : ℤ :=
  r.accounted + if r.passive then 0 else dip r.ownScore r.actions - r.ownScore

theorem dip_le (x : ℤ) (l : List Action) : dip x l ≤ x := by
  cases l with
  | nil => exact le_rfl
  | cons a l => exact min_le_left _ _

/-- Scores see the verbs and values of the actions alone. -/
theorem foldl_bump_map (f : Action → Action) (hf : ∀ a, (f a).verb = a.verb ∧ (f a).value = a.value)
    (x : ℤ) (l : List Action) :
    (l.map f).foldl bump x = l.foldl bump x ∧ dip x (l.map f) = dip x l := by
  have hbump : ∀ x a, bump x (f a) = bump x a := by
    intro x a
    unfold bump
    rw [(hf a).1, (hf a).2]
  induction l generalizing x with
  | nil => exact ⟨rfl, rfl⟩
  | cons a l ih =>
    rw [List.map_cons, List.foldl_cons, List.foldl_cons, hbump, dip, dip, hbump, (ih _).2]
    exact ⟨(ih _).1, rfl⟩

theorem addScore_score (s : St) (r : Reply) : (s.addScore r).score =
    s.score + if r.passive = false ∧ 0 < r.score then r.score else 0 := by
  unfold St.addScore
  by_cases hs : r.score ≤ 0
  · rw [if_pos hs, if_neg (by omega), add_zero]
  · rw [if_neg hs]
    cases hp : r.passive with
    | true => simp
    | false => simp only [Bool.false_eq_true, if_false, true_and, if_pos (not_le.1 hs)]

theorem account_score (hred : (s.replies i).verdict = .redirect → c.phase = .request) :
    (account c s i).score = s.score + (s.replies i).accounted ∧
      ((account c s i).replies i).score = (s.replies i).ownScore ∧
      (account c s i).actions = s.actions := by
  have hnr : ¬((s.replies i).verdict = .redirect ∧ c.phase ≠ .request) := fun hx => hx.2 (hred hx.1)
  have hvotes : ∀ o, Reply.votes { s.replies i with order := o } = (s.replies i).votes := fun _ => rfl
  unfold account Reply.accounted Reply.ownScore
  simp only
  rw [if_neg hnr, hvotes]
  cases hv : (s.replies i).votes with
  | true =>
    simp only [if_true]
    rw [addScore_score, (addScore_frame _ _).2.1, (addScore_frame _ _).2.2]
    simp [St.setReply]
  | false =>
    simp only [Bool.false_eq_true, if_false, false_or]
    by_cases hsc : (s.replies i).verdict = .score
    · rw [if_pos hsc, addScore_score, (addScore_frame _ _).2.1, (addScore_frame _ _).2.2]
      simp [St.setReply, hsc]
    · rw [if_neg hsc]
      simp [St.setReply, hsc]

theorem account_passive : ((account c s i).replies i).passive = (s.replies i).passive := by
  unfold account
  simp only
  split_ifs <;> simp [St.setReply, (addScore_frame _ _).2.1]

/-- The effect of an action that is not a score action on the accounts. -/
theorem actionApply_score {s' : St} {a : Action} (h : actionApply c s a = some s')
    (hv : a.verb ≠ .score) :
    s'.score = s.score ∧ s'.replies = s.replies ∧ s'.actions = s.actions := by
  unfold actionApply at h
  split_ifs at h with h₁ h₂ h₃
  · unfold controlApply at h
    split at h
    · cases h
    · split_ifs at h <;> cases h <;> exact ⟨rfl, rfl, rfl⟩
  · unfold auditOvrApply at h
    simp only at h
    split_ifs at h <;> cases h <;> exact ⟨rfl, rfl, rfl⟩
  · cases h
    unfold markersAdd
    split_ifs <;> exact ⟨rfl, rfl, rfl⟩
  · cases h
    exact ⟨rfl, rfl, rfl⟩

theorem actionApply_of_score {a : Action} (hv : a.verb = .score) :
    actionApply c s a = scoreApply c s a := by
  simp [actionApply, hv, Verb.control, Verb.auditing]

/-- The effect of an action leaves the list alone. -/
theorem actionApply_actions {s' : St} {a : Action} (h : actionApply c s a = some s') :
    s'.actions = s.actions := by
  by_cases hv : a.verb = .score
  · rw [actionApply_of_score hv, scoreApply] at h
    simp only at h
    split_ifs at h
    cases h
    rfl
  · exact (actionApply_score h hv).2.2

/-- Merging an action of a passive sender leaves the score alone. -/
theorem actionMerge_passive {a : Action} (hp : a.passive = true) :
    (actionMerge c s a).score = s.score := by
  unfold actionMerge
  simp only
  split
  · rfl
  split
  · rfl
  rename_i s' h
  by_cases hv : a.verb = .score
  · rw [actionApply_of_score hv, scoreApply, if_pos hp] at h
    cases h
  · exact (actionApply_score h hv).1

/-- Merging one action of the inspector `i`, not passive, that the list takes and of which nothing is
cut off. -/
theorem actionMerge_bump {a : Action} (hi : a.sender = i) (hp : a.passive = false)
    (hn : i.val < c.ninspectors)
    (hstore : a.verb = .score → ¬(s.actions.findIdx (Action.sameKey a) = s.actions.length ∧
      c.actionsMax ≤ s.actions.length))
    (hfloor : 0 ≤ s.score + (bump (s.replies i).score a - (s.replies i).score)) :
    (actionMerge c s a).score = s.score + (bump (s.replies i).score a - (s.replies i).score) ∧
      ((actionMerge c s a).replies i).score = bump (s.replies i).score a := by
  unfold actionMerge
  simp only
  by_cases hv : a.verb = .score
  · rw [if_neg (hstore hv)]
    have hb : bump (s.replies i).score a = max (-100) (min 100 ((s.replies i).score + a.value)) :=
      if_pos hv
    rw [hb] at hfloor ⊢
    subst hi
    rw [actionApply_of_score hv, scoreApply, if_neg (by simp [hp]), if_neg (Nat.not_le.2 hn)]
    simp only [St.setReply, Function.update_self]
    omega
  · have hb : bump (s.replies i).score a = (s.replies i).score := if_neg hv
    rw [hb, sub_self, add_zero]
    split
    · exact ⟨rfl, rfl⟩
    cases happ : actionApply c s a with
    | none => exact ⟨rfl, rfl⟩
    | some t =>
      obtain ⟨h₁, h₂, -⟩ := actionApply_score happ hv
      exact ⟨h₁, by simp only [h₂]⟩

/-- Merging actions of a passive sender leaves the score alone. -/
theorem foldl_actionMerge_passive {l : List Action} (hl : ∀ a ∈ l, a.passive = true) (s : St) :
    (runFrom (actionMerge c) s l).score = s.score := by
  induction l generalizing s with
  | nil => rfl
  | cons a l ih =>
    rw [runFrom_cons, ih fun b hb => hl b (List.mem_cons_of_mem a hb)]
    exact actionMerge_passive (hl a List.mem_cons_self)

end Waves
