import PlacitumNode.Wave.View

/-!
# What a reply adds to the view

Control actions write masks, score actions move the score, and every action that is not refused takes
a place in a list with a limit.  When nothing of a reply is lost on the way, what it adds depends on
its entry alone, not on the state it meets.

* `ctlStep`, `keyStep`, `lastSwitch`: the effect of actions, apart from the state;
* `HasRoom`, `Lossless`: nothing of the actions, nothing of the reply is lost;
* `blend`: what an entry adds to the view, `absorb_view`;
* `run_comm`, `blend_comm`: two entries that agree on the inspectors they both switch can be
  exchanged.
-/

namespace Waves

open Flags Octets Slots Run

/-! ### The effect of an action, apart from the state -/

/-- The action as it is merged: stamped with its sender. -/
def Action.stamp (c : Conf) (i : Index) (wave : ℕ) (p : Bool) (a : Action) : Action :=
  { a with sender := i, phase := c.phase, wave := wave, passive := p }

/-- The action is not refused. -/
def Action.taken (c : Conf) (a : Action) : Bool :=
  if a.verb.control then
    match a.addressee with
    | none => false
    | some target => !a.passive && !(a.apply = .conn && !Phase.isFrame c.phase) &&
        !phases.all fun p => !(a.addresses p && (c.bindingFind target p).isSome)
  else if a.verb.auditing then !(a.apply = .response && Phase.isFrame c.phase)
  else if a.verb = .score then !a.passive && decide (a.sender.val < c.ninspectors)
  else true

/-- The action switches the mode of the inspector `k` in this phase. -/
def Action.switches (c : Conf) (a : Action) (k : Index) : Bool :=
  a.taken c && decide (a.controls c.phase k)

/-- What an action does to the control masks of the phase. -/
def ctlStep (c : Conf) (ctl : Control) (a : Action) : Control :=
  match a.addressee with
  | none => ctl
  | some target => if a.switches c target then controlSet ctl a.verb (bit target) else ctl

/-- The keys an action adds to the list. -/
def keyStep (c : Conf) (ks : Finset Key) (a : Action) : Finset Key :=
  if a.taken c then insert a.key ks else ks

def switchStep (c : Conf) (k : Index) (last : Option Verb) (a : Action) : Option Verb :=
  if a.switches c k then some a.verb else last

/-- The verb of the last action that switches the inspector `k`. -/
def lastSwitch (c : Conf) (k : Index) (l : List Action) : Option Verb :=
  runFrom (switchStep c k) none l

/-- The flags that a control verb leaves its addressee with. -/
def Verb.flags (v : Verb) : Bool × Bool × Bool × Bool :=
  (decide (v = .active), decide (v = .passive), decide (v = .off), decide (v = .vote))

/-- The number of actions beyond their keys. -/
def St.extra (s : St) : ℤ := (s.actions.length : ℤ) - (keys s.actions).card

/-- The list of actions has room for all keys that the actions add. -/
def HasRoom (c : Conf) (s : St) (l : List Action) : Prop :=
  s.extra + ((runFrom (keyStep c) (keys s.actions) l).card : ℤ) ≤ c.actionsMax

instance (c : Conf) (s : St) (l : List Action) : Decidable (HasRoom c s l) := by
  unfold HasRoom; infer_instance

theorem view_eq (c : Conf) (s : St) : s.view c = ⟨s.core c, keys s.actions, s.extra⟩ := rfl

section Effect

variable {c : Conf} {s : St} {a : Action} {k : Index}

theorem ctlStep_flags (x : Control) (a : Action) (k : Index) :
    (ctlStep c x a).flags k = if a.switches c k then a.verb.flags else x.flags k := by
  have hother : ∀ j, a.addressee ≠ some j → a.switches c j = false := by
    intro j hj
    simp [Action.switches, Action.controls, hj]
  unfold ctlStep
  cases hto : a.addressee with
  | none => rw [hother k (by simp [hto]), if_neg (by simp)]
  | some target =>
    simp only
    by_cases hk : target = k
    · subst hk
      split_ifs
      · rw [controlSet_flags, if_pos rfl]
        rfl
      · rfl
    · have hno : a.switches c k = false := hother k (by simp [hto, hk])
      simp only [hno, Bool.false_eq_true, if_false]
      split_ifs
      · rw [controlSet_flags, if_neg hk]
      · rfl

theorem ctlStep_of_not_taken (h : a.taken c = false) (x : Control) : ctlStep c x a = x := by
  unfold ctlStep
  cases a.addressee <;> simp [Action.switches, h]

theorem ctlStep_of_not_control (h : a.verb.control = false) (x : Control) :
    ctlStep c x a = x := by
  unfold ctlStep
  cases a.addressee <;> simp [Action.switches, Action.controls, h]

/-- **The last switch decides.** The actions leave an inspector with the flags of the last one that
switches it. -/
theorem run_flags (l : List Action) (x : Control) (k : Index) :
    (runFrom (ctlStep c) x l).flags k = (lastSwitch c k l).elim (x.flags k) Verb.flags := by
  have hrun : ∀ (l : List Action) (y : Control) (last : Option Verb),
      y.flags k = last.elim (x.flags k) Verb.flags →
      (runFrom (ctlStep c) y l).flags k =
        (runFrom (switchStep c k) last l).elim (x.flags k) Verb.flags := by
    intro l
    induction l with
    | nil => exact fun _ _ h => h
    | cons a l ih =>
      intro y last h
      rw [runFrom_cons, runFrom_cons]
      apply ih
      rw [ctlStep_flags, switchStep]
      split_ifs
      · rfl
      · exact h
  exact hrun l x none rfl

theorem lastSwitch_control {l : List Action} {v : Verb} (h : lastSwitch c k l = some v) :
    v.control = true := by
  have hrun : ∀ (l : List Action) (last : Option Verb), (∀ u ∈ last, u.control = true) →
      ∀ u ∈ runFrom (switchStep c k) last l, u.control = true := by
    intro l
    induction l with
    | nil => exact fun _ h => h
    | cons a l ih =>
      intro last hlast
      rw [runFrom_cons]
      apply ih
      rw [switchStep]
      split_ifs with hs
      · rintro _ ⟨⟩
        simp only [Action.switches, Bool.and_eq_true, decide_eq_true_eq] at hs
        exact hs.2.1
      · exact hlast
  exact hrun l none (by rintro _ ⟨⟩) v h

theorem run_on {x y : Control} {m : Mask} (h : x.on m = y.on m) (l : List Action) :
    (runFrom (ctlStep c) x l).on m = (runFrom (ctlStep c) y l).on m :=
  Control.on_eq_iff.2 fun k hk => by rw [run_flags, run_flags, Control.on_eq_iff.1 h k hk]

theorem recast_self {s' : St} (h : s'.core c = s.core c) : s'.core c =
    (s.core c).recast (s.core c).ctl (if 0 < c.scoreDeny then s'.score else 0) := by
  have hscore : (if 0 < c.scoreDeny then s'.score else 0) =
      if 0 < c.scoreDeny then s.score else 0 := congrArg St.score h
  rw [hscore, h]
  rfl

theorem core_setReply_self {i : Index} {r : Reply} (h : r.core = (s.replies i).core) :
    (s.setReply i r).core c = s.core c := by
  have hself : r.core = (s.core c).replies i := h
  rw [core_setReply, hself]
  unfold St.setReply
  rw [Function.update_eq_self]

/-- An action is refused, or it is taken and changes the switches and the score of the core. -/
def Told (c : Conf) (s : St) (a : Action) (r : Option St) : Prop :=
  r = none ∧ a.taken c = false ∨
    ∃ s', r = some s' ∧ a.taken c = true ∧ s'.core c =
      (s.core c).recast (fun _ => (ctlStep c (s.ctl c.phase) a).on (phaseAll c))
        (if 0 < c.scoreDeny then s'.score else 0)

theorem controlApply_told {a : Action} (hctl : a.verb.control = true) :
    Told c s a (controlApply c s a) := by
  unfold controlApply
  split
  · rename_i hnone
    exact Or.inl ⟨rfl, by simp [Action.taken, hctl, hnone]⟩
  rename_i target hto
  by_cases h₁ : a.passive = true
  · rw [if_pos h₁]
    exact Or.inl ⟨rfl, by simp [Action.taken, hctl, hto, h₁]⟩
  rw [if_neg h₁]
  by_cases h₂ : a.apply = .conn ∧ !Phase.isFrame c.phase
  · rw [if_pos h₂]
    exact Or.inl ⟨rfl, by simp [Action.taken, hctl, hto, h₂.1, (by simpa using h₂.2)]⟩
  rw [if_neg h₂]
  by_cases h₃ : (phases.all fun p => !(a.addresses p && (c.bindingFind target p).isSome)) = true
  · rw [if_pos h₃]
    exact Or.inl ⟨rfl, by simp only [Action.taken, hctl, hto, h₃]; simp⟩
  · rw [if_neg h₃]
    have htaken : a.taken c = true := by
      have h₁' : a.passive = false := by simpa using h₁
      have h₂' : (a.apply = .conn && !Phase.isFrame c.phase) = false := by
        by_contra hx
        exact h₂ (by simpa using hx)
      have h₃' := Bool.eq_false_iff.2 h₃
      simp only [Action.taken, hctl, hto, h₁', h₂', h₃']
      rfl
    refine Or.inr ⟨_, rfl, htaken, ?_⟩
    have hswitch : a.switches c target = a.addresses c.phase := by
      simp [Action.switches, Action.controls, htaken, hctl, hto]
    simp only [St.recast, St.core, ctlStep, hto, hswitch]

/-- Where an action that is no control action is taken, the switches stay. -/
theorem told_of_not_control {a : Action} {s' : St} (hctl : a.verb.control = false)
    (ht : a.taken c = true) (hcore : s'.core c = s.core c) : Told c s a (some s') := by
  refine Or.inr ⟨s', rfl, ht, ?_⟩
  rw [ctlStep_of_not_control hctl]
  exact recast_self hcore

theorem auditOvrApply_told {a : Action} (hctl : a.verb.control = false)
    (haud : a.verb.auditing = true) : Told c s a (auditOvrApply c s a) := by
  have htaken : a.taken c = !(a.apply = .response && Phase.isFrame c.phase) := by
    simp only [Action.taken, hctl, haud, Bool.false_eq_true, if_false, if_true]
  by_cases h₁ : a.apply = .response ∧ Phase.isFrame c.phase
  · exact Or.inl ⟨by simp only [auditOvrApply, if_pos h₁], by rw [htaken]; simp [h₁]⟩
  · cases happ : auditOvrApply c s a with
    | none => simp only [auditOvrApply, if_neg h₁, reduceCtorEq] at happ
    | some s' =>
      refine told_of_not_control hctl ?_ (core_auditOvrApply happ).1
      rw [htaken]
      simpa [imp_iff_not_or] using h₁

theorem scoreApply_told {a : Action} (hscore : a.verb = .score) :
    Told c s a (scoreApply c s a) := by
  have hctl : a.verb.control = false := by rw [hscore]; rfl
  have htaken : a.taken c = (!a.passive && decide (a.sender.val < c.ninspectors)) := by
    simp only [Action.taken, hscore, if_true]
    rfl
  unfold scoreApply
  by_cases h₁ : a.passive = true
  · rw [if_pos h₁]
    exact Or.inl ⟨rfl, by rw [htaken]; simp [h₁]⟩
  rw [if_neg h₁]
  by_cases h₂ : c.ninspectors ≤ a.sender.val
  · rw [if_pos h₂]
    exact Or.inl ⟨rfl, by rw [htaken]; simp [Nat.not_lt.2 h₂]⟩
  · rw [if_neg h₂]
    refine Or.inr ⟨_, rfl, by rw [htaken]; simp [h₁, Nat.not_le.1 h₂], ?_⟩
    rw [ctlStep_of_not_control hctl]
    refine (core_setReply_self ?_).trans ?_ <;> rfl

/-- The effect of one action on the core. -/
theorem actionApply_core (c : Conf) (s : St) (a : Action) : Told c s a (actionApply c s a) := by
  unfold actionApply
  -- The kinds of action in the order in which the code asks for them.
  by_cases hctl : a.verb.control = true
  · rw [if_pos hctl]
    exact controlApply_told hctl
  rw [if_neg hctl]
  have hctl' : a.verb.control = false := by simpa using hctl
  by_cases haud : a.verb.auditing = true
  · rw [if_pos haud]
    exact auditOvrApply_told hctl' haud
  rw [if_neg haud]
  by_cases hmark : a.verb = .mark
  · rw [if_pos hmark]
    refine told_of_not_control hctl' ?_ (core_markersAdd s a).1
    rw [Action.taken, if_neg hctl, if_neg haud, if_neg (by rw [hmark]; decide)]
  rw [if_neg hmark]
  by_cases hscore : a.verb = .score
  · rw [if_pos hscore]
    exact scoreApply_told hscore
  · rw [if_neg hscore]
    refine told_of_not_control hctl' ?_ rfl
    rw [Action.taken, if_neg hctl, if_neg haud, if_neg hscore]

/-! ### Room in the list -/

theorem subset_run (l : List Action) (ks : Finset Key) : ks ⊆ runFrom (keyStep c) ks l := by
  induction l generalizing ks with
  | nil => exact Finset.Subset.refl ks
  | cons a l ih =>
    rw [runFrom_cons]
    refine Finset.Subset.trans ?_ (ih _)
    rw [keyStep]
    split_ifs
    · exact Finset.subset_insert _ _
    · exact Finset.Subset.refl _

/-- An action that is not refused finds its key or a free place. -/
theorem HasRoom.head {l : List Action} (h : HasRoom c s (a :: l)) (ht : a.taken c = true) :
    a.key ∈ keys s.actions ∨ s.actions.length < c.actionsMax := by
  by_contra hno
  rw [not_or, not_lt] at hno
  have hsub := Finset.card_le_card (subset_run (c := c) l (keyStep c (keys s.actions) a))
  rw [keyStep, if_pos ht, Finset.card_insert_of_notMem hno.1] at hsub
  unfold HasRoom St.extra at h
  rw [runFrom_cons, keyStep, if_pos ht] at h
  omega

theorem HasRoom.left {l l' : List Action} (h : HasRoom c s (l ++ l')) : HasRoom c s l := by
  have hsub := Finset.card_le_card (subset_run (c := c) l' (runFrom (keyStep c) (keys s.actions) l))
  unfold HasRoom at h ⊢
  rw [runFrom_append] at h
  omega

/-- Merging one action for which there is room. -/
theorem actionMerge_core {l : List Action} (hroom : HasRoom c s (a :: l)) :
    (actionMerge c s a).core c =
        (s.core c).recast (fun _ => (ctlStep c (s.ctl c.phase) a).on (phaseAll c))
          (if 0 < c.scoreDeny then (actionMerge c s a).score else 0) ∧
      keys (actionMerge c s a).actions = keyStep c (keys s.actions) a ∧
      (actionMerge c s a).extra = s.extra := by
  have hsame : a.taken c = false → s.core c =
      (s.core c).recast (fun _ => (ctlStep c (s.ctl c.phase) a).on (phaseAll c))
        (if 0 < c.scoreDeny then s.score else 0) ∧
      keys s.actions = keyStep c (keys s.actions) a ∧ s.extra = s.extra := by
    intro htaken
    rw [ctlStep_of_not_taken htaken, keyStep, htaken]
    exact ⟨rfl, rfl, rfl⟩
  rw [actionMerge_eq]
  by_cases hfull : a.key ∉ keys s.actions ∧ c.actionsMax ≤ s.actions.length
  · rw [if_pos hfull]
    refine hsame (Bool.eq_false_iff.2 fun ht => ?_)
    rcases hroom.head ht with hkey | hlt
    · exact hfull.1 hkey
    · omega
  rw [if_neg hfull]
  rcases actionApply_core c s a with ⟨happ, htaken⟩ | ⟨s', happ, htaken, hcore⟩
  · rw [happ]
    exact hsame htaken
  · rw [happ, keyStep, htaken, if_pos rfl]
    exact ⟨hcore, keys_put _ _, put_length _ _⟩

theorem HasRoom.tail {l : List Action} (h : HasRoom c s (a :: l)) :
    HasRoom c (actionMerge c s a) l := by
  obtain ⟨-, hkeys, hextra⟩ := actionMerge_core h
  unfold HasRoom at h ⊢
  rw [runFrom_cons] at h
  rw [hkeys, hextra]
  exact h

/-- Merging a list of actions, with room for all of them. -/
theorem foldl_actionMerge_core (l : List Action) : ∀ s : St, HasRoom c s l →
    (runFrom (actionMerge c) s l).core c =
        (s.core c).recast (fun _ => (runFrom (ctlStep c) (s.ctl c.phase) l).on (phaseAll c))
          (if 0 < c.scoreDeny then (runFrom (actionMerge c) s l).score else 0) ∧
      keys (runFrom (actionMerge c) s l).actions = runFrom (keyStep c) (keys s.actions) l ∧
      (runFrom (actionMerge c) s l).extra = s.extra := by
  induction l with
  | nil => exact fun s _ => ⟨rfl, rfl, rfl⟩
  | cons a l ih =>
    intro s hroom
    obtain ⟨h₁, h₂, h₃⟩ := actionMerge_core hroom
    obtain ⟨g₁, g₂, g₃⟩ := ih (actionMerge c s a) hroom.tail
    simp only [runFrom_cons]
    have hctl : ((actionMerge c s a).ctl c.phase).on (phaseAll c) =
        (ctlStep c (s.ctl c.phase) a).on (phaseAll c) := congrFun (congrArg St.ctl h₁) c.phase
    refine ⟨?_, by rw [g₂, h₂], g₃.trans h₃⟩
    rw [g₁, h₁, run_on hctl]
    rfl

/-- Merging the actions of an inspector that is not passive, when nothing is cut off. -/
theorem foldl_actionMerge_bump {i : Index} (hn : i.val < c.ninspectors) (l : List Action) :
    ∀ s : St, HasRoom c s l → (∀ a ∈ l, a.sender = i ∧ a.passive = false) →
      0 ≤ s.score + (dip (s.replies i).score l - (s.replies i).score) →
      (runFrom (actionMerge c) s l).score =
        s.score + (l.foldl bump (s.replies i).score - (s.replies i).score) := by
  induction l with
  | nil => intro s _ _ _; simp
  | cons a l ih =>
    intro s hroom hl hdip
    obtain ⟨hi, hp⟩ := hl a List.mem_cons_self
    have hle : dip (s.replies i).score (a :: l) ≤ dip (bump (s.replies i).score a) l :=
      min_le_right _ _
    have hlow := dip_le (bump (s.replies i).score a) l
    have hstore : a.verb = .score → ¬(s.actions.findIdx (Action.sameKey a) = s.actions.length ∧
        c.actionsMax ≤ s.actions.length) := by
      rintro hv ⟨hfound, hfull⟩
      have ht : a.taken c = true := by
        simp [Action.taken, hv, Verb.control, Verb.auditing, hp, hi, hn]
      rcases hroom.head ht with hkey | hlt
      · have := (found_lt_iff s.actions a).2 hkey
        omega
      · omega
    obtain ⟨hscore, hown⟩ := actionMerge_bump hi hp hn hstore (by omega)
    have hnext := ih (actionMerge c s a) hroom.tail (fun b hb => hl b (List.mem_cons_of_mem a hb))
      (by rw [hscore, hown]; omega)
    rw [runFrom_cons, hnext, hscore, hown, List.foldl_cons]
    ring

end Effect

/-! ### The effect of a reply -/

/-- The entry of a reply as it is recorded in a wave, in the mode its inspector has. -/
def Reply.entered (r : Reply) (wave : ℕ) (p v : Bool) : Reply :=
  { r with received := true, state := .answered, passive := p, vote := v, wave := wave }

/-- The entry of the reply of `i` if it arrives in `s`. -/
def entry (c : Conf) (s : St) (slot : SlotRec) (w : Wave) (rs : Index → Reply) (i : Index) : Reply :=
  (rs i).entered slot.wave (has (wavePassive c s w) i) (has (waveVote c s w) i)

/-- The actions of an entry of `i` as they are merged. -/
def Reply.merged (c : Conf) (i : Index) (e : Reply) : List Action :=
  e.actions.map (Action.stamp c i e.wave e.passive)

/-- A reply that refuses. -/
def Reply.refuses (r : Reply) : Prop := r.verdict = .deny ∨ r.verdict = .redirect

instance (r : Reply) : Decidable r.refuses := by unfold Reply.refuses; infer_instance

/-- What an entry of `i` adds to the core of a state. -/
def blendCore (c : Conf) (x : St) (i : Index) (e : Reply) : St :=
  { x with
    slot := x.slot.map fun slot => { slot with
      got := slot.got ||| bit i
      denied := if e.refuses then slot.denied ||| bit i else slot.denied }
    got := x.got ||| bit i
    replies := Function.update x.replies i e.core
    score := x.score + if 0 < c.scoreDeny then e.gain else 0
    ctl := fun _ => (runFrom (ctlStep c) (x.ctl c.phase) (e.merged c i)).on (phaseAll c) }

/-- What the entry of `i` adds to the view of a state. -/
def blend (c : Conf) (es : Index → Reply) (x : View) (i : Index) : View where
  core := blendCore c x.core i (es i)
  keys := runFrom (keyStep c) x.keys ((es i).merged c i)
  extra := x.extra

/-- The reply of `i` is accepted and a refusal is noted. -/
def absorb (c : Conf) (s : St) (slot : SlotRec) (w : Wave) (i : Index) (r : Reply) (now : ℕ) : St :=
  if r.refuses then
    { accept c s slot w i r now with slot := (accept c s slot w i r now).slot.map fun slot =>
        { slot with denied := slot.denied ||| bit i } }
  else accept c s slot w i r now

/-- Nothing of the reply of `i` is lost if it arrives in `s`: the list has room for its actions, and
where scores count, none of its score actions is cut off at zero. -/
structure Lossless (c : Conf) (s : St) (slot : SlotRec) (w : Wave) (rs : Index → Reply) (i : Index) :
    Prop where
  room : HasRoom c s ((entry c s slot w rs i).merged c i)
  floor : 0 < c.scoreDeny → 0 ≤ s.score + (entry c s slot w rs i).low

section Absorb

variable {c : Conf} {s : St} {slot : SlotRec} {w : Wave} {i : Index} {r : Reply} {now : ℕ}

theorem account_core (hred : (s.replies i).verdict = .redirect → c.phase = .request) :
    (account c s i).core c = (s.core c).recast (s.core c).ctl
      (if 0 < c.scoreDeny then (account c s i).score else 0) := by
  have hnr : ¬((s.replies i).verdict = .redirect ∧ c.phase ≠ .request) := fun hx => hx.2 (hred hx.1)
  have hvotes : ∀ o, Reply.votes { s.replies i with order := o } = (s.replies i).votes :=
    fun _ => rfl
  have hset : ∀ r : Reply, r.core = (s.replies i).core →
      ({ s with order := s.order + 1 }.setReply i r).core c = s.core c := fun r hr =>
    (core_setReply_self hr).trans rfl
  have hadd : ∀ (x : St) (r : Reply), x.core c = s.core c → (x.addScore r).core c = (s.core c).recast
      (s.core c).ctl (if 0 < c.scoreDeny then (x.addScore r).score else 0) := by
    intro x r hx
    rw [core_addScore, hx]
  unfold account
  simp only [hvotes]
  rw [if_neg hnr]
  by_cases hB : (s.replies i).votes = true
  · rw [if_pos hB]
    exact hadd _ _ (hset _ rfl)
  rw [if_neg hB]
  by_cases hC : (s.replies i).verdict = .score
  · rw [if_pos hC]
    exact hadd _ _ (hset _ rfl)
  · rw [if_neg hC]
    exact recast_self (hset _ rfl)

theorem mem_run_keys {l : List Action} {a : Action} (ha : a ∈ l) (ht : a.taken c = true)
    (ks : Finset Key) : a.key ∈ runFrom (keyStep c) ks l := by
  induction l generalizing ks with
  | nil => cases ha
  | cons b l ih =>
    rw [runFrom_cons]
    rcases List.mem_cons.1 ha with rfl | ha
    · refine subset_run l _ ?_
      rw [keyStep, if_pos ht]
      exact Finset.mem_insert_self _ _
    · exact ih ha _

theorem extra_nonneg (s : St) : 0 ≤ s.extra := by
  have := List.toFinset_card_le (s.actions.map Action.key)
  rw [List.length_map] at this
  unfold St.extra keys
  omega

/-- Without a list all actions are refused. -/
theorem run_of_no_list {l : List Action} (hmax : c.actionsMax = 0) (hroom : HasRoom c s l) :
    runFrom (actionMerge c) s l = s := by
  have hextra := extra_nonneg s
  unfold HasRoom at hroom
  have hempty : runFrom (keyStep c) (keys s.actions) l = ∅ := Finset.card_eq_zero.1 (by omega)
  have hnone : ∀ a ∈ l, a.taken c = false := by
    intro a ha
    rw [Bool.eq_false_iff]
    intro ht
    have := mem_run_keys ha ht (keys s.actions)
    rw [hempty] at this
    exact absurd this (Finset.notMem_empty _)
  clear hroom hempty
  induction l with
  | nil => rfl
  | cons a l ih =>
    have hstay : actionMerge c s a = s := by
      rw [actionMerge_eq]
      split_ifs
      · rfl
      rcases actionApply_core c s a with ⟨happ, -⟩ | ⟨_, -, ht, -⟩
      · rw [happ]
      · rw [hnone a List.mem_cons_self] at ht
        cases ht
    rw [runFrom_cons, hstay]
    exact ih fun b hb => hnone b (List.mem_cons_of_mem a hb)

/-- With room for its actions, a reply has all of them merged. -/
theorem actionsMerge_eq {wave : ℕ} (hroom : HasRoom c s
      ((s.replies i).actions.map (Action.stamp c i wave (s.replies i).passive))) :
    actionsMerge c s i wave = runFrom (actionMerge c) s
      ((s.replies i).actions.map (Action.stamp c i wave (s.replies i).passive)) := by
  unfold actionsMerge
  simp only
  split_ifs with h
  · exact (run_of_no_list h hroom).symm
  · unfold runFrom
    rw [List.foldl_map]
    rfl

theorem account_list : (account c s i).actions = s.actions := by
  unfold account
  simp only
  split_ifs <;> first | rfl | exact (addScore_frame _ _).2.2

/-- Merging the actions of an entry that was just accounted leaves the score where its gain says. -/
theorem merged_score {e : Reply} {u : St} {z : ℤ} (hn : i.val < c.ninspectors)
    (hroom : HasRoom c u (e.merged c i)) (hown : (u.replies i).score = e.ownScore)
    (hscore : u.score = z + e.accounted) (hlow : 0 ≤ z + e.low) :
    (runFrom (actionMerge c) u (e.merged c i)).score = z + e.gain := by
  have hmap := foldl_bump_map (Action.stamp c i e.wave e.passive) (fun _ => ⟨rfl, rfl⟩) e.ownScore
    e.actions
  unfold Reply.low at hlow
  unfold Reply.gain
  cases hp : e.passive with
  | true =>
    rw [foldl_actionMerge_passive, hscore, if_pos rfl, add_zero]
    intro a ha
    obtain ⟨b, -, rfl⟩ := List.mem_map.1 ha
    exact hp
  | false =>
    rw [hp, if_neg Bool.false_ne_true] at hlow
    rw [foldl_actionMerge_bump hn _ u hroom, hown, hscore, if_neg Bool.false_ne_true]
    · rw [Reply.merged, hmap.1]
      ring
    · intro a ha
      obtain ⟨b, -, rfl⟩ := List.mem_map.1 ha
      exact ⟨rfl, hp⟩
    · rw [hown, hscore, Reply.merged, hmap.2]
      omega

/-- The core of a state with a reply just accepted, of which nothing is lost. -/
theorem accept_core {rs : Index → Reply} (hn : i.val < c.ninspectors)
    (hred : (rs i).verdict = .redirect → c.phase = .request) (h : Lossless c s slot w rs i) :
    (accept c s slot w i (rs i) now).core c =
        ((recorded c s slot w i (rs i) now).core c).recast
          (fun _ => (runFrom (ctlStep c) (s.ctl c.phase)
            ((entry c s slot w rs i).merged c i)).on (phaseAll c))
          (if 0 < c.scoreDeny then s.score + (entry c s slot w rs i).gain else 0) ∧
      keys (accept c s slot w i (rs i) now).actions =
        runFrom (keyStep c) (keys s.actions) ((entry c s slot w rs i).merged c i) ∧
      (accept c s slot w i (rs i) now).extra = s.extra := by
  obtain ⟨hroom, hfloor⟩ := h
  generalize he : entry c s slot w rs i = e at hroom hfloor ⊢
  have hentry : (recorded c s slot w i (rs i) now).replies i =
      { e with latency := now - slot.published } := by
    rw [← he]
    simp [recorded, St.setReply, entry, Reply.entered]
  have hred₀ : ((recorded c s slot w i (rs i) now).replies i).verdict = .redirect →
      c.phase = .request := by
    rw [hentry, ← he]
    exact hred
  have hcore₁ := account_core hred₀
  obtain ⟨hscore₁, hown₁, -⟩ := account_score hred₀
  have hlist₁ : (account c (recorded c s slot w i (rs i) now) i).actions = s.actions := account_list
  have hacts₁ : ((account c (recorded c s slot w i (rs i) now) i).replies i).actions = e.actions := by
    rw [accounted_actions, ← he]
    rfl
  have hpass₁ : ((account c (recorded c s slot w i (rs i) now) i).replies i).passive =
      e.passive := by
    rw [account_passive, hentry]
  have hctl₁ : (account c (recorded c s slot w i (rs i) now) i).ctl = s.ctl := account_ctl _ _ _
  have hsc₀ : (recorded c s slot w i (rs i) now).score = s.score := rfl
  have hwave : slot.wave = e.wave := by
    rw [← he]
    rfl
  have hses : ∀ x : St, (sessionsMerge x i).core c = x.core c := fun _ => rfl
  rw [hentry, hsc₀] at hscore₁
  rw [hentry] at hown₁
  unfold accept
  rw [hwave]
  generalize account c (recorded c s slot w i (rs i) now) i = u at *
  -- Its actions are merged one by one.
  have hroom₁ : HasRoom c u (e.merged c i) := by
    unfold HasRoom St.extra at hroom ⊢
    rw [hlist₁]
    exact hroom
  have hmerge : actionsMerge c u i e.wave = runFrom (actionMerge c) u (e.merged c i) := by
    have hall := @actionsMerge_eq c u i e.wave
    rw [hacts₁, hpass₁] at hall
    exact hall hroom₁
  obtain ⟨h₁, h₂, h₃⟩ := foldl_actionMerge_core (e.merged c i) u hroom₁
  have hgain : 0 < c.scoreDeny →
      (runFrom (actionMerge c) u (e.merged c i)).score = s.score + e.gain := fun hd =>
    merged_score hn hroom₁ hown₁ hscore₁ (hfloor hd)
  have hlast : (sessionsMerge (runFrom (actionMerge c) u (e.merged c i)) i).actions =
      (runFrom (actionMerge c) u (e.merged c i)).actions := rfl
  unfold St.extra at h₃ ⊢
  rw [hlist₁] at h₂ h₃
  rw [hmerge, hses, hlast]
  refine ⟨?_, h₂, h₃⟩
  rw [h₁, hcore₁, hctl₁]
  by_cases hd : 0 < c.scoreDeny
  · rw [if_pos hd, if_pos hd, if_pos hd, hgain hd]
    rfl
  · rw [if_neg hd, if_neg hd, if_neg hd]
    rfl

/-- **The effect of a reply.** A reply of which nothing is lost adds to the view what depends on its
entry alone. -/
theorem absorb_view {rs : Index → Reply} (hslot : s.slot = some slot) (hn : i.val < c.ninspectors)
    (hred : (rs i).verdict = .redirect → c.phase = .request) (h : Lossless c s slot w rs i) :
    (absorb c s slot w i (rs i) now).view c = blend c (entry c s slot w rs) (s.view c) i := by
  obtain ⟨h₁, h₂, h₃⟩ := @accept_core _ _ slot w _ now _ hn hred h
  have hsl : (s.core c).slot = some slot := hslot
  have hrec : (recorded c s slot w i (rs i) now).core c =
      ({ s.core c with slot := some { slot with got := slot.got ||| bit i }
                       got := s.got ||| bit i } : St).setReply i (entry c s slot w rs i).core :=
    core_setReply _ _ _
  have hsum : (if 0 < c.scoreDeny then s.score + (entry c s slot w rs i).gain else 0) =
      (s.core c).score + if 0 < c.scoreDeny then (entry c s slot w rs i).gain else 0 := by
    unfold St.core
    split_ifs <;> simp
  have hctl : (runFrom (ctlStep c) (s.ctl c.phase) ((entry c s slot w rs i).merged c i)).on
      (phaseAll c) = (runFrom (ctlStep c) ((s.core c).ctl c.phase)
        ((entry c s slot w rs i).merged c i)).on (phaseAll c) :=
    run_on (Control.on_on _ _).symm _
  rw [hrec, hsum, hctl] at h₁
  have hheld : (accept c s slot w i (rs i) now).slot =
      some { slot with got := slot.got ||| bit i } := (congrArg St.slot h₁ :)
  have hrefuses : (entry c s slot w rs i).refuses ↔ (rs i).refuses := Iff.rfl
  have hcore : (absorb c s slot w i (rs i) now).core c =
      blendCore c (s.core c) i (entry c s slot w rs i) := by
    unfold absorb blendCore
    simp only [hsl, Option.map_some, hrefuses]
    by_cases hr : (rs i).refuses
    · rw [if_pos hr, if_pos hr, hheld]
      exact congrArg (fun x : St => { x with slot := some { slot with
        got := slot.got ||| bit i, denied := slot.denied ||| bit i } }) h₁
    · rw [if_neg hr, if_neg hr]
      exact h₁
  have hlist : (absorb c s slot w i (rs i) now).actions =
      (accept c s slot w i (rs i) now).actions := by
    unfold absorb
    split_ifs <;> rfl
  have hextra : (absorb c s slot w i (rs i) now).extra = s.extra := by
    unfold St.extra at h₃ ⊢
    rw [hlist]
    exact h₃
  rw [view_eq, hcore, hextra, hlist, h₂]
  rfl

end Absorb

/-! ### Two replies -/

section Swap

variable {c : Conf}

/-- Two lists of actions can be exchanged when they leave no inspector of the phase in different
modes. -/
theorem run_comm {l l' : List Action} (h : ∀ k, has (phaseAll c) k = true →
      ∀ u ∈ lastSwitch c k l, ∀ v ∈ lastSwitch c k l', u = v) (x : Control) :
    (runFrom (ctlStep c) (runFrom (ctlStep c) x l) l').on (phaseAll c) =
      (runFrom (ctlStep c) (runFrom (ctlStep c) x l') l).on (phaseAll c) := by
  refine Control.on_eq_iff.2 fun k hk => ?_
  simp only [run_flags]
  cases hu : lastSwitch c k l with
  | none => rfl
  | some u =>
    cases hv : lastSwitch c k l' with
    | none => rfl
    | some v => rw [h k hk u hu v hv]

theorem keyStep_comm (ks : Finset Key) (a b : Action) :
    keyStep c (keyStep c ks a) b = keyStep c (keyStep c ks b) a := by
  unfold keyStep
  split_ifs
  · exact Finset.insert_comm _ _ _
  all_goals rfl

theorem or_right_comm (x y z : Mask) : x ||| y ||| z = x ||| z ||| y := by
  rw [BitVec.or_assoc, BitVec.or_comm y z, ← BitVec.or_assoc]

/-- **Two replies.** Entries of two inspectors that leave no inspector of the phase in different
modes can be exchanged. -/
theorem blend_comm {es : Index → Reply} {i j : Index} (hij : i ≠ j)
    (h : ∀ k, has (phaseAll c) k = true → ∀ u ∈ lastSwitch c k ((es i).merged c i),
      ∀ v ∈ lastSwitch c k ((es j).merged c j), u = v) (x : View) :
    blend c es (blend c es x i) j = blend c es (blend c es x j) i := by
  have hctl : (runFrom (ctlStep c) ((runFrom (ctlStep c) (x.core.ctl c.phase)
        ((es i).merged c i)).on (phaseAll c)) ((es j).merged c j)).on (phaseAll c) =
      (runFrom (ctlStep c) ((runFrom (ctlStep c) (x.core.ctl c.phase)
        ((es j).merged c j)).on (phaseAll c)) ((es i).merged c i)).on (phaseAll c) :=
    ((run_on (Control.on_on _ _) _).trans (run_comm h _)).trans (run_on (Control.on_on _ _) _).symm
  have hkeys : runFrom (keyStep c) (runFrom (keyStep c) x.keys ((es i).merged c i))
        ((es j).merged c j) =
      runFrom (keyStep c) (runFrom (keyStep c) x.keys ((es j).merged c j)) ((es i).merged c i) :=
    runFrom_swap (fun a _ b _ z => keyStep_comm z a b) _
  have hslot : (x.core.slot.map fun slot => { slot with
      got := slot.got ||| bit i
      denied := if (es i).refuses then slot.denied ||| bit i else slot.denied }).map (fun slot =>
        { slot with
          got := slot.got ||| bit j
          denied := if (es j).refuses then slot.denied ||| bit j else slot.denied }) =
      (x.core.slot.map fun slot => { slot with
        got := slot.got ||| bit j
        denied := if (es j).refuses then slot.denied ||| bit j else slot.denied }).map fun slot =>
          { slot with
            got := slot.got ||| bit i
            denied := if (es i).refuses then slot.denied ||| bit i else slot.denied } := by
    cases x.core.slot with
    | none => rfl
    | some slot =>
      simp only [Option.map_some]
      rw [or_right_comm slot.got]
      split_ifs
      · rw [or_right_comm slot.denied]
      all_goals rfl
  unfold blend
  simp only
  congr 1
  unfold blendCore
  simp only
  rw [hctl, hslot, or_right_comm x.core.got, Function.update_comm hij, add_right_comm]

/-- The entries after the replies of some inspectors are blended in. -/
theorem foldl_blend_replies (es : Index → Reply) (js : List Index) (x : View) (k : Index) :
    (js.foldl (blend c es) x).core.replies k =
      if k ∈ js then (es k).core else x.core.replies k := by
  induction js generalizing x with
  | nil => simp
  | cons i js ih =>
    rw [List.foldl_cons, ih]
    by_cases hk : k = i
    · subst hk
      simp [blend, blendCore]
    · simp [blend, blendCore, hk]

theorem foldl_blend_score (es : Index → Reply) (js : List Index) (x : View) :
    (js.foldl (blend c es) x).core.score =
        x.core.score + (js.map fun i => if 0 < c.scoreDeny then (es i).gain else 0).sum ∧
      (js.foldl (blend c es) x).core.wave = x.core.wave := by
  induction js generalizing x with
  | nil => simp
  | cons i js ih =>
    rw [List.foldl_cons, List.map_cons, List.sum_cons]
    obtain ⟨h₁, h₂⟩ := ih (blend c es x i)
    refine ⟨?_, h₂⟩
    rw [h₁, ← add_assoc]
    rfl

end Swap

end Waves
