import PlacitumNode.Wave.DenyDecided

/-!
# The modes under control actions

Three masks of a wave say how its inspectors are configured, four masks of the phase say what control
actions made of them, and four functions combine the seven masks.

* `Wave.Formed`: the configured masks are disjoint; so are those of every wave that is built;
* `controlRun`, `heard`: control actions one after another, and those that were accepted;
* `modeMask_iff`: an inspector is in the class that its last control action names;
* `modes_follow_last`: the four masks divide the wave, and each inspector is where its last accepted
  control action put it.
-/

namespace Waves

open Flags

/-! ### The configured modes -/

/-- The configured masks are disjoint subsets of the wave. -/
structure Wave.Formed (w : Wave) : Prop where
  off_le : w.off &&& w.all = w.off
  passive_le : w.passive &&& w.all = w.passive
  vote_le : w.vote &&& w.all = w.vote
  off_passive : w.off &&& w.passive = 0
  off_vote : w.off &&& w.vote = 0
  passive_vote : w.passive &&& w.vote = 0

/-- The configured mode of an inspector. -/
def Wave.mode (w : Wave) (i : Index) : Mode :=
  if has w.off i then .off else if has w.passive i then .passive
  else if has w.vote i then .vote else .active

/-! ### Histories -/

def Control.none : Control := ⟨0, 0, 0, 0⟩

/-- The control masks after a history of control actions. -/
def Control.after (h : List (Verb × Index)) : Control :=
  h.foldl (fun ctl x => controlSet ctl x.1 (bit x.2)) .none

/-- The mode that a control verb names. -/
def Verb.mode : Verb → Option Mode
  | .active => some .active
  | .passive => some .passive
  | .off => some .off
  | .vote => some .vote
  | _ => none

/-- The mode that the last action of a history on the inspector names. -/
def lastMode (h : List (Verb × Index)) (i : Index) : Option Mode :=
  ((h.filter fun x => x.2 = i).getLast?).bind fun x => x.1.mode

/-- Control actions one after another; those that are refused change nothing. -/
def controlRun (c : Conf) (s : St) (acts : List Action) : St :=
  acts.foldl (fun s a => (controlApply c s a).getD s) s

/-- The part of an action that reaches the masks of the phase. -/
def Action.hits (c : Conf) (a : Action) : List (Verb × Index) :=
  if a.addresses c.phase then (a.addressee.map fun i => (a.verb, i)).toList else []

/-- The accepted actions on the phase. -/
def heard (c : Conf) : St → List Action → List (Verb × Index)
  | _, [] => []
  | s, a :: acts =>
    match controlApply c s a with
    | none => heard c s acts
    | some t => a.hits c ++ heard c t acts

/-- The inspectors of a wave in one mode, as the four functions of the source give them. -/
def modeMask (c : Conf) (s : St) (w : Wave) : Mode → Mask
  | .active => waveGating c s w
  | .passive => wavePassive c s w
  | .off => waveOff c s w
  | .vote => waveVote c s w

/-! ### What a history leaves -/

section

variable {c : Conf} {s : St} {w : Wave} {h : List (Verb × Index)} {i : Index}

theorem after_concat (h : List (Verb × Index)) (x : Verb × Index) :
    Control.after (h ++ [x]) = controlSet (Control.after h) x.1 (bit x.2) := by
  simp [Control.after]

theorem lastMode_concat (h : List (Verb × Index)) (x : Verb × Index) (i : Index) :
    lastMode (h ++ [x]) i = if x.2 = i then x.1.mode else lastMode h i := by
  unfold lastMode
  rw [List.filter_append]
  by_cases hx : x.2 = i
  · simp [hx]
  · simp [hx]

/-- An inspector has the flag of its last mode, and no other. -/
theorem flags_after (hc : ∀ x ∈ h, x.1.control = true) (i : Index) :
    has (Control.after h).active i = decide (lastMode h i = some .active) ∧
      has (Control.after h).passive i = decide (lastMode h i = some .passive) ∧
      has (Control.after h).off i = decide (lastMode h i = some .off) ∧
      has (Control.after h).vote i = decide (lastMode h i = some .vote) := by
  induction h using List.reverseRecOn with
  | nil => simp [Control.after, Control.none, lastMode, has]
  | append_singleton h x ih =>
    have hx : x.1.control = true := hc x (by simp)
    rw [after_concat, lastMode_concat]
    by_cases heq : x.2 = i
    · obtain ⟨h₁, h₂, h₃, h₄⟩ := controlSet_self (Control.after h) x.1 x.2
      rw [← heq, h₁, h₂, h₃, h₄, if_pos rfl]
      cases hv : x.1 <;> simp_all [Verb.control, Verb.mode]
    · obtain ⟨h₁, h₂, h₃, h₄⟩ := controlSet_other (Control.after h) x.1 heq
      rw [h₁, h₂, h₃, h₄, if_neg heq]
      exact ih fun y hy => hc y (List.mem_append_left _ hy)

/-- A class holds inspectors of the wave only. -/
theorem has_all_of_modeMask {m : Mode} (hw : w.Formed) (hm : has (modeMask c s w m) i = true) :
    has w.all i = true := by
  have hoff := congrArg (has · i) hw.off_le
  simp only [has_and] at hoff
  cases m <;> simp only [modeMask, waveGating, waveMandatory, wavePassive, waveVote, waveOff, has_and,
    has_or, has_not] at hm <;> cases hall : has w.all i <;> simp_all

/-- **The last control action decides the class.** -/
theorem modeMask_iff (hw : w.Formed) (hc : ∀ x ∈ h, x.1.control = true)
    (hctl : s.ctl c.phase = Control.after h) (hi : has w.all i = true) (m : Mode) :
    has (modeMask c s w m) i = true ↔ (lastMode h i).getD (w.mode i) = m := by
  obtain ⟨h₁, h₂, h₃, h₄⟩ := flags_after hc i
  rw [← hctl] at h₁ h₂ h₃ h₄
  have hop := congrArg (has · i) hw.off_passive
  have hov := congrArg (has · i) hw.off_vote
  have hpv := congrArg (has · i) hw.passive_vote
  simp only [has_and, show (0 : Mask) = 0#64 from rfl, has_zero] at hop hov hpv
  have hmasks : has (modeMask c s w m) i = match m with
      | .active => has (waveGating c s w) i
      | .passive => has (wavePassive c s w) i
      | .off => has (waveOff c s w) i
      | .vote => has (waveVote c s w) i := by cases m <;> rfl
  rw [hmasks]
  simp only [waveGating, waveMandatory, wavePassive, waveVote, waveOff, has_and, has_or, has_not,
    h₁, h₂, h₃, h₄, hi]
  unfold Wave.mode
  rcases hlast : lastMode h i with _ | last
  · cases hO : has w.off i <;> cases hP : has w.passive i <;> cases hV : has w.vote i <;>
      simp_all <;> cases m <;> simp
  · cases last <;> cases m <;> simp

/-! ### Accepted actions -/

/-- An accepted action reaches the masks of the phase as `control_set` with its verb and addressee. -/
theorem controlApply_ctl {a : Action} {t : St} (ha : controlApply c s a = some t) :
    t.ctl c.phase = (a.hits c).foldl (fun ctl x => controlSet ctl x.1 (bit x.2)) (s.ctl c.phase) := by
  unfold controlApply at ha
  unfold Action.hits
  cases hto : a.addressee with
  | none =>
    rw [hto] at ha
    cases ha
  | some target =>
    rw [hto] at ha
    simp only at ha
    split_ifs at ha
    all_goals
      cases ha
      by_cases hp : a.addresses c.phase = true
      · simp [hp]
      · simp [hp]

theorem controlRun_ctl (acts : List Action) (hctl : s.ctl c.phase = Control.after h) :
    (controlRun c s acts).ctl c.phase = Control.after (h ++ heard c s acts) := by
  induction acts generalizing s h with
  | nil => simpa [controlRun, heard] using hctl
  | cons a acts ih =>
    simp only [controlRun, List.foldl_cons, heard]
    cases ha : controlApply c s a with
    | none => exact ih hctl
    | some t =>
      simp only [Option.getD_some]
      rw [← List.append_assoc]
      apply ih
      rw [controlApply_ctl ha, hctl, Control.after, Control.after, List.foldl_append]

theorem control_of_heard {acts : List Action} (hacts : ∀ a ∈ acts, a.verb.control = true) :
    ∀ x ∈ heard c s acts, x.1.control = true := by
  induction acts generalizing s with
  | nil => simp [heard]
  | cons a acts ih =>
    have hrest := fun b hb => hacts b (List.mem_cons_of_mem a hb)
    simp only [heard]
    cases ha : controlApply c s a with
    | none => exact ih hrest
    | some t =>
      intro x hx
      rcases List.mem_append.1 hx with hx | hx
      · unfold Action.hits at hx
        split_ifs at hx with hp
        · obtain ⟨i, -, rfl⟩ := Option.map_eq_some_iff.1 (Option.mem_toList.1 hx)
          exact hacts a List.mem_cons_self
        · cases hx
      · exact ih hrest x hx

end

/-! ### The waves that are built -/

theorem has_foldl_mode (l : List Binding) (w : Wave) (i : Index) :
    has (l.foldl Wave.add w).all i = (has w.all i || l.any fun b => b.index = i) ∧
      has (l.foldl Wave.add w).off i =
        (has w.off i || l.any fun b => b.index = i && b.mode = .off) ∧
      has (l.foldl Wave.add w).passive i =
        (has w.passive i || l.any fun b => b.index = i && b.mode = .passive) ∧
      has (l.foldl Wave.add w).vote i =
        (has w.vote i || l.any fun b => b.index = i && b.mode = .vote) := by
  induction l generalizing w with
  | nil => simp
  | cons b l ih =>
    rw [List.foldl_cons]
    obtain ⟨h₁, h₂, h₃, h₄⟩ := ih (w.add b)
    rw [h₁, h₂, h₃, h₄]
    cases hb : b.mode <;> simp [Wave.add, hb, Bool.or_assoc]

/-- The masks of a wave that is built say how its bindings are configured. -/
theorem wave_of_bindings {l : List Binding} (hl : (l.map Binding.index).Nodup) (i : Index) :
    let w := l.foldl Wave.add .empty
    (∃ b ∈ l, b.index = i ∧ has w.all i = true ∧ has w.off i = decide (b.mode = .off) ∧
      has w.passive i = decide (b.mode = .passive) ∧ has w.vote i = decide (b.mode = .vote)) ∨
    (has w.all i = false ∧ has w.off i = false ∧ has w.passive i = false ∧
      has w.vote i = false) := by
  intro w
  obtain ⟨h₁, h₂, h₃, h₄⟩ := has_foldl_mode l .empty i
  have hempty : has (0 : Mask) i = false := has_zero i
  simp only [Wave.empty, hempty, Bool.false_or] at h₁ h₂ h₃ h₄
  by_cases hb : ∃ b ∈ l, b.index = i
  · obtain ⟨b, hb, hi⟩ := hb
    have hone : ∀ m : Mode, (l.any fun b => b.index = i && b.mode = m) = decide (b.mode = m) := by
      intro m
      rw [Bool.eq_iff_iff, List.any_eq_true, decide_eq_true_iff]
      constructor
      · rintro ⟨b', hb', hand⟩
        rw [Bool.and_eq_true, decide_eq_true_iff, decide_eq_true_iff] at hand
        rw [List.inj_on_of_nodup_map hl hb hb' (hi.trans hand.1.symm)]
        exact hand.2
      · intro hm
        exact ⟨b, hb, by simp [hi, hm]⟩
    refine .inl ⟨b, hb, hi, ?_, h₂.trans (hone _), h₃.trans (hone _), h₄.trans (hone _)⟩
    refine h₁.trans (List.any_eq_true.2 ⟨b, hb, ?_⟩)
    simp [hi]
  · have hnone : ∀ p : Binding → Bool, (l.any fun b => b.index = i && p b) = false := by
      intro p
      rw [List.any_eq_false]
      intro b hmem hand
      rw [Bool.and_eq_true, decide_eq_true_iff] at hand
      exact hb ⟨b, hmem, hand.1⟩
    have hall := hnone fun _ => true
    simp only [Bool.and_true] at hall
    exact .inr ⟨h₁.trans hall, h₂.trans (hnone _), h₃.trans (hnone _), h₄.trans (hnone _)⟩

/-- **Every wave that is built is well formed**, and its inspectors have the modes of their
bindings. -/
theorem built_formed {c : Conf} {w : Wave} (hw : w ∈ c.waves) :
    w.Formed ∧ ∀ b ∈ c.inspects c.phase, has w.all b.index = true → w.mode b.index = b.mode := by
  obtain ⟨n, -, hn⟩ := List.mem_filterMap.1 hw
  have hsub := List.filter_sublist (p := fun b : Binding => b.wave == n) (l := c.inspects c.phase)
  have hmem : ∀ b ∈ (c.inspects c.phase).filter fun b => b.wave == n, b ∈ c.inspects c.phase :=
    fun b hb => hsub.subset hb
  have hl := (hsub.map Binding.index).nodup (c.once c.phase)
  split at hn
  · cases hn
  next b₀ l₀ hl₀ =>
  rw [hl₀] at hl hmem
  cases hn
  have hat := wave_of_bindings hl
  constructor
  · constructor
    all_goals
      refine ext_has fun i => ?_
      rcases hat i with ⟨b, -, -, h₁, h₂, h₃, h₄⟩ | ⟨h₁, h₂, h₃, h₄⟩
      · cases hb : b.mode <;> simp_all [show (0 : Mask) = 0#64 from rfl]
      · simp_all [show (0 : Mask) = 0#64 from rfl]
  · intro b hb hall
    rcases hat b.index with ⟨b', hb', hi, h₁, h₂, h₃, h₄⟩ | ⟨h₁, -⟩
    · obtain rfl := List.inj_on_of_nodup_map (c.once c.phase) (hmem b' hb') hb hi
      unfold Wave.mode
      rw [h₂, h₃, h₄]
      cases b'.mode <;> simp
    · rw [h₁] at hall
      cases hall

/-! ### The result -/

/-- **The modes follow the last control action.**  After any control actions on a phase, the four
masks divide the wave, and an inspector of the wave is in the class named by the last accepted action
on it in the phase, or in its configured mode.  `prior` are the actions of earlier frames. -/
theorem modes_follow_last (c : Conf) (s : St) (w : Wave) (hw : w.Formed)
    (prior : List (Verb × Index)) (hprior : ∀ x ∈ prior, x.1.control = true)
    (hctl : s.ctl c.phase = Control.after prior) (acts : List Action)
    (hacts : ∀ a ∈ acts, a.verb.control = true) :
    let t := controlRun c s acts
    waveOff c t w ||| wavePassive c t w ||| waveVote c t w ||| waveGating c t w = w.all ∧
      (∀ m m', m ≠ m' → modeMask c t w m &&& modeMask c t w m' = 0) ∧
      ∀ i, has w.all i = true → ∀ m, has (modeMask c t w m) i = true ↔
        (lastMode (prior ++ heard c s acts) i).getD (w.mode i) = m := by
  intro t
  have hall : ∀ x ∈ prior ++ heard c s acts, x.1.control = true := by
    intro x hx
    rcases List.mem_append.1 hx with hx | hx
    · exact hprior x hx
    · exact control_of_heard hacts x hx
  have hclass : ∀ i, has w.all i = true → ∀ m, has (modeMask c t w m) i = true ↔
      (lastMode (prior ++ heard c s acts) i).getD (w.mode i) = m := fun i hi m =>
    modeMask_iff hw hall (controlRun_ctl acts hctl) hi m
  refine ⟨?_, ?_, hclass⟩
  · refine ext_has fun i => ?_
    have hin : ∀ m, has (modeMask c t w m) i = true → has w.all i = true := fun m =>
      has_all_of_modeMask hw
    rw [Bool.eq_iff_iff]
    simp only [has_or, Bool.or_eq_true]
    constructor
    · rintro (((h | h) | h) | h)
      · exact hin .off h
      · exact hin .passive h
      · exact hin .vote h
      · exact hin .active h
    · intro hi
      cases hlast : (lastMode (prior ++ heard c s acts) i).getD (w.mode i) with
      | active => exact .inr ((hclass i hi .active).2 hlast)
      | passive => exact .inl (.inl (.inr ((hclass i hi .passive).2 hlast)))
      | off => exact .inl (.inl (.inl ((hclass i hi .off).2 hlast)))
      | vote => exact .inl (.inr ((hclass i hi .vote).2 hlast))
  · intro m m' hne
    refine ext_has fun i => ?_
    rw [show (0 : Mask) = 0#64 from rfl, has_zero, has_and, Bool.and_eq_false_iff]
    by_contra hcon
    rw [not_or, Bool.not_eq_false, Bool.not_eq_false] at hcon
    have hi := has_all_of_modeMask hw hcon.1
    exact hne (((hclass i hi m).1 hcon.1).symm.trans ((hclass i hi m').1 hcon.2))

/-- The wave of the two inspectors of `pair`. -/
def twoWave : Wave := ⟨3#64, 0#64, 0#64, 0#64⟩

/-- Inspector 1 is switched off, then left to vote; inspector 0 stays active. -/
theorem modes_follow_last_pair :
    let t := controlRun pair blank [controlAction .off 1, controlAction .vote 1]
    has (modeMask pair t twoWave .vote) 1 = true ∧
      has (modeMask pair t twoWave .active) 0 = true := by
  intro t
  have hw : twoWave.Formed := ⟨by decide, by decide, by decide, by decide, by decide, by decide⟩
  obtain ⟨-, -, hclass⟩ := modes_follow_last pair blank twoWave hw [] (by simp) (by decide)
    [controlAction .off 1, controlAction .vote 1] (by decide)
  exact ⟨(hclass 1 (by decide) .vote).2 (by decide), (hclass 0 (by decide) .active).2 (by decide)⟩

end Waves
