import PlacitumNode.Wave.Ledger

/-!
# The list of actions

The actions of the replies are kept in a list with a limit, one entry for each key.  An action is
carried out first and stored after that; `ngx_array_push`, which makes room for a new entry, may
fail in between.

* `Keyed`: one entry for each `Action.key`;
* `mergeRound`, `mergeLoop`: the loop of `ngx_http_waf_actions_merge` with the answers of
  `ngx_array_push`;
* `Kept`: what one round may do to the list, and for which actions effects are carried out;
* `merge_keyed`: the list stays keyed and within its limit, and every round keeps to that, in the
  runs in which no `ngx_array_push` fails.
-/

namespace Waves

open Flags Octets Slots Run

/-- No two entries share a key. -/
def Keyed (l : List Action) : Prop := (l.map Action.key).Nodup

instance (l : List Action) : Decidable (Keyed l) := by unfold Keyed; infer_instance

/-! ### The loop, with `ngx_array_push` -/

/-- One round of the loop of `ngx_http_waf_actions_merge`; `pushed` is the answer of
`ngx_array_push`, and the loop is left when it fails. -/
def mergeRound (c : Conf) (s : St) (a : Action) (pushed : Bool) : St × Bool :=
  let found := s.actions.findIdx (Action.sameKey a)
  if found = s.actions.length ∧ c.actionsMax ≤ s.actions.length then (s, true)
  else
    match actionApply c s a with
    | none => (s, true)
    | some s =>
      if found < s.actions.length then ({ s with actions := s.actions.set found a }, true)
      else if pushed then ({ s with actions := s.actions ++ [a] }, true)
      else (s, false)

def mergeLoop (c : Conf) : List (Action × Bool) → St → St
  | [], s => s
  | (a, pushed) :: l, s =>
    match mergeRound c s a pushed with
    | (s, true) => mergeLoop c l s
    | (s, false) => s

/-- `ngx_http_waf_actions_merge`; `created` is the answer of `ngx_array_create`. -/
def actionsMergeWith (c : Conf) (s : St) (i : Index) (wave : ℕ) (created : Bool)
    (pushed : ℕ → Bool) : St :=
  let r := s.replies i
  if r.actions = [] ∨ c.actionsMax = 0 ∨ !created then s
  else mergeLoop c (r.actions.zipIdx.map fun x =>
    ({ x.1 with sender := i, phase := c.phase, wave := wave, passive := r.passive },
      pushed x.2)) s

variable {c : Conf} {s t : St} {a : Action}

theorem mergeRound_pushed (c : Conf) (s : St) (a : Action) :
    mergeRound c s a true = (actionMerge c s a, true) := by
  unfold mergeRound actionMerge
  simp only
  split
  · rfl
  cases actionApply c s a with
  | none => rfl
  | some t =>
    simp only
    split_ifs <;> rfl

/-- Without failures the loop merges the actions one after the other. -/
theorem mergeLoop_pushed (c : Conf) (l : List Action) (s : St) :
    mergeLoop c (l.map fun a => (a, true)) s = l.foldl (actionMerge c) s := by
  induction l generalizing s with
  | nil => rfl
  | cons a l ih =>
    rw [List.map_cons, mergeLoop, mergeRound_pushed]
    exact ih _

theorem actionsMergeWith_pushed (c : Conf) (s : St) (i : Index) (wave : ℕ) :
    actionsMergeWith c s i wave true (fun _ => true) = actionsMerge c s i wave := by
  unfold actionsMergeWith actionsMerge
  simp only [Bool.not_true, Bool.false_eq_true, or_false]
  by_cases hmax : c.actionsMax = 0
  · rw [if_pos (.inr hmax), if_pos hmax]
  by_cases hnil : (s.replies i).actions = []
  · rw [if_pos (.inl hnil), if_neg hmax, hnil]
    rfl
  rw [if_neg (by simp [hmax, hnil]), if_neg hmax]
  set stamp : Action → Action := fun a =>
    { a with sender := i, phase := c.phase, wave := wave, passive := (s.replies i).passive }
  have hmap : ((s.replies i).actions.zipIdx.map fun x => (stamp x.1, true)) =
      ((s.replies i).actions.map stamp).map fun a => (a, true) := by
    rw [List.map_map]
    have hfst : (s.replies i).actions = (s.replies i).actions.zipIdx.map Prod.fst := by
      simp
    conv_rhs => rw [hfst, List.map_map]
    rfl
  rw [hmap, mergeLoop_pushed, List.foldl_map]

/-! ### What one round does -/

/-- The state that control, audit and score actions change. -/
structure SameEffects (s t : St) : Prop where
  ctl : t.ctl = s.ctl
  connCtl : t.connCtl = s.connCtl
  ovrRequest : t.ovrRequest = s.ovrRequest
  ovrResponse : t.ovrResponse = s.ovrResponse
  score : t.score = s.score
  replies : t.replies = s.replies

theorem SameEffects.refl (s : St) : SameEffects s s := ⟨rfl, rfl, rfl, rfl, rfl, rfl⟩

/-- What a round for the action `a` may do: an entry stays or is replaced by `a` under the same key,
`a` is added, and effects are carried out only when `a` is in the list. -/
structure Kept (s : St) (a : Action) (t : St) : Prop where
  entries : ∀ j, j < s.actions.length → t.actions[j]? = s.actions[j]? ∨
    t.actions[j]? = some a ∧ (s.actions[j]?).map Action.key = some a.key
  added : ∀ j, s.actions.length ≤ j → t.actions[j]? = none ∨
    j = s.actions.length ∧ t.actions[j]? = some a ∧ a.key ∉ s.actions.map Action.key
  effects : a ∈ t.actions ∨ SameEffects s t

theorem kept_refl (s : St) (a : Action) : Kept s a s :=
  ⟨fun _ _ => .inl rfl, fun _ hj => .inl (List.getElem?_eq_none hj), .inr (.refl s)⟩

theorem key_of_findIdx {l : List Action} (h : l.findIdx (Action.sameKey a) < l.length) :
    (l[l.findIdx (Action.sameKey a)]?).map Action.key = some a.key := by
  have hfound := List.findIdx_getElem (w := h)
  rw [sameKey_iff] at hfound
  rw [List.getElem?_eq_getElem h, Option.map_some, hfound]

theorem key_not_mem_of_findIdx {l : List Action} (h : l.findIdx (Action.sameKey a) = l.length) :
    a.key ∉ l.map Action.key := by
  intro hmem
  obtain ⟨b, hb, hkey⟩ := List.mem_map.1 hmem
  have hno := List.findIdx_eq_length.1 h b hb
  rw [Bool.eq_false_iff] at hno
  exact hno ((sameKey_iff a b).2 hkey.symm)

/-- **One round**, when `ngx_array_push` does not fail. -/
theorem kept_actionMerge (c : Conf) (s : St) (a : Action) : Kept s a (actionMerge c s a) := by
  unfold actionMerge
  simp only
  split
  · exact kept_refl s a
  split
  · exact kept_refl s a
  next t h =>
    have hact := actionApply_actions h
    have hle : s.actions.findIdx (Action.sameKey a) ≤ s.actions.length := List.findIdx_le_length
    simp only [hact]
    by_cases hlt : s.actions.findIdx (Action.sameKey a) < s.actions.length
    · simp only [if_pos hlt]
      refine ⟨fun j hj => ?_, fun j hj => ?_, .inl ?_⟩
      · rcases eq_or_ne (s.actions.findIdx (Action.sameKey a)) j with rfl | hne
        · exact .inr ⟨List.getElem?_set_self hj, key_of_findIdx hlt⟩
        · exact .inl (List.getElem?_set_ne hne)
      · exact .inl (List.getElem?_eq_none (by rw [List.length_set]; exact hj))
      · exact List.mem_of_getElem? (List.getElem?_set_self hlt)
    · simp only [if_neg hlt]
      refine ⟨fun j hj => .inl (List.getElem?_append_left hj), fun j hj => ?_, .inl (by simp)⟩
      rcases Nat.eq_or_lt_of_le hj with rfl | hj
      · exact .inr ⟨rfl, by simp, key_not_mem_of_findIdx (by omega)⟩
      · exact .inl (List.getElem?_eq_none (by simp; omega))

theorem Kept.keys (h : Kept s a t) :
    t.actions.map Action.key = s.actions.map Action.key ∨
      t.actions.map Action.key = s.actions.map Action.key ++ [a.key] ∧
        a.key ∉ s.actions.map Action.key := by
  have hold : ∀ j, j < s.actions.length →
      (t.actions.map Action.key)[j]? = (s.actions.map Action.key)[j]? := by
    intro j hj
    rw [List.getElem?_map, List.getElem?_map]
    rcases h.entries j hj with he | ⟨he, hk⟩
    · rw [he]
    · rw [he, hk, Option.map_some]
  rcases h.added s.actions.length le_rfl with hnone | ⟨-, hsome, hfresh⟩
  · refine .inl (List.ext_getElem? fun j => ?_)
    rcases Nat.lt_or_ge j s.actions.length with hj | hj
    · exact hold j hj
    · have hlen := List.getElem?_eq_none_iff.1 hnone
      rw [List.getElem?_eq_none (by rw [List.length_map]; omega),
        List.getElem?_eq_none (by rw [List.length_map]; omega)]
  · refine .inr ⟨List.ext_getElem? fun j => ?_, hfresh⟩
    rcases lt_trichotomy j s.actions.length with hj | rfl | hj
    · rw [hold j hj, List.getElem?_append_left (by rwa [List.length_map])]
    · rw [List.getElem?_map, hsome, List.getElem?_append_right (by rw [List.length_map])]
      simp
    · rcases h.added j hj.le with hnone | ⟨heq, -⟩
      · rw [List.getElem?_map, hnone, List.getElem?_append_right (by rw [List.length_map]; exact hj.le)]
        simp
        omega
      · omega

theorem Keyed.kept (hk : Keyed s.actions) (h : Kept s a t) : Keyed t.actions := by
  unfold Keyed
  rcases h.keys with he | ⟨he, hfresh⟩
  · rw [he]
    exact hk
  · rw [he]
    exact List.Nodup.append hk (List.nodup_singleton _) (by simpa [List.disjoint_singleton] using hfresh)

theorem length_kept (hmax : s.actions.length ≤ c.actionsMax) :
    (actionMerge c s a).actions.length ≤ c.actionsMax := by
  unfold actionMerge
  simp only
  split
  · exact hmax
  next hroom =>
  split
  · exact hmax
  next t h =>
    have hle : s.actions.findIdx (Action.sameKey a) ≤ s.actions.length := List.findIdx_le_length
    simp only [actionApply_actions h]
    split_ifs with hlt
    · rw [List.length_set]
      exact hmax
    · rw [List.length_append, List.length_singleton]
      omega

/-! ### Runs -/

/-- What happens to the list: the entry of a reply is written, or one of its actions is merged. -/
inductive Round
  | record (i : Index) (r : Reply)
  | merge (a : Action) (pushed : Bool)

def round (c : Conf) (s : St) : Round → St
  | .record i r => s.setReply i r
  | .merge a pushed => (mergeRound c s a pushed).1

/-- The round for `a` calls `ngx_array_push`: it is a new key, there is room, and the action has not
been refused. -/
def Pushes (c : Conf) (s : St) (a : Action) : Prop :=
  a.key ∉ s.actions.map Action.key ∧ s.actions.length < c.actionsMax ∧
    (actionApply c s a).isSome = true

instance (c : Conf) (s : St) (a : Action) : Decidable (Pushes c s a) := by
  unfold Pushes; infer_instance

/-- No `ngx_array_push` fails. -/
def PushOk (c : Conf) (s : St) : Round → Prop
  | .record _ _ => True
  | .merge a pushed => Pushes c s a → pushed = true

instance (c : Conf) (s : St) : (e : Round) → Decidable (PushOk c s e)
  | .record _ _ => isTrue trivial
  | .merge a pushed => inferInstanceAs (Decidable (Pushes c s a → pushed = true))

theorem mergeRound_of_pushOk {pushed : Bool} (h : PushOk c s (.merge a pushed)) :
    mergeRound c s a pushed = (actionMerge c s a, true) := by
  rw [← mergeRound_pushed]
  cases hp : pushed with
  | true => rfl
  | false =>
    have hno : ¬Pushes c s a := fun hpush => absurd (h hpush) (by simp [hp])
    unfold mergeRound
    simp only
    split
    · rfl
    next hroom =>
    cases happ : actionApply c s a with
    | none => rfl
    | some t =>
      have hle : s.actions.findIdx (Action.sameKey a) ≤ s.actions.length := List.findIdx_le_length
      have hlt : s.actions.findIdx (Action.sameKey a) < s.actions.length := by
        by_contra hge
        have heq : s.actions.findIdx (Action.sameKey a) = s.actions.length := by omega
        exact hno ⟨key_not_mem_of_findIdx heq, by omega, by rw [happ]; rfl⟩
      simp only [actionApply_actions happ, if_pos hlt]

/-- The list is keyed and within its limit. -/
structure Listed (c : Conf) (s : St) : Prop where
  limit : s.actions.length ≤ c.actionsMax
  keyed : Keyed s.actions

theorem listed_round {e : Round} (h : Listed c s) (he : PushOk c s e) : Listed c (round c s e) := by
  cases e with
  | record i r => exact ⟨h.limit, h.keyed⟩
  | merge a pushed =>
    simp only [round, mergeRound_of_pushOk he]
    exact ⟨length_kept h.limit, h.keyed.kept (kept_actionMerge c s a)⟩

/-- **Merging is a bounded keyed update.**  In a run in which no `ngx_array_push` fails, the list
stays keyed and within its limit, and every round keeps or replaces the entries by their key and
carries out effects only for an action it stores. -/
theorem merge_keyed (c : Conf) (s : St) (es : List Round) (hs : Listed c s)
    (he : Along (round c) (PushOk c) s es) :
    Listed c (runFrom (round c) s es) ∧
      ∀ fs a pushed gs, es = fs ++ .merge a pushed :: gs →
        Kept (runFrom (round c) s fs) a (runFrom (round c) s (fs ++ [.merge a pushed])) := by
  refine ⟨invariant_run (fun _ _ => listed_round) hs he, ?_⟩
  rintro fs a pushed gs rfl
  have hok : PushOk c (runFrom (round c) s fs) (.merge a pushed) := he.at_step
  rw [runFrom_append, runFrom_cons, runFrom_nil]
  simp only [round, mergeRound_of_pushOk hok]
  exact kept_actionMerge c _ a

/-- The loop for one reply is a run of its rounds, up to a failure. -/
theorem mergeLoop_rounds (c : Conf) (l : List (Action × Bool)) (s : St) :
    ∃ l', l' <+: l ∧
      mergeLoop c l s = runFrom (round c) s (l'.map fun x => .merge x.1 x.2) := by
  induction l generalizing s with
  | nil => exact ⟨[], List.nil_prefix, rfl⟩
  | cons x l ih =>
    obtain ⟨a, pushed⟩ := x
    simp only [mergeLoop]
    split
    · next t h =>
      obtain ⟨l', hl', heq⟩ := ih t
      refine ⟨(a, pushed) :: l', List.cons_prefix_cons.2 ⟨rfl, hl'⟩, ?_⟩
      rw [heq, List.map_cons, runFrom_cons, round, h]
    · next t h =>
      refine ⟨[(a, pushed)], List.cons_prefix_cons.2 ⟨rfl, List.nil_prefix⟩, ?_⟩
      rw [List.map_singleton, runFrom_cons, runFrom_nil, round, h]

/-- Inspector 0 has replied with a score action. -/
def asked : St := round pair blank (.record 0 { scored 0 [10] with received := true })

theorem merge_keyed_pair :
    Kept asked (pointsAction 10) (runFrom (round pair) asked [.merge (pointsAction 10) true]) :=
  (merge_keyed pair asked [.merge (pointsAction 10) true] ⟨by decide, by decide⟩
    ⟨fun _ => rfl, trivial⟩).2 [] _ _ [] rfl

/-- The array cannot grow: the points are added and no entry says so. -/
theorem effect_without_entry :
    (round pair asked (.merge (pointsAction 10) false)).score = 10 ∧
      (round pair asked (.merge (pointsAction 10) false)).actions = [] ∧
      ¬Kept asked (pointsAction 10) (round pair asked (.merge (pointsAction 10) false)) := by
  have hscore : (round pair asked (.merge (pointsAction 10) false)).score = 10 := by decide +kernel
  have hnil : (round pair asked (.merge (pointsAction 10) false)).actions = [] := by decide +kernel
  refine ⟨hscore, hnil, fun h => ?_⟩
  rcases h.effects with hmem | hsame
  · rw [hnil] at hmem
    cases hmem
  · exact absurd (hscore.symm.trans hsame.score) (by decide)

end Waves
