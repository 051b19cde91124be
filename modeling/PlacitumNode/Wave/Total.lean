import PlacitumNode.Wave.Merge

/-!
# The total of a wave and the order of its replies

A score action that would take the total below zero is cut off there, so the total can depend on
which replies came before.  It does not when no inspector takes its own score below zero and the
list of actions has room for all keys: then every reply adds an amount of its own.

* `StaysUp`, `Reply.worth`: that amount;
* `merge_worth`, `accept_worth`: accounting and merging add it, whatever the state;
* `total_order_independent`: the total is the same for every order of the replies.
-/

namespace Waves

open Flags Octets Slots Run

variable {c : Conf} {s : St} {i : Index} {w : Wave}

/-- The actions never take the score of their sender below zero. -/
def StaysUp : ℤ → List Action → Prop
  | x, [] => 0 ≤ x
  | x, a :: l => 0 ≤ x ∧ StaysUp (bump x a) l

instance StaysUp.instDecidable : ∀ x l, Decidable (StaysUp x l)
  | x, [] => inferInstanceAs (Decidable (0 ≤ x))
  | x, a :: l =>
    have := StaysUp.instDecidable (bump x a) l
    inferInstanceAs (Decidable (0 ≤ x ∧ StaysUp (bump x a) l))

theorem StaysUp.head {x : ℤ} {l : List Action} (h : StaysUp x l) : 0 ≤ x := by
  cases l with
  | nil => exact h
  | cons a l => exact h.1

/-- What a reply of an inspector that is not passive adds to the total. -/
def Reply.worth (r : Reply) : ℤ := r.actions.foldl bump r.score

/-! ### Room in the list -/

/-- The keys of the list and of the actions to come, among `K`, fit the list. -/
structure Room (c : Conf) (K : Finset Key) (s : St) : Prop where
  keyed : Keyed s.actions
  keys : ∀ a ∈ s.actions, a.key ∈ K
  card : K.card ≤ c.actionsMax

variable {K : Finset Key}

/-- An action of a new key among `K` finds room. -/
theorem Room.lt (h : Room c K s) {a : Action} (ha : a.key ∈ K)
    (hfresh : a.key ∉ s.actions.map Action.key) : s.actions.length < c.actionsMax := by
  have hsub : insert a.key (s.actions.map Action.key).toFinset ⊆ K := by
    intro k hk
    rcases Finset.mem_insert.1 hk with rfl | hk
    · exact ha
    · obtain ⟨b, hb, rfl⟩ := List.mem_map.1 (List.mem_toFinset.1 hk)
      exact h.keys b hb
  have hcard := Finset.card_le_card hsub
  rw [Finset.card_insert_of_notMem (by rwa [List.mem_toFinset]), List.toFinset_card_of_nodup h.keyed,
    List.length_map] at hcard
  have := h.card
  omega

theorem Room.merge (h : Room c K s) {a : Action} (ha : a.key ∈ K) : Room c K (actionMerge c s a) := by
  have hkept := kept_actionMerge c s a
  refine ⟨h.keyed.kept hkept, fun b hb => ?_, h.card⟩
  have hmem : b.key ∈ (actionMerge c s a).actions.map Action.key := List.mem_map_of_mem hb
  have hold : ∀ k ∈ s.actions.map Action.key, k ∈ K := by
    intro k hk
    obtain ⟨b, hb, rfl⟩ := List.mem_map.1 hk
    exact h.keys b hb
  rcases hkept.keys with he | ⟨he, -⟩
  · rw [he] at hmem
    exact hold _ hmem
  · rw [he, List.mem_append, List.mem_singleton] at hmem
    rcases hmem with hmem | hmem
    · exact hold _ hmem
    · rw [hmem]
      exact ha

/-! ### One action -/

theorem Room.stores (h : Room c K s) {a : Action} (ha : a.key ∈ K) :
    ¬(s.actions.findIdx (Action.sameKey a) = s.actions.length ∧
      c.actionsMax ≤ s.actions.length) := by
  rintro ⟨hfound, hfull⟩
  have := h.lt ha (key_not_mem_of_findIdx hfound)
  omega

/-- The actions of one reply: the base is what the total holds besides the sender's own score. -/
theorem foldl_bump (l : List Action) (hn : i.val < c.ninspectors) :
    ∀ {s : St}, Room c K s → (∀ a ∈ l, a.key ∈ K ∧ a.sender = i ∧ a.passive = false) →
      (s.replies i).score ≤ s.score → StaysUp (s.replies i).score l →
      (l.foldl (actionMerge c) s).score =
          s.score - (s.replies i).score + l.foldl bump (s.replies i).score ∧
        Room c K (l.foldl (actionMerge c) s) ∧ 0 ≤ (l.foldl (actionMerge c) s).score := by
  induction l with
  | nil =>
    intro s hroom _ hbase hup
    have h0 : 0 ≤ (s.replies i).score := hup
    exact ⟨by simp, hroom, by simp only [List.foldl_nil]; omega⟩
  | cons a l ih =>
    intro s hroom hl hbase hup
    obtain ⟨hk, hi, hp⟩ := hl a List.mem_cons_self
    obtain ⟨h0, hrest⟩ := hup
    have hup := hrest.head
    obtain ⟨hscore, hown⟩ := actionMerge_bump hi hp hn (fun _ => hroom.stores hk) (by omega)
    have hstep := ih (s := actionMerge c s a) (hroom.merge hk)
      (fun b hb => hl b (List.mem_cons_of_mem a hb)) (by rw [hscore, hown]; omega)
      (by rw [hown]; exact hrest)
    obtain ⟨h₁, h₂, h₃⟩ := hstep
    refine ⟨?_, h₂, h₃⟩
    rw [List.foldl_cons, h₁, hscore, hown, List.foldl_cons]
    ring

/-! ### One reply -/

/-- A reply that arrives. -/
structure Arrival where
  index : Index
  reply : Reply
  now : ℕ

/-- The action as it is stored. -/
def Arrival.stamp (c : Conf) (wave : ℕ) (x : Arrival) (a : Action) : Action :=
  { a with sender := x.index, phase := c.phase, wave := wave, passive := false }

def Arrival.keys (x : Arrival) : List Key :=
  x.reply.actions.map fun a => { a with sender := x.index }.key

/-- A reply of the wave is recorded, accounted and merged. -/
def hear (c : Conf) (w : Wave) (s : St) (x : Arrival) : St :=
  match s.slot with
  | none => s
  | some slot => accept c s slot w x.index x.reply x.now

/-- A reply with the verdict allow or score from an inspector that is not passive, without control
actions, that never takes its own score below zero. -/
structure Fits (c : Conf) (w : Wave) (s : St) (x : Arrival) : Prop where
  known : x.index.val < c.ninspectors
  mode : has (wavePassive c s w) x.index = false
  verdict : x.reply.verdict = .allow ∨ x.reply.verdict = .score
  scored : x.reply.Scored
  control : ∀ a ∈ x.reply.actions, a.verb.control = false
  up : StaysUp x.reply.score x.reply.actions

theorem staysUp_map (f : Action → Action) (hf : ∀ a, (f a).verb = a.verb ∧ (f a).value = a.value)
    (x : ℤ) (l : List Action) : StaysUp x (l.map f) ↔ StaysUp x l := by
  induction l generalizing x with
  | nil => exact Iff.rfl
  | cons a l ih =>
    have hbump : bump x (f a) = bump x a := (foldl_bump_map f hf x [a]).1
    rw [List.map_cons]
    simp only [StaysUp, hbump]
    rw [ih]

/-- **A reply adds its worth**, whatever the state it meets. -/
theorem accept_worth (slot : SlotRec) {x : Arrival} (hroom : Room c K s) (hs : 0 ≤ s.score)
    (hx : Fits c w s x) (hkeys : ∀ k ∈ x.keys, k ∈ K) :
    (accept c s slot w x.index x.reply x.now).score = s.score + x.reply.worth ∧
      Room c K (accept c s slot w x.index x.reply x.now) ∧
      0 ≤ (accept c s slot w x.index x.reply x.now).score := by
  set t := recorded c s slot w x.index x.reply x.now with ht
  have hti : t.replies x.index = { x.reply with
      received := true, state := .answered, passive := false
      vote := has (waveVote c s w) x.index
      latency := x.now - slot.published, wave := slot.wave } := by
    simp [ht, recorded, St.setReply, hx.mode]
  have hnv : (t.replies x.index).votes = false := by
    rw [hti]
    rcases hx.verdict with h | h <;> simp [Reply.votes, h]
  have hacc := @account_eq c t x.index (by rw [hti]; rcases hx.verdict with h | h <;> simp [h])
    (by rw [hti]; exact ⟨hx.scored.range, hx.scored.only⟩)
  have hown : (t.replies x.index).ownScore = x.reply.score := by
    rw [Reply.ownScore, hnv, hti]
    rfl
  have hpas : (t.replies x.index).passive = false := by rw [hti]
  rw [hown, hpas] at hacc
  set u := account c t x.index
  have hu : u.score = s.score + x.reply.score := by
    rw [hacc]
    rfl
  have hui : (u.replies x.index).score = x.reply.score ∧ (u.replies x.index).passive = false ∧
      (u.replies x.index).actions = x.reply.actions := by
    rw [hacc]
    simp [St.setReply, hti]
  have huroom : Room c K u := by
    rw [hacc]
    exact ⟨hroom.keyed, hroom.keys, hroom.card⟩
  have hworth : (actionsMerge c u x.index slot.wave).score = s.score + x.reply.worth ∧
      Room c K (actionsMerge c u x.index slot.wave) ∧
      0 ≤ (actionsMerge c u x.index slot.wave).score := by
    have hstamp := staysUp_map (x.stamp c slot.wave) (fun _ => ⟨rfl, rfl⟩) x.reply.score
      x.reply.actions
    have hbumps := (foldl_bump_map (x.stamp c slot.wave) (fun _ => ⟨rfl, rfl⟩) x.reply.score
      x.reply.actions).1
    have hin : ∀ a ∈ x.reply.actions.map (x.stamp c slot.wave),
        a.key ∈ K ∧ a.sender = x.index ∧ a.passive = false := by
      intro a ha
      obtain ⟨b, hb, rfl⟩ := List.mem_map.1 ha
      exact ⟨hkeys _ (List.mem_map_of_mem hb), rfl, rfl⟩
    unfold actionsMerge
    simp only [hui.2.2, hui.2.1]
    by_cases hmax : c.actionsMax = 0
    · -- no keys at all: the reply has no actions
      have hnil : x.reply.actions = [] := by
        by_contra hne
        obtain ⟨a, ha⟩ := List.exists_mem_of_ne_nil _ hne
        have hk := hkeys _ (List.mem_map_of_mem ha)
        have hcard := hroom.card
        rw [hmax, Nat.le_zero, Finset.card_eq_zero] at hcard
        rw [hcard] at hk
        exact absurd hk (Finset.notMem_empty _)
      rw [if_pos hmax, Reply.worth, hnil]
      have h0 := hx.scored.range.1
      exact ⟨hu, huroom, by omega⟩
    · rw [if_neg hmax]
      have hfold := foldl_bump (x.reply.actions.map (x.stamp c slot.wave)) hx.known huroom hin
        (by rw [hui.1, hu]; omega) (by rw [hui.1]; exact hstamp.2 hx.up)
      rw [hui.1, hbumps, hu, List.foldl_map] at hfold
      obtain ⟨h₁, h₂, h₃⟩ := hfold
      exact ⟨h₁.trans (by rw [Reply.worth]; ring), h₂, h₃⟩
  exact ⟨hworth.1, ⟨hworth.2.1.keyed, hworth.2.1.keys, hworth.2.1.card⟩, hworth.2.2⟩

theorem hear_mode {x : Arrival} (hx : Fits c w s x) (j : Index) :
    has (wavePassive c (hear c w s x) w) j = has (wavePassive c s w) j := by
  unfold hear
  split
  · rfl
  · have hno : ¬x.reply.controls c j := by
      rintro ⟨a, ha, hctl⟩
      have := hx.control a ha
      rw [hctl.1] at this
      cases this
    exact (modes_accept hno).1

/-! ### All replies of the wave -/

theorem foldl_hear (l : List Arrival) :
    ∀ {s : St}, Room c K s → 0 ≤ s.score → (∀ x ∈ l, Fits c w s x ∧ ∀ k ∈ x.keys, k ∈ K) →
      s.slot.isSome = true →
      (l.foldl (hear c w) s).score = s.score + (l.map fun x => x.reply.worth).sum := by
  induction l with
  | nil =>
    intro s _ _ _ _
    simp
  | cons x l ih =>
    intro s hroom hs hl hslot
    obtain ⟨hx, hk⟩ := hl x List.mem_cons_self
    obtain ⟨slot, hsl⟩ := Option.isSome_iff_exists.1 hslot
    have hear_eq : hear c w s x = accept c s slot w x.index x.reply x.now := by
      unfold hear
      rw [hsl]
    obtain ⟨h₁, h₂, h₃⟩ := accept_worth slot hroom hs hx hk
    rw [← hear_eq] at h₁ h₂ h₃
    have hnext : ∀ y ∈ l, Fits c w (hear c w s x) y ∧ ∀ k ∈ y.keys, k ∈ K := by
      intro y hy
      obtain ⟨hfit, hky⟩ := hl y (List.mem_cons_of_mem x hy)
      exact ⟨⟨hfit.known, by rw [hear_mode hx]; exact hfit.mode, hfit.verdict, hfit.scored,
        hfit.control, hfit.up⟩, hky⟩
    have hslot' : (hear c w s x).slot.isSome = true := by
      rw [hear_eq, (frame_accept (by rcases hx.verdict with h | h <;> simp [h])).slot]
      rfl
    rw [List.foldl_cons, ih h₂ h₃ hnext hslot', h₁, List.map_cons, List.sum_cons]
    ring

/-- The keys of the list and of the replies. -/
def allKeys (s : St) (l : List Arrival) : Finset Key :=
  (s.actions.map Action.key ++ l.flatMap Arrival.keys).toFinset

theorem allKeys_perm {l l' : List Arrival} (h : l.Perm l') : allKeys s l = allKeys s l' := by
  ext k
  simp only [allKeys, List.mem_toFinset, List.mem_append, List.mem_flatMap]
  have hmem : ∀ x, x ∈ l ↔ x ∈ l' := fun x => h.mem_iff
  simp only [hmem]

/-- **The total does not depend on the order of arrival** of replies that never take their own score
below zero, while the list of actions has room for their keys. -/
theorem total_order_independent (c : Conf) (w : Wave) (s : St) (l l' : List Arrival)
    (hperm : l.Perm l') (hb : Balanced s) (hk : Keyed s.actions)
    (hroom : (allKeys s l).card ≤ c.actionsMax) (hl : ∀ x ∈ l, Fits c w s x) :
    (l.foldl (hear c w) s).score = (l'.foldl (hear c w) s).score := by
  cases hslot : s.slot with
  | none =>
    have hstay : ∀ m : List Arrival, m.foldl (hear c w) s = s := by
      intro m
      induction m with
      | nil => rfl
      | cons x m ih =>
        have hx : hear c w s x = s := by
          unfold hear
          rw [hslot]
        rw [List.foldl_cons, hx, ih]
    rw [hstay, hstay]
  | some slot =>
    have hsum : ∀ m : List Arrival, l.Perm m → (m.foldl (hear c w) s).score =
        s.score + (m.map fun x => x.reply.worth).sum := by
      intro m hm
      have hR : Room c (allKeys s l) s := by
        refine ⟨hk, fun a ha => ?_, hroom⟩
        exact List.mem_toFinset.2 (List.mem_append.2 (.inl (List.mem_map_of_mem ha)))
      refine foldl_hear m hR hb.nonneg (fun x hx => ⟨hl x (hm.mem_iff.2 hx), fun k hkx => ?_⟩)
        (by rw [hslot]; rfl)
      rw [allKeys_perm hm]
      exact List.mem_toFinset.2 (List.mem_append.2 (.inr (List.mem_flatMap.2 ⟨x, hx, hkx⟩)))
    rw [hsum l (.refl l), hsum l' hperm, (hperm.map fun x => x.reply.worth).sum_eq]

/-- The wave of both inspectors is awaited. -/
def awaitingPair : St :=
  { blank with
    state := .waiting
    waiting := true
    slot := some ⟨0, 0#64, 0#64, bit 0 ||| bit 1, 1⟩ }

/-- Inspector 0 scores 50 and takes 20 back, inspector 1 scores 10 and adds 5. -/
theorem total_order_independent_pair :
    ([⟨0, scored 50 [-20], 5⟩, ⟨1, scored 10 [5], 7⟩].foldl
        (hear pair ⟨bit 0 ||| bit 1, 0#64, 0#64, 0#64⟩) awaitingPair).score =
      ([⟨1, scored 10 [5], 7⟩, ⟨0, scored 50 [-20], 5⟩].foldl
        (hear pair ⟨bit 0 ||| bit 1, 0#64, 0#64, 0#64⟩) awaitingPair).score := by
  refine total_order_independent pair _ awaitingPair _ _ (List.Perm.swap _ _ _)
    (blank_opened.balanced.same (sameBooks_of_eq rfl rfl rfl)) (by decide) (by decide +kernel) ?_
  intro x hx
  rcases List.mem_cons.1 hx with rfl | hx
  · exact ⟨by decide, by decide +kernel, by decide, ⟨by decide, by decide⟩, by decide, by decide⟩
  · rw [List.mem_singleton.1 hx]
    exact ⟨by decide, by decide +kernel, by decide, ⟨by decide, by decide⟩, by decide, by decide⟩

/-- Inspector 0 allows and takes 50 points off, inspector 1 scores 50: the total is 50 in this order
and 0 in the other. -/
theorem total_by_arrival :
    (runFrom (step pair) blank [.start goesOut, .reply 0 (answer .allow [pointsAction (-50)]) 5,
        .reply 1 (scored 50 []) 7]).score = 50 ∧
      (runFrom (step pair) blank [.start goesOut, .reply 1 (scored 50 []) 7,
        .reply 0 (answer .allow [pointsAction (-50)]) 5]).score = 0 :=
  ⟨by decide +kernel, by decide +kernel⟩

end Waves
