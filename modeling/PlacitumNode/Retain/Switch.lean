import PlacitumNode.Retain.Once

/-!
# Changing and closing the pool (`agent/internal/retain/switch.go`)

`Switch` hands every record to the current pool, which `Apply` replaces and `Close` closes.  A call
of `Handle` loads the pool in one step and puts the record in another.

* `Switch`, `Act`, `Move`: the state and the steps of all goroutines;
* `Calm`: a step that does not close a channel a call is about to use, does not start a call on a
  closed pool, and does not let `Close` return while a timer is moving a record;
* `Pool.Quiet`: what a pool that is being closed still holds;
* `SwitchInv`, `Move.inv`: the invariant of the calm runs;
* `close_loses_nothing`: they neither send on a closed channel nor lose a record.
-/

namespace Retain

variable (dec : ℕ → Decision)

/-- Whether `Pool.degrade` has something to clean up. -/
def orphaned (d : Decision) : Bool :=
  match parseStore d.raw with
  | none => false
  | some s => (counted d s).any s.locate

/-- Whether `Pool.Handle` sends the record on the queue. -/
def Conf.queues (cf : Conf) (d : Decision) : Bool := cf.enabled && !d.unarchived

/-- Whether a pool without an archive sends on the channel for the cleanup. -/
def Conf.sweeps (cf : Conf) (d : Decision) : Bool := !cf.enabled && !d.unarchived && orphaned d

/-- `Pool.Handle` on a pool that may be closed; `none` is a send on a closed channel, of the queue or
of the channel for the cleanup. -/
def Pool.put (cf : Conf) (p : Pool) (r : ℕ) : Option Pool :=
  if cf.queues (dec r) ∧ p.stage ≠ .opened then none
  else if cf.sweeps (dec r) ∧ p.stage = .closed then none
  else some (p.handle cf dec r)

/-- `Switch`: the pools there ever were, the current one, the calls of `Handle` that have loaded a
pool, the pools that are closed in the background, and how far `Close` is.  `started` are the calls
there ever were, `early` those that had returned when `Close` was called. -/
structure Switch where
  pools : List (Conf × Pool)
  cur : ℕ
  calls : List (ℕ × ℕ)
  gone : List ℕ
  closed : Bool
  closing : Option ℕ
  returned : Bool
  panicked : Bool
  started : List ℕ
  early : List ℕ

/-- `NewSwitch` -/
def Switch.new (cf : Conf) : Switch :=
  { pools := [(cf, Pool.new)], cur := 0, calls := [], gone := [], closed := false, closing := none
    returned := false, panicked := false, started := [], early := [] }

/-- The steps: of a call of `Handle`, of the goroutines of a pool, of the one that closes its
channels, of `Apply` and of `Close`. -/
inductive Act
  | load (r : ℕ)
  | put (r i : ℕ)
  | inner (i : ℕ)
  | closeJobs (i : ℕ)
  | closeSweep (i : ℕ)
  | apply
  | close
  | ret

def Switch.setPool (s : Switch) (i : ℕ) (cf : Conf) (p : Pool) : Switch :=
  { s with pools := s.pools.set i (cf, p) }

/-- The second half of `Switch.Handle`. -/
def Switch.put (s : Switch) (r i : ℕ) (calls : List (ℕ × ℕ)) (cf : Conf) (p : Pool) : Switch :=
  match p.put dec cf r with
  | some p => { s.setPool i cf p with calls := calls }
  | none => { s with panicked := true, calls := calls }

inductive Move : Switch → Act → Switch → Prop
  | load {s : Switch} {r : ℕ} (hr : r ∉ s.started) :
      Move s (.load r) { s with calls := s.calls ++ [(r, s.cur)], started := s.started ++ [r] }
  | put {s : Switch} {r i : ℕ} {l₁ l₂ : List (ℕ × ℕ)} {cf : Conf} {p : Pool}
      (hc : s.calls = l₁ ++ (r, i) :: l₂) (hp : s.pools[i]? = some (cf, p)) :
      Move s (.put r i) (s.put dec r i (l₁ ++ l₂) cf p)
  | inner {s : Switch} {i : ℕ} {cf : Conf} {p p' : Pool} (hp : s.pools[i]? = some (cf, p))
      (hs : Step cf dec p p') (hh : p'.handled = p.handled)
      (ho : p'.stage = .opened ↔ p.stage = .opened) (hc : p'.stage = .closed ↔ p.stage = .closed) :
      Move s (.inner i) (s.setPool i cf p')
  | closeJobs {s : Switch} {i : ℕ} {cf : Conf} {p : Pool} (hp : s.pools[i]? = some (cf, p))
      (hi : i ∈ s.gone ∨ s.closing = some i) (ho : p.stage = .opened) :
      Move s (.closeJobs i) (s.setPool i cf { p with stage := .draining })
  | closeSweep {s : Switch} {i : ℕ} {cf : Conf} {p : Pool} (hp : s.pools[i]? = some (cf, p))
      (ho : p.stage = .flushing []) (hc : ∀ f ∈ p.flushes, f.owner ≠ .closer) :
      Move s (.closeSweep i) (s.setPool i cf { p with stage := .closed })
  | apply {s : Switch} (cf : Conf) (hc : s.closed = false) :
      Move s .apply
        { s with pools := s.pools ++ [(cf, Pool.new)], cur := s.pools.length, gone := s.cur :: s.gone }
  | close {s : Switch} (hc : s.closed = false) :
      Move s .close
        { s with
          closed := true, closing := some s.cur
          early := s.started.filter fun r => r ∉ s.calls.map Prod.fst }
  | ret {s : Switch} {i : ℕ} (hc : s.closing = some i)
      (hi : ∀ x, s.pools[i]? = some x → x.2.stage = .closed)
      (hg : ∀ j ∈ s.gone, ∀ x, s.pools[j]? = some x → x.2.stage = .closed) :
      Move s .ret { s with returned := true }

/-- The record can be put into the pool. -/
def Takes (x : Conf × Pool) (r : ℕ) : Prop :=
  (x.1.queues (dec r) → x.2.stage = .opened) ∧ (x.1.sweeps (dec r) → x.2.stage ≠ .closed)

/-- The condition on a step: a call of `Handle` does not load a pool whose channel for its record is
closed; a channel is not closed while a call that has loaded the pool is about to send on it; `Close`
does not return while a timer is moving one of the records it has to wait for. -/
def Calm (s : Switch) : Act → Prop
  | .load r => ∀ x, s.pools[s.cur]? = some x → Takes dec x r
  | .closeJobs i => ∀ x, s.pools[i]? = some x → ∀ c ∈ s.calls, c.2 = i → ¬ x.1.queues (dec c.1)
  | .closeSweep i => ∀ x, s.pools[i]? = some x → ∀ c ∈ s.calls, c.2 = i → ¬ x.1.sweeps (dec c.1)
  | .ret => ∀ x ∈ s.pools, ∀ f ∈ x.2.flushes, f.owner = .timer →
      ∀ r ∈ s.early, r ∉ f.items ∧ f.emits ≠ some r
  | _ => True

/-- The states that calm steps reach. -/
def CalmRun (cf : Conf) (s : Switch) : Prop :=
  Relation.ReflTransGen (fun s s' => ∃ a, Move dec s a s' ∧ Calm dec s a) (Switch.new cf) s

/-- How often a record has been emitted, by any pool. -/
def Switch.outs (s : Switch) (r : ℕ) : ℕ := (s.pools.map fun x => x.2.outs r).sum

/-! ### A pool that is being closed -/

variable {dec}
variable {cf : Conf} {p p' : Pool} {r : ℕ} {k : Kind}

/-- The workers are gone, and the baskets are empty but for those of `ks`. -/
structure Pool.Drained (p : Pool) (ks : List Kind) : Prop where
  jobs : p.jobs = []
  tasks : p.tasks = []
  worker : ∀ f ∈ p.flushes, f.owner.isWorker = false
  items : ∀ k, k ∉ ks → p.items k = []

/-- What a pool still holds, by the stage of its `Close`; only a timer flushes after it. -/
def Pool.Quiet (p : Pool) : Prop :=
  (∀ ks, p.stage = .flushing ks → p.Drained ks) ∧
    (p.stage = .closed → p.Drained [] ∧ ∀ f ∈ p.flushes, f.owner = .timer)

theorem quiet_of_stage (h : p.stage = .opened ∨ p.stage = .draining) : p.Quiet := by
  refine ⟨fun ks hks => ?_, fun hc => ?_⟩
  · rcases h with h | h <;> rw [h] at hks <;> cases hks
  · rcases h with h | h <;> rw [h] at hc <;> cases hc

/-- A step that adds nothing to the queue, the workers and the baskets. -/
theorem Pool.Quiet.shrink (h : p.Quiet) (hs : p'.stage = p.stage) (hj : p'.jobs = p.jobs)
    (ht : p'.tasks = p.tasks) (hi : ∀ k, p.items k = [] → p'.items k = [])
    (hf : ∀ g ∈ p'.flushes, ∃ f ∈ p.flushes, g.owner = f.owner) : p'.Quiet := by
  have hdrained : ∀ ks, p.Drained ks → p'.Drained ks := by
    intro ks hd
    refine ⟨hj.trans hd.jobs, ht.trans hd.tasks, fun g hg => ?_, fun k hk => hi k (hd.items k hk)⟩
    obtain ⟨f, hfm, ho⟩ := hf g hg
    rw [ho]
    exact hd.worker f hfm
  refine ⟨fun ks hks => hdrained ks (h.1 ks (hs.symm.trans hks)), fun hc => ?_⟩
  obtain ⟨hd, htimer⟩ := h.2 (hs.symm.trans hc)
  refine ⟨hdrained [] hd, fun g hg => ?_⟩
  obtain ⟨f, hfm, ho⟩ := hf g hg
  rw [ho]
  exact htimer f hfm

/-- A flush goes on. -/
theorem Pool.Quiet.exchange {f g : Flush} {l₁ l₂ : List Flush} (h : p.Quiet)
    (hf : p.flushes = l₁ ++ f :: l₂) (hg : p'.flushes = l₁ ++ g :: l₂) (ho : g.owner = f.owner)
    (hs : p'.stage = p.stage) (hj : p'.jobs = p.jobs) (ht : p'.tasks = p.tasks)
    (hi : p'.items = p.items) : p'.Quiet := by
  refine h.shrink hs hj ht (fun k hk => (congrFun hi k).trans hk) fun x hx => ?_
  rw [hg] at hx
  rcases mem_exchange (f := f) hx with rfl | hx
  · exact ⟨f, by rw [hf]; exact List.mem_append_right _ List.mem_cons_self, ho⟩
  · exact ⟨x, hf ▸ hx, rfl⟩

/-- A pool that has something in its queue or at its workers has not come to its baskets. -/
theorem Pool.Quiet.busy (h : p.Quiet) (hb : p.jobs ≠ [] ∨ p.tasks ≠ []) (hs : p'.stage = p.stage) :
    p'.Quiet := by
  refine ⟨fun ks hks => ?_, fun hc => ?_⟩
  · have hd := h.1 ks (hs.symm.trans hks)
    exact (hb.elim (· hd.jobs) (· hd.tasks)).elim
  · have hd := (h.2 (hs.symm.trans hc)).1
    exact (hb.elim (· hd.jobs) (· hd.tasks)).elim

theorem Pool.Drained.cons {ks : List Kind} (h : p.Drained ks) (k : Kind) : p.Drained (k :: ks) :=
  { h with items := fun k' hk' => h.items k' fun hm => hk' (List.mem_cons_of_mem _ hm) }

/-- A basket that is flushed is empty. -/
theorem Pool.Drained.flushAll {ks : List Kind} {owner : Owner} (h : p.Drained (k :: ks))
    (ho : owner.isWorker = false) : (p.flushAll k owner).Drained ks := by
  have hother : ∀ k', k' ∉ ks → k' ≠ k → p.items k' = [] := by
    intro k' hk' hne
    exact h.items k' fun hm => (List.mem_cons.1 hm).elim hne hk'
  unfold Pool.flushAll
  split
  · next hk =>
    refine { h with items := fun k' hk' => ?_ }
    by_cases hne : k' = k
    · rw [hne, hk]
    · exact hother k' hk' hne
  · refine ⟨h.jobs, h.tasks, fun f hf => ?_, fun k' hk' => ?_⟩
    · rcases List.mem_cons.1 hf with rfl | hf
      · exact ho
      · exact h.worker f hf
    · by_cases hne : k' = k
      · rw [hne]
        exact Function.update_self _ _ _
      · exact (Function.update_of_ne hne _ _).trans (hother k' hk' hne)

theorem Pool.flushAll_stage (p : Pool) (k : Kind) (owner : Owner) :
    (p.flushAll k owner).stage = p.stage := by
  unfold Pool.flushAll
  split <;> rfl

theorem Pool.Quiet.timer (h : p.Quiet) (k : Kind) : (p.timer k).Quiet := by
  have hstage : (p.timer k).stage = p.stage := p.flushAll_stage k .timer
  refine ⟨fun ks hks => ?_, fun hc => ?_⟩
  · exact ((h.1 ks (hstage.symm.trans hks)).cons k).flushAll rfl
  · obtain ⟨hd, ht⟩ := h.2 (hstage.symm.trans hc)
    have hp : p.timer k = p := if_pos (hd.items k List.not_mem_nil)
    rw [hp]
    exact ⟨hd, ht⟩

theorem Pool.Quiet.leave {f : Flush} {l₁ l₂ : List Flush} (h : p.Quiet)
    (hf : p.flushes = l₁ ++ f :: l₂) : (p.leave f l₁ l₂).Quiet := by
  have hfm : f ∈ p.flushes := by
    rw [hf]
    exact List.mem_append_right _ List.mem_cons_self
  have hless : ({ p with flushes := l₁ ++ l₂ } : Pool).Quiet := by
    refine h.shrink rfl rfl rfl (fun _ hk => hk) fun g hg => ⟨g, ?_, rfl⟩
    rw [hf]
    exact (List.sublist_append_right [f] l₂ |>.append_left l₁).subset hg
  unfold Pool.leave
  cases ho : f.owner with
  | worker r ks =>
    have hw : f.owner.isWorker = true := by
      rw [ho]
      rfl
    refine ⟨fun ks' hks => ?_, fun hc => ?_⟩
    · exact absurd (hw.symm.trans ((h.1 ks' hks).worker f hfm)) (by simp)
    · exact absurd (hw.symm.trans ((h.2 hc).1.worker f hfm)) (by simp)
  | timer => exact hless
  | closer => exact hless

theorem quiet_drained (hj : p.jobs = []) (hw : p.busy = 0) :
    ({ p with stage := .flushing kinds } : Pool).Quiet := by
  obtain ⟨ht, hf⟩ := Nat.add_eq_zero_iff.1 hw
  refine ⟨fun ks hks => ?_, fun hc => by cases hc⟩
  obtain rfl := Stage.flushing.inj hks
  refine ⟨hj, List.eq_nil_of_length_eq_zero ht, fun f hfm => ?_, fun k hk => absurd (mem_kinds k) hk⟩
  exact Bool.eq_false_iff.2 (List.countP_eq_zero.1 hf f hfm)

theorem Pool.Quiet.shutOne {ks : List Kind} (h : p.Quiet) (ho : p.stage = .flushing (k :: ks)) :
    (p.shutOne k ks).Quiet := by
  have hd := h.1 _ ho
  have hstage : (p.shutOne k ks).stage = .flushing ks := Pool.flushAll_stage _ k .closer
  refine ⟨fun ks' hks => ?_, fun hc => by rw [hstage] at hc; cases hc⟩
  obtain rfl := Stage.flushing.inj (hstage.symm.trans hks)
  have hd' : ({ p with shut := Function.update p.shut k true, stage := .flushing ks } :
      Pool).Drained (k :: ks) := ⟨hd.jobs, hd.tasks, hd.worker, hd.items⟩
  exact hd'.flushAll rfl

/-- The closer is through with the baskets: what still runs is a timer. -/
theorem Pool.Quiet.closed (h : p.Quiet) (ho : p.stage = .flushing [])
    (hc : ∀ f ∈ p.flushes, f.owner ≠ .closer) : ({ p with stage := .closed } : Pool).Quiet := by
  have hd := h.1 _ ho
  refine ⟨fun ks hks => (Stage.noConfusion hks), fun _ => ⟨⟨hd.jobs, hd.tasks, hd.worker, hd.items⟩,
    fun f hf => ?_⟩⟩
  cases howner : f.owner with
  | worker r ks =>
    have := hd.worker f hf
    rw [howner] at this
    cases this
  | timer => rfl
  | closer => exact absurd howner (hc f hf)

theorem Pool.handle_stage (cf : Conf) (dec : ℕ → Decision) (p : Pool) (r : ℕ) :
    (p.handle cf dec r).stage = p.stage := by
  unfold Pool.handle
  simp only
  split
  · rfl
  · split
    · rfl
    · split <;> rfl

theorem quiet_step (h : p.Quiet) (hs : Step cf dec p p') : p'.Quiet := by
  cases hs with
  | handle r hr ho => exact quiet_of_stage (.inl ((p.handle_stage cf dec r).trans ho))
  | take hj hw =>
    refine h.busy (.inl (by rw [hj]; simp)) ?_
    unfold Pool.taken
    split
    · rfl
    · split <;> rfl
  | emitTask ht => exact h.busy (.inr (by rw [ht]; simp)) rfl
  | push ht =>
    refine h.busy (.inr (by rw [ht]; simp)) ?_
    unfold Pool.push
    split
    · rfl
    · split <;> rfl
  | pushed ht => exact h.busy (.inr (by rw [ht]; simp)) rfl
  | timer k _ => exact h.timer k
  | enter hf hlock => exact h.exchange hf rfl rfl rfl rfl rfl rfl
  | move a hf hin hi he ho hq => exact h.exchange hf rfl rfl rfl rfl rfl rfl
  | complete hf hi he ho hq => exact h.exchange hf rfl rfl rfl rfl rfl rfl
  | emit hf he hq => exact h.exchange hf rfl rfl rfl rfl rfl rfl
  | leave hf hi he => exact h.leave hf
  | closeJobs ho => exact quiet_of_stage (.inr rfl)
  | drained ho hj hw => exact quiet_drained hj hw
  | shut ho hc => exact h.shutOne ho
  | closed ho hc => exact h.closed ho hc

/-! ### What has been emitted stays emitted -/

theorem Pool.emit_outs (p : Pool) (r : ℕ) (rec : Record) (r' : ℕ) :
    (p.emit r rec).outs r' = p.outs r' + [r].count r' := by
  simp only [Pool.outs, Pool.emit, List.map_append, List.map_cons, List.map_nil, List.count_append]

theorem Pool.flushAll_out (p : Pool) (k : Kind) (owner : Owner) :
    (p.flushAll k owner).out = p.out := by
  unfold Pool.flushAll
  split <;> rfl

theorem handle_outs_le (cf : Conf) (dec : ℕ → Decision) (p : Pool) (r r' : ℕ) :
    p.outs r' ≤ (p.handle cf dec r).outs r' := by
  have hemit : ∀ turned rec, p.outs r' ≤
      ({ p with handled := p.handled ++ [r], turned := turned }.emit r rec).outs r' := by
    intro turned rec
    rw [Pool.emit_outs]
    exact Nat.le_add_right _ _
  unfold Pool.handle
  simp only
  split
  · exact hemit _ _
  · split
    · exact hemit _ _
    · split
      · exact le_rfl
      · exact hemit _ _

theorem step_outs_le (hs : Step cf dec p p') (r' : ℕ) : p.outs r' ≤ p'.outs r' := by
  have heq : p'.out = p.out → p.outs r' ≤ p'.outs r' := by
    intro h
    rw [Pool.outs, Pool.outs, h]
  cases hs with
  | handle r hr ho => exact handle_outs_le cf dec p r r'
  | take hj hw =>
    refine heq ?_
    unfold Pool.taken
    split
    · rfl
    · split <;> rfl
  | emitTask ht =>
    rw [Pool.emit_outs]
    exact Nat.le_add_right _ _
  | push ht =>
    refine heq ?_
    unfold Pool.push
    split
    · rfl
    · split <;> rfl
  | pushed ht => exact le_rfl
  | timer k _ => exact heq (p.flushAll_out k .timer)
  | enter hf hlock => exact le_rfl
  | move a hf hin hi he ho hq => exact le_rfl
  | complete hf hi he ho hq => exact le_rfl
  | emit hf he hq =>
    rw [Pool.emit_outs]
    exact Nat.le_add_right _ _
  | @leave f l₁ l₂ hf hi he =>
    refine heq ?_
    unfold Pool.leave
    cases f.owner <;> rfl
  | closeJobs ho => exact le_rfl
  | drained ho hj hw => exact le_rfl
  | shut ho hc => exact heq (Pool.flushAll_out _ _ .closer)
  | closed ho hc => exact le_rfl

/-- The records that no timer is moving have been emitted by a pool that is closed. -/
theorem Inv.outs_of_closed (h : Inv dec p) (hq : p.Quiet) (hc : p.stage = .closed)
    (hr : ∀ f ∈ p.flushes, f.owner = .timer → r ∉ f.items ∧ f.emits ≠ some r) :
    p.outs r = p.handled.count r := by
  obtain ⟨hd, htimer⟩ := hq.2 hc
  have hsum : ∀ g : Flush → ℕ, (∀ f ∈ p.flushes, g f = 0) → (p.flushes.map g).sum = 0 := by
    intro g hg
    rw [List.sum_eq_zero_iff]
    intro n hn
    obtain ⟨f, hf, rfl⟩ := List.mem_map.1 hn
    exact hg f hf
  refine h.outs_eq (by rw [hd.jobs]; rfl) (fun k => ?_) ?_
  · rw [Pool.tok, hd.tasks, hd.items k List.not_mem_nil, hsum]
    · rfl
    · intro f hf
      have ht := htimer f hf
      rw [Flush.tok, ht, List.count_eq_zero_of_not_mem (hr f hf ht).1]
      simp only [ite_self, Owner.tok]
  · rw [Pool.leaving, hd.tasks, hsum]
    · rfl
    · intro f hf
      exact if_neg (hr f hf (htimer f hf)).2

/-! ### The runs -/

variable {s s' : Switch} {a : Act} {i : ℕ}

/-- How often a record was given to a pool. -/
def Switch.handles (s : Switch) (r : ℕ) : ℕ := (s.pools.map fun x => x.2.handled.count r).sum

structure SwitchInv (dec : ℕ → Decision) (s : Switch) : Prop where
  pools : ∀ x ∈ s.pools, Inv dec x.2 ∧ x.2.Quiet
  cur : s.cur < s.pools.length
  every : ∀ i < s.pools.length, i = s.cur ∨ i ∈ s.gone
  closing : ∀ i, s.closing = some i → i = s.cur ∧ s.closed = true
  calls : ∀ c ∈ s.calls, ∃ x, s.pools[c.2]? = some x ∧ Takes dec x c.1
  count : ∀ r, (s.calls.map Prod.fst).count r + s.handles r = s.started.count r
  nodup : s.started.Nodup
  early : ∀ r ∈ s.early, r ∈ s.started ∧ r ∉ s.calls.map Prod.fst
  sound : s.panicked = false
  closed : s.returned = true → s.closed = true
  done : s.returned = true → ∀ r ∈ s.early, 1 ≤ s.outs r

theorem switchInv_new (dec : ℕ → Decision) (cf : Conf) : SwitchInv dec (Switch.new cf) where
  pools := by
    intro x hx
    rw [List.mem_singleton.1 hx]
    exact ⟨inv_new, quiet_of_stage (.inl rfl)⟩
  cur := Nat.zero_lt_one
  every := fun i hi => .inl (Nat.lt_one_iff.1 hi)
  closing := by rintro i ⟨⟩
  calls := by rintro c ⟨⟩
  count := fun r => rfl
  nodup := List.nodup_nil
  early := by rintro r ⟨⟩
  sound := rfl
  closed := by rintro ⟨⟩
  done := by rintro ⟨⟩

/-- A sum over the pools after one of them has changed. -/
theorem sum_set {α : Type*} (g : α → ℕ) {l : List α} {x : α} (y : α) (hx : l[i]? = some x) :
    ((l.set i y).map g).sum + g x = (l.map g).sum + g y := by
  obtain ⟨hi, hx⟩ := List.getElem?_eq_some_iff.1 hx
  obtain ⟨l₁, l₂, hl, -, hset⟩ := List.exists_of_set hi
  rw [hx] at hl
  rw [hset, hl, sum_map_split, sum_map_split]
  omega

/-- A pool has changed, and the calls that are about to put can still do so. -/
theorem SwitchInv.change {calls : List (ℕ × ℕ)} (h : SwitchInv dec s)
    (hp : s.pools[i]? = some (cf, p)) (hinv : Inv dec p') (hq : p'.Quiet)
    (hout : ∀ r, p.outs r ≤ p'.outs r) (hsub : ∀ c ∈ calls, c ∈ s.calls)
    (ht : ∀ c ∈ calls, c.2 = i → Takes dec (cf, p) c.1 → Takes dec (cf, p') c.1)
    (hc : ∀ r, (calls.map Prod.fst).count r + p'.handled.count r =
      (s.calls.map Prod.fst).count r + p.handled.count r) :
    SwitchInv dec { s.setPool i cf p' with calls := calls } where
  pools := by
    intro x hx
    rcases List.mem_or_eq_of_mem_set hx with hx | rfl
    · exact h.pools x hx
    · exact ⟨hinv, hq⟩
  cur := h.cur.trans_eq List.length_set.symm
  every := fun j hj => h.every j (hj.trans_eq List.length_set)
  closing := h.closing
  calls := by
    intro c hcm
    obtain ⟨x, hx, htakes⟩ := h.calls c (hsub c hcm)
    have hlt := (List.getElem?_eq_some_iff.1 hp).1
    change ∃ y, (s.pools.set i (cf, p'))[c.2]? = some y ∧ _
    by_cases hci : c.2 = i
    · rw [hci, hp] at hx
      obtain rfl := Option.some.inj hx
      rw [hci, List.getElem?_set_self hlt]
      exact ⟨_, rfl, ht c hcm hci htakes⟩
    · rw [List.getElem?_set_ne (Ne.symm hci)]
      exact ⟨x, hx, htakes⟩
  count := by
    intro r
    have hsum := sum_set (fun x : Conf × Pool => x.2.handled.count r) (cf, p') hp
    dsimp only at hsum
    have hcount := h.count r
    have hcr := hc r
    simp only [Switch.handles] at hcount
    simp only [Switch.handles, Switch.setPool]
    omega
  nodup := h.nodup
  early := by
    intro r hr
    refine ⟨(h.early r hr).1, fun hm => (h.early r hr).2 ?_⟩
    obtain ⟨c, hcm, rfl⟩ := List.mem_map.1 hm
    exact List.mem_map_of_mem (hsub c hcm)
  sound := h.sound
  closed := h.closed
  done := by
    intro hret r hr
    have hsum := sum_set (fun x : Conf × Pool => x.2.outs r) (cf, p') hp
    dsimp only at hsum
    have hdone := h.done hret r hr
    have hr' := hout r
    simp only [Switch.outs] at hdone
    simp only [Switch.outs, Switch.setPool]
    omega

/-- A pool takes a step of its own. -/
theorem SwitchInv.setPool (h : SwitchInv dec s) (hp : s.pools[i]? = some (cf, p))
    (hs : Step cf dec p p') (hh : p'.handled = p.handled)
    (ht : ∀ c ∈ s.calls, c.2 = i → Takes dec (cf, p) c.1 → Takes dec (cf, p') c.1) :
    SwitchInv dec (s.setPool i cf p') := by
  obtain ⟨hinv, hq⟩ := h.pools _ (List.mem_of_getElem? hp)
  have hcalls : ∀ c ∈ s.calls, c ∈ s.calls := fun _ hc => hc
  exact h.change hp (inv_step hinv hs) (quiet_step hq hs) (step_outs_le hs) hcalls ht
    (fun r => by rw [hh])

theorem Pool.Quiet.handle (h : p.Quiet) (ht : cf.queues (dec r) → p.stage = .opened) :
    (p.handle cf dec r).Quiet := by
  by_cases ho : p.stage = .opened
  · exact quiet_of_stage (.inl ((p.handle_stage cf dec r).trans ho))
  · have hemit : ∀ turned rec,
        ({ p with handled := p.handled ++ [r], turned := turned }.emit r rec).Quiet := fun turned rec =>
      h.shrink rfl rfl rfl (fun _ hk => hk) fun g hg => ⟨g, hg, rfl⟩
    have hqueue : ¬ cf.queues (dec r) := fun hq => ho (ht hq)
    simp only [Conf.queues, Bool.and_eq_true, Bool.not_eq_true'] at hqueue
    unfold Pool.handle
    simp only
    split
    · exact hemit _ _
    · next hu =>
      rw [if_pos]
      · exact hemit _ _
      · simpa [hu] using hqueue

theorem Pool.handle_handled (cf : Conf) (dec : ℕ → Decision) (p : Pool) (r : ℕ) :
    (p.handle cf dec r).handled = p.handled ++ [r] := by
  unfold Pool.handle
  simp only
  split
  · rfl
  · split
    · rfl
    · split <;> rfl

theorem put_of_takes (h : Takes dec (cf, p) r) : p.put dec cf r = some (p.handle cf dec r) := by
  obtain ⟨hq, hsw⟩ := h
  unfold Pool.put
  rw [if_neg fun hc => hc.2 (hq hc.1), if_neg fun hc => hsw hc.1 hc.2]

theorem SwitchInv.put {l₁ l₂ : List (ℕ × ℕ)} (h : SwitchInv dec s)
    (hc : s.calls = l₁ ++ (r, i) :: l₂) (hp : s.pools[i]? = some (cf, p)) :
    SwitchInv dec (s.put dec r i (l₁ ++ l₂) cf p) := by
  have hmem : (r, i) ∈ s.calls := by
    rw [hc]
    exact List.mem_append_right _ List.mem_cons_self
  obtain ⟨x, hx, htakes⟩ := h.calls _ hmem
  obtain rfl := Option.some.inj (hp.symm.trans hx)
  obtain ⟨hinv, hq⟩ := h.pools _ (List.mem_of_getElem? hp)
  have hfresh : r ∉ p.handled := by
    -- the record is on its way, so no pool has it
    intro hm
    have hcount := h.count r
    have hle := List.nodup_iff_count_le_one.1 h.nodup r
    have h1 : 1 ≤ (s.calls.map Prod.fst).count r := List.count_pos_iff.2 (List.mem_map_of_mem hmem)
    have h2 : 1 ≤ s.handles r := by
      refine le_trans (List.count_pos_iff.2 hm) (List.single_le_sum (by simp) _ ?_)
      exact List.mem_map.2 ⟨_, List.mem_of_getElem? hp, rfl⟩
    omega
  unfold Switch.put
  rw [put_of_takes htakes]
  refine h.change hp (hinv.handle hfresh) (hq.handle htakes.1) (handle_outs_le cf dec p r)
    (fun c hcm => ?_) (fun c _ _ ht => ?_) fun r' => ?_
  · rw [hc]
    exact (List.sublist_append_right [(r, i)] l₂ |>.append_left l₁).subset hcm
  · unfold Takes
    rw [Pool.handle_stage]
    exact ht
  · rw [Pool.handle_handled, hc]
    simp only [List.map_append, List.map_cons, List.count_append, List.count_cons, List.count_nil]
    omega

theorem SwitchInv.load (h : SwitchInv dec s) (hr : r ∉ s.started) (hcalm : Calm dec s (.load r)) :
    SwitchInv dec { s with calls := s.calls ++ [(r, s.cur)], started := s.started ++ [r] } :=
  { h with
    calls := by
      intro c hc
      rcases List.mem_append.1 hc with hc | hc
      · exact h.calls c hc
      · rw [List.mem_singleton.1 hc]
        have hcur := List.getElem?_eq_getElem h.cur
        exact ⟨_, hcur, hcalm _ hcur⟩
    count := by
      intro r'
      have hcount := h.count r'
      simp only [Switch.handles, List.map_append, List.map_cons, List.map_nil,
        List.count_append] at hcount ⊢
      omega
    nodup := by
      rw [List.nodup_append]
      refine ⟨h.nodup, List.nodup_singleton r, ?_⟩
      rintro x hx y hy rfl
      exact hr (List.mem_singleton.1 hy ▸ hx)
    early := by
      intro r' hr'
      obtain ⟨hs, hc⟩ := h.early r' hr'
      refine ⟨List.mem_append_left _ hs, fun hm => ?_⟩
      rw [List.map_append, List.mem_append] at hm
      rcases hm with hm | hm
      · exact hc hm
      · rw [List.map_singleton, List.mem_singleton] at hm
        obtain rfl : r' = r := hm
        exact hr hs }

theorem SwitchInv.apply (h : SwitchInv dec s) (cf : Conf) (hc : s.closed = false) :
    SwitchInv dec
      { s with pools := s.pools ++ [(cf, Pool.new)], cur := s.pools.length, gone := s.cur :: s.gone } :=
  { h with
    pools := by
      intro x hx
      rcases List.mem_append.1 hx with hx | hx
      · exact h.pools x hx
      · rw [List.mem_singleton.1 hx]
        exact ⟨inv_new, quiet_of_stage (.inl rfl)⟩
    cur := by simp
    every := by
      intro j hj
      rw [List.length_append, List.length_singleton] at hj
      rcases Nat.lt_succ_iff_lt_or_eq.1 hj with hj | hj
      · refine .inr ?_
        rcases h.every j hj with rfl | hg
        · exact List.mem_cons_self
        · exact List.mem_cons_of_mem _ hg
      · exact .inl hj
    closing := by
      intro j hj
      exact absurd (hc.symm.trans (h.closing j hj).2) (by simp)
    calls := by
      intro c hcm
      obtain ⟨x, hx, ht⟩ := h.calls c hcm
      refine ⟨x, ?_, ht⟩
      rw [List.getElem?_append_left (List.getElem?_eq_some_iff.1 hx).1]
      exact hx
    count := by
      intro r
      have hcount := h.count r
      simp only [Switch.handles, List.map_append, List.sum_append] at hcount ⊢
      exact hcount
    done := by
      intro hret
      exact absurd (hc.symm.trans (h.closed hret)) (by simp) }

theorem SwitchInv.close (h : SwitchInv dec s) (hc : s.closed = false) :
    SwitchInv dec
      { s with
        closed := true, closing := some s.cur
        early := s.started.filter fun r => r ∉ s.calls.map Prod.fst } :=
  { h with
    closing := by
      rintro j hj
      exact ⟨(Option.some.inj hj).symm, rfl⟩
    early := by
      intro r hr
      obtain ⟨hs, hn⟩ := List.mem_filter.1 hr
      exact ⟨hs, of_decide_eq_true hn⟩
    closed := fun _ => rfl
    done := by
      intro hret
      exact absurd (hc.symm.trans (h.closed hret)) (by simp) }

/-- When all pools are closed and no timer moves them, the records that `Close` found put have been
emitted. -/
theorem SwitchInv.ret (h : SwitchInv dec s) (hc : s.closing = some i)
    (hi : ∀ x, s.pools[i]? = some x → x.2.stage = .closed)
    (hg : ∀ j ∈ s.gone, ∀ x, s.pools[j]? = some x → x.2.stage = .closed)
    (hcalm : Calm dec s .ret) : SwitchInv dec { s with returned := true } := by
  obtain ⟨rfl, hclosed⟩ := h.closing i hc
  refine { h with closed := fun _ => hclosed, done := fun _ r hr => ?_ }
  have hstage : ∀ x ∈ s.pools, x.2.stage = .closed := by
    intro x hx
    obtain ⟨j, hj⟩ := List.mem_iff_getElem?.1 hx
    rcases h.every j (List.getElem?_eq_some_iff.1 hj).1 with rfl | hgone
    · exact hi x hj
    · exact hg j hgone x hj
  have heq : s.outs r = s.handles r := by
    refine congrArg List.sum (List.map_congr_left fun x hx => ?_)
    obtain ⟨hinv, hq⟩ := h.pools x hx
    exact hinv.outs_of_closed hq (hstage x hx) fun f hf ht => hcalm x hx f hf ht r hr
  obtain ⟨hs, hn⟩ := h.early r hr
  have hcount := h.count r
  rw [List.count_eq_zero_of_not_mem hn, List.count_eq_one_of_mem h.nodup hs] at hcount
  change 1 ≤ s.outs r
  omega

/-- **One calm step.** -/
theorem Move.inv (hm : Move dec s a s') (hcalm : Calm dec s a) (h : SwitchInv dec s) :
    SwitchInv dec s' := by
  cases hm with
  | load hr => exact h.load hr hcalm
  | put hc hp => exact h.put hc hp
  | inner hp hs hh ho hc =>
    refine h.setPool hp hs hh fun c _ _ ht => ⟨fun hq => ho.2 (ht.1 hq), fun hsw hst => ?_⟩
    exact ht.2 hsw (hc.1 hst)
  | closeJobs hp hi ho =>
    refine h.setPool hp (.closeJobs ho) rfl fun c hc hci _ => ⟨fun hq => ?_, fun _ hst => by cases hst⟩
    exact absurd hq (hcalm _ hp c hc hci)
  | closeSweep hp ho hc =>
    refine h.setPool hp (.closed ho hc) rfl fun c hcm hci ht => ⟨fun hq => ?_, fun hsw => ?_⟩
    · exact absurd (ho.symm.trans (ht.1 hq)) (by simp)
    · exact absurd hsw (hcalm _ hp c hcm hci)
  | apply cf hc => exact h.apply cf hc
  | close hc => exact h.close hc
  | ret hc hi hg => exact h.ret hc hi hg hcalm

theorem calmRun_inv (h : CalmRun dec cf s) : SwitchInv dec s := by
  induction h with
  | refl => exact switchInv_new dec cf
  | tail _ hm ih =>
    obtain ⟨a, hm, hcalm⟩ := hm
    exact hm.inv hcalm ih

theorem CalmRun.step (h : CalmRun dec cf s) (hm : Move dec s a s') (hc : Calm dec s a) :
    CalmRun dec cf s' := h.tail ⟨a, hm, hc⟩

/-- A step of the goroutines of a pool is calm. -/
theorem CalmRun.inner {cf₀ : Conf} (h : CalmRun dec cf₀ s) (hp : s.pools[i]? = some (cf, p))
    (hs : Step cf dec p p') (hh : p'.handled = p.handled)
    (ho : p'.stage = .opened ↔ p.stage = .opened) (hc : p'.stage = .closed ↔ p.stage = .closed) :
    CalmRun dec cf₀ (s.setPool i cf p') := h.step (.inner hp hs hh ho hc) trivial

/-- The states that any steps reach. -/
def SwitchRun (dec : ℕ → Decision) (cf : Conf) (s : Switch) : Prop :=
  Relation.ReflTransGen (fun s s' => ∃ a, Move dec s a s') (Switch.new cf) s

theorem SwitchRun.step (h : SwitchRun dec cf s) (hm : Move dec s a s') : SwitchRun dec cf s' :=
  h.tail ⟨a, hm⟩

/-- One worker and baskets of two, which a timer flushes. -/
def timedWorker : Conf := ⟨true, 1, 1, fun _ => ⟨2, 1⟩⟩

end Retain
