import PlacitumNode.Retain.Pool

/-!
# Every record is emitted once

Each kind that is counted for a record is a token, which its worker, a basket or a flush has; the
pending counter of the record is the number of its tokens.

* `Pool.tok`, `Pool.leaving`, `Pool.waiting`: the tokens, and where a record is;
* `Kept`: the parking of a record against the section that was parsed;
* `Inv`, `inv_step`: the invariant of the pool;
* `Settled`, `emitted_once`: what an emitted record says, and what holds in every state.
-/

namespace Retain

variable {cf : Conf} {dec : ℕ → Decision} {p p' : Pool} {r : ℕ} {k : Kind}

/-! ### Tokens -/

def Task.tok (r : ℕ) (k : Kind) : Task → ℕ
  | .emit _ => 0
  | .push r' ks => if r' = r then ks.count k else 0

def Owner.tok (r : ℕ) (k : Kind) : Owner → ℕ
  | .worker r' ks => if r' = r then ks.count k else 0
  | _ => 0

def Flush.tok (r : ℕ) (k : Kind) (f : Flush) : ℕ :=
  (if f.kind = k then f.items.count r else 0) + f.owner.tok r k

/-- How often the kind of a record is on its way. -/
def Pool.tok (p : Pool) (r : ℕ) (k : Kind) : ℕ :=
  (p.tasks.map (Task.tok r k)).sum + (p.items k).count r + (p.flushes.map (Flush.tok r k)).sum

def Task.leaves (r : ℕ) : Task → ℕ
  | .emit r' => if r' = r then 1 else 0
  | .push _ _ => 0

def Flush.leaves (r : ℕ) (f : Flush) : ℕ := if f.emits = some r then 1 else 0

/-- How often a record is about to be emitted. -/
def Pool.leaving (p : Pool) (r : ℕ) : ℕ :=
  (p.tasks.map (Task.leaves r)).sum + (p.flushes.map (Flush.leaves r)).sum

/-- Whether kinds of the record are missing. -/
def Pool.waiting (p : Pool) (r : ℕ) : ℕ :=
  (p.park r).elim 0 fun q => if q.pending = 0 then 0 else 1

def Pool.outs (p : Pool) (r : ℕ) : ℕ := (p.out.map Prod.fst).count r

/-! ### The invariant -/

/-- The parking of a record whose section was `s`: the kinds on their way are as they were, the
others carry the outcome of their move. -/
structure Kept (dec : ℕ → Decision) (moves : List (ℕ × Kind × Outcome)) (tok : Kind → ℕ) (r : ℕ)
    (q : Parking) (s : Section) : Prop where
  parse : parseStore (dec r).raw = some s
  nonempty : counted (dec r) s ≠ []
  archive : q.sect.archive = s.archive
  pending : q.pending = ((counted (dec r) s).map tok).sum
  once : ∀ k, tok k ≤ 1
  among : ∀ k, tok k ≠ 0 → k ∈ counted (dec r) s
  same : ∀ k, tok k ≠ 0 ∨ k ∉ counted (dec r) s → q.sect.locators k = s.locators k
  other : q.sect.archiveOther = s.archiveOther
  done : ∀ k ∈ counted (dec r) s, tok k = 0 → ∃ v o, s.locators k = some v ∧
    (r, k, o) ∈ moves ∧ q.sect.locators k = some (o.apply v)
  touched : q.touched = true ∨ ∀ k ∈ counted (dec r) s, tok k = 1

/-- How a record was emitted: as it came, since no kind is counted for it; with the reason why it
was not taken; or with the outcomes of the moves of all its kinds. -/
inductive Emitted (dec : ℕ → Decision) (turned : List (ℕ × Reason))
    (moves : List (ℕ × Kind × Outcome)) (r : ℕ) : Record → Prop
  | plain (hp : ∀ s, parseStore (dec r).raw = some s → counted (dec r) s = []) :
      Emitted dec turned moves r (dec r).raw
  | degraded {reason : Reason} (ht : (r, reason) ∈ turned) :
      Emitted dec turned moves r (degraded (dec r) reason)
  | whole {q : Parking} {s : Section} (hk : Kept dec moves (fun _ => 0) r q s) :
      Emitted dec turned moves r (spliceStore (dec r).raw q.sect.render)

/-- A flush that has moved its first item has what the move came to, and one that is about to emit a
record has found it whole. -/
structure Flush.Sound (park : ℕ → Option Parking) (moves : List (ℕ × Kind × Outcome)) (f : Flush) :
    Prop where
  emits : ∀ r, f.emits = some r → ∃ q, park r = some q ∧ q.pending = 0
  result : ∀ o, f.result = some o → ∀ r items, f.items = r :: items → (r, f.kind, o) ∈ moves

structure Inv (dec : ℕ → Decision) (p : Pool) : Prop where
  nodup : p.handled.Nodup
  place : ∀ r, p.jobs.count r + p.leaving r + p.waiting r + p.outs r = p.handled.count r
  parked : ∀ r q, p.park r = some q → ∃ s, Kept dec p.moves (p.tok r) r q s
  unparked : ∀ r, p.park r = none → ∀ k, p.tok r k = 0
  gone : ∀ r q, p.park r = some q → q.pending = 0 → 1 ≤ p.leaving r + p.outs r
  plain : ∀ r, .emit r ∈ p.tasks → ∀ s, parseStore (dec r).raw = some s → counted (dec r) s = []
  flushes : ∀ f ∈ p.flushes, f.Sound p.park p.moves
  moves : ∀ r k o, (r, k, o) ∈ p.moves →
    ∃ a s, parseStore (dec r).raw = some s ∧ o = move a (dec r) s k
  out : ∀ r rec, (r, rec) ∈ p.out → Emitted dec p.turned p.moves r rec

theorem inv_new : Inv dec Pool.new := by
  refine ⟨List.nodup_nil, fun r => rfl, ?_, fun r _ k => rfl, ?_, ?_, ?_, ?_, ?_⟩
  · rintro r q ⟨⟩
  · rintro r q ⟨⟩
  · rintro r ⟨⟩
  · rintro f ⟨⟩
  · rintro r k o ⟨⟩
  · rintro r rec ⟨⟩

theorem Kept.mono {moves moves' : List (ℕ × Kind × Outcome)} {tok : Kind → ℕ} {q : Parking}
    {s : Section} (h : Kept dec moves tok r q s) (hm : ∀ x ∈ moves, x ∈ moves') :
    Kept dec moves' tok r q s := by
  refine { h with done := fun k hk h0 => ?_ }
  obtain ⟨v, o, hv, ho, hq⟩ := h.done k hk h0
  exact ⟨v, o, hv, hm _ ho, hq⟩

theorem Emitted.mono {turned turned' : List (ℕ × Reason)} {moves moves' : List (ℕ × Kind × Outcome)}
    {rec : Record} (h : Emitted dec turned moves r rec) (ht : ∀ x ∈ turned, x ∈ turned')
    (hm : ∀ x ∈ moves, x ∈ moves') : Emitted dec turned' moves' r rec := by
  cases h with
  | plain hp => exact .plain hp
  | degraded hr => exact .degraded (ht _ hr)
  | whole hk => exact .whole (hk.mono hm)

theorem Flush.Sound.mono {park : ℕ → Option Parking} {moves moves' : List (ℕ × Kind × Outcome)}
    {f : Flush} (h : f.Sound park moves) (hm : ∀ x ∈ moves, x ∈ moves') : f.Sound park moves' :=
  ⟨h.emits, fun o ho r items hi => hm _ (h.result o ho r items hi)⟩

/-- A record is in one place only. -/
theorem Inv.place_le (h : Inv dec p) (r : ℕ) :
    p.jobs.count r + p.leaving r + p.waiting r + p.outs r ≤ 1 := by
  rw [h.place r]
  exact List.nodup_iff_count_le_one.1 h.nodup r

/-- A record in the queue has no parking. -/
theorem Inv.park_of_job (h : Inv dec p) (hr : 1 ≤ p.jobs.count r) : p.park r = none := by
  have hle := h.place_le r
  cases hq : p.park r with
  | none => rfl
  | some q =>
    by_cases h0 : q.pending = 0
    · have := h.gone r q hq h0
      omega
    · have hw : p.waiting r = 1 := by
        simp only [Pool.waiting, hq, Option.elim_some, if_neg h0]
      omega

/-- A change that leaves the parking and the tokens alone. -/
theorem Inv.shift (h : Inv dec p) (hnodup : p'.handled.Nodup)
    (hplace : ∀ r, p'.jobs.count r + p'.leaving r + p'.outs r + p.handled.count r =
      p.jobs.count r + p.leaving r + p.outs r + p'.handled.count r)
    (hpark : p'.park = p.park) (htok : ∀ r k, p'.tok r k = p.tok r k)
    (hgone : ∀ r, p.leaving r + p.outs r ≤ p'.leaving r + p'.outs r)
    (hplain : ∀ r, .emit r ∈ p'.tasks → .emit r ∈ p.tasks ∨
      ∀ s, parseStore (dec r).raw = some s → counted (dec r) s = [])
    (hflushes : ∀ f ∈ p'.flushes, f.Sound p.park p'.moves)
    (hturned : ∀ x ∈ p.turned, x ∈ p'.turned) (hmoves : ∀ x ∈ p.moves, x ∈ p'.moves)
    (hnew : ∀ r k o, (r, k, o) ∈ p'.moves →
      ∃ a s, parseStore (dec r).raw = some s ∧ o = move a (dec r) s k)
    (hout : ∀ r rec, (r, rec) ∈ p'.out →
      (r, rec) ∈ p.out ∨ Emitted dec p'.turned p'.moves r rec) :
    Inv dec p' := by
  have hw : ∀ r, p'.waiting r = p.waiting r := by
    intro r
    unfold Pool.waiting
    rw [hpark]
  refine ⟨hnodup, fun r => ?_, fun r q hq => ?_, fun r hq k => ?_, fun r q hq h0 => ?_,
    fun r ht => (hplain r ht).elim (h.plain r) id, ?_, hnew, fun r rec ho => ?_⟩
  · have h1 := h.place r
    have h2 := hplace r
    rw [hw]
    omega
  · rw [hpark] at hq
    obtain ⟨s, hs⟩ := h.parked r q hq
    have ht : p'.tok r = p.tok r := funext (htok r)
    rw [ht]
    exact ⟨s, hs.mono hmoves⟩
  · rw [hpark] at hq
    rw [htok]
    exact h.unparked r hq k
  · rw [hpark] at hq
    exact (h.gone r q hq h0).trans (hgone r)
  · rw [hpark]
    exact hflushes
  · rcases hout r rec ho with ho' | ho'
    · exact (h.out r rec ho').mono hturned hmoves
    · exact ho'

/-- A change of the parking and the tokens of one record. -/
theorem Inv.repark {q : Parking} {s : Section} (h : Inv dec p)
    (hpark : p'.park = Function.update p.park r (some q)) (hhandled : p'.handled = p.handled)
    (hturned : p'.turned = p.turned) (hmoves : p'.moves = p.moves) (hout : p'.out = p.out)
    (htok : ∀ r', r' ≠ r → p'.tok r' = p.tok r') (hkept : Kept dec p.moves (p'.tok r) r q s)
    (hplace : ∀ r', p'.jobs.count r' + p'.leaving r' + p'.waiting r' =
      p.jobs.count r' + p.leaving r' + p.waiting r')
    (hgone : ∀ r', p.leaving r' ≤ p'.leaving r') (hleft : q.pending = 0 → 1 ≤ p'.leaving r)
    (hplain : ∀ r', .emit r' ∈ p'.tasks → .emit r' ∈ p.tasks)
    (hflushes : ∀ f ∈ p'.flushes, f.Sound p'.park p.moves) : Inv dec p' := by
  have hself : p'.park r = some q := by
    rw [hpark]
    exact Function.update_self _ _ _
  have hother : ∀ r', r' ≠ r → p'.park r' = p.park r' := by
    intro r' hr'
    rw [hpark]
    exact Function.update_of_ne hr' _ _
  have houts : ∀ r', p'.outs r' = p.outs r' := by
    intro r'
    unfold Pool.outs
    rw [hout]
  refine ⟨hhandled ▸ h.nodup, fun r' => ?_, fun r' q' hq' => ?_, fun r' hq' k' => ?_,
    fun r' q' hq' h0 => ?_, fun r' ht => h.plain r' (hplain r' ht), hmoves ▸ hflushes,
    hmoves ▸ h.moves, ?_⟩
  · rw [hhandled, hplace, houts]
    exact h.place r'
  · rw [hmoves]
    by_cases hr : r' = r
    · subst hr
      rw [hself] at hq'
      obtain rfl := Option.some.inj hq'
      exact ⟨s, hkept⟩
    · rw [hother r' hr] at hq'
      rw [htok r' hr]
      exact h.parked r' q' hq'
  · have hr : r' ≠ r := by
      rintro rfl
      rw [hself] at hq'
      cases hq'
    rw [hother r' hr] at hq'
    rw [htok r' hr]
    exact h.unparked r' hq' k'
  · rw [houts]
    by_cases hr : r' = r
    · subst hr
      rw [hself] at hq'
      obtain rfl := Option.some.inj hq'
      exact Nat.le_add_right_of_le (hleft h0)
    · rw [hother r' hr] at hq'
      exact (h.gone r' q' hq' h0).trans (Nat.add_le_add_right (hgone r') _)
  · rw [hout, hturned, hmoves]
    exact h.out

/-! ### The steps -/

theorem sum_map_split {α : Type*} (g : α → ℕ) (l₁ l₂ : List α) (x : α) :
    ((l₁ ++ x :: l₂).map g).sum = g x + ((l₁ ++ l₂).map g).sum := by
  simp only [List.map_append, List.map_cons, List.sum_append, List.sum_cons]
  omega

theorem unarchived_counted {d : Decision} (h : d.unarchived = true) (s : Section) :
    counted d s = [] := by
  simp only [Decision.unarchived, Bool.and_eq_true, List.all_eq_true] at h
  rw [counted, List.filter_eq_nil_iff]
  intro k hk
  have hnone := h.1 k hk
  simp only [Option.isNone_iff_eq_none] at hnone
  simp [hnone]

theorem Inv.handle (h : Inv dec p) (hr : r ∉ p.handled) : Inv dec (p.handle cf dec r) := by
  have hnodup : (p.handled ++ [r]).Nodup := by
    rw [List.nodup_append]
    refine ⟨h.nodup, List.nodup_singleton r, ?_⟩
    rintro a ha b hb rfl
    rw [List.mem_singleton] at hb
    exact hr (hb ▸ ha)
  have hemit : ∀ turned rec, (∀ x ∈ p.turned, x ∈ turned) → Emitted dec turned p.moves r rec →
      Inv dec ({ p with handled := p.handled ++ [r], turned := turned }.emit r rec) := by
    intro turned rec hturned hrec
    refine h.shift hnodup (fun r' => ?_) rfl (fun _ _ => rfl) (fun r' => ?_) (fun _ => .inl)
      h.flushes hturned (fun _ => id) h.moves (fun r' rec' ho => ?_)
    · change _ + _ + ((p.out ++ [(r, rec)]).map Prod.fst).count r' + _ =
        _ + _ + p.outs r' + (p.handled ++ [r]).count r'
      rw [List.map_append, List.count_append, List.count_append]
      change p.jobs.count r' + p.leaving r' + (p.outs r' + [r].count r') + p.handled.count r' = _
      omega
    · change _ ≤ _ + ((p.out ++ [(r, rec)]).map Prod.fst).count r'
      rw [List.map_append, List.count_append]
      change p.leaving r' + p.outs r' ≤ p.leaving r' + (p.outs r' + _)
      omega
    · change (r', rec') ∈ p.out ++ [(r, rec)] at ho
      rcases List.mem_append.1 ho with ho | ho
      · exact .inl ho
      · obtain ⟨rfl, rfl⟩ := Prod.mk.inj (List.mem_singleton.1 ho)
        exact .inr hrec
  have hdegrade : ∀ reason,
      Inv dec ({ p with handled := p.handled ++ [r] }.degrade dec r reason) := fun reason =>
    hemit _ _ (fun x hx => List.mem_append_left _ hx)
      (.degraded (List.mem_append_right _ (List.mem_singleton_self _)))
  unfold Pool.handle
  simp only
  split
  · next hu => exact hemit _ _ (fun _ => id) (.plain fun s _ => unarchived_counted hu s)
  · split
    · exact hdegrade _
    · split
      · refine h.shift hnodup (fun r' => ?_) rfl (fun _ _ => rfl) (fun _ => le_rfl) (fun _ => .inl)
          h.flushes (fun _ => id) (fun _ => id) h.moves (fun _ _ => .inl)
        change (p.jobs ++ [r]).count r' + p.leaving r' + p.outs r' + _ =
          _ + p.leaving r' + p.outs r' + (p.handled ++ [r]).count r'
        rw [List.count_append, List.count_append]
        omega
      · exact hdegrade _

/-- A record that has no kinds to move is emitted as it came. -/
theorem Inv.takenPlain {js : List ℕ} (h : Inv dec p) (hj : p.jobs = r :: js)
    (hp : ∀ s, parseStore (dec r).raw = some s → counted (dec r) s = []) :
    Inv dec { p with jobs := js, tasks := .emit r :: p.tasks } := by
  refine h.shift h.nodup (fun r' => ?_) rfl (fun r' k => ?_) (fun r' => ?_) (fun r' ht => ?_)
    h.flushes (fun _ => id) (fun _ => id) h.moves (fun _ _ => .inl)
  · simp only [hj, Pool.leaving, List.map_cons, List.sum_cons, Task.leaves, List.count_cons,
      beq_iff_eq]
    change _ + _ + p.outs r' + _ = _ + _ + p.outs r' + _
    omega
  · simp only [Pool.tok, List.map_cons, List.sum_cons, Task.tok]
    omega
  · simp only [Pool.leaving, List.map_cons, List.sum_cons]
    change _ + p.outs r' ≤ _ + p.outs r'
    omega
  · rcases List.mem_cons.1 ht with ht | ht
    · obtain rfl := Task.emit.inj ht
      exact .inr hp
    · exact .inl ht

/-- The parking of a record that was just taken. -/
theorem Kept.start {moves : List (ℕ × Kind × Outcome)} {s : Section}
    (hp : parseStore (dec r).raw = some s) (hc : counted (dec r) s ≠ []) :
    Kept dec moves (fun k => (counted (dec r) s).count k) r
      ⟨s, (counted (dec r) s).length, false⟩ s := by
  have hone : ∀ k ∈ counted (dec r) s, (counted (dec r) s).count k = 1 := fun k hk =>
    List.count_eq_one_of_mem (nodup_counted _ _) hk
  refine ⟨hp, hc, rfl, ?_, fun k => ?_, fun k hk => ?_, fun _ _ => rfl, rfl, fun k hk h0 => ?_,
    .inr hone⟩
  · rw [List.map_congr_left hone]
    simp
  · exact List.nodup_iff_count_le_one.1 (nodup_counted _ _) k
  · exact List.count_pos_iff.1 (Nat.pos_of_ne_zero hk)
  · rw [hone k hk] at h0
    omega

/-- A record with kinds to move gets a parking. -/
theorem Inv.takenPush {js : List ℕ} {s : Section} (h : Inv dec p) (hj : p.jobs = r :: js)
    (hp : parseStore (dec r).raw = some s) (hc : counted (dec r) s ≠ []) :
    Inv dec { p with
      jobs := js
      park := Function.update p.park r (some ⟨s, (counted (dec r) s).length, false⟩)
      tasks := .push r (counted (dec r) s) :: p.tasks } := by
  have hnone : p.park r = none := h.park_of_job (by rw [hj, List.count_cons_self]; omega)
  have hpos : (counted (dec r) s).length ≠ 0 := fun h0 => hc (List.eq_nil_of_length_eq_zero h0)
  set p₁ : Pool := { p with
      jobs := js
      park := Function.update p.park r (some ⟨s, (counted (dec r) s).length, false⟩)
      tasks := .push r (counted (dec r) s) :: p.tasks } with hp₁
  have htok : ∀ r' k, p₁.tok r' k = p.tok r' k + if r = r' then (counted (dec r) s).count k else 0 := by
    intro r' k
    simp only [hp₁, Pool.tok, List.map_cons, List.sum_cons, Task.tok]
    omega
  -- The record had no token before, and now has one for each kind to move.
  have htokr : p₁.tok r = fun k => (counted (dec r) s).count k := by
    funext k
    rw [htok, if_pos rfl, h.unparked r hnone k, Nat.zero_add]
  have hleaving : ∀ r', p₁.leaving r' = p.leaving r' := by
    intro r'
    simp only [hp₁, Pool.leaving, List.map_cons, List.sum_cons, Task.leaves]
    omega
  -- It was in the queue and waits for its kinds now.
  have hwait : ∀ r', p₁.waiting r' = p.waiting r' + if r = r' then 1 else 0 := by
    intro r'
    by_cases hr' : r' = r
    · subst hr'
      simp only [hp₁, Pool.waiting, Function.update_self, hnone, Option.elim_some, Option.elim_none,
        if_neg hpos, if_true]
    · simp only [hp₁, Pool.waiting, Function.update_of_ne hr', if_neg (Ne.symm hr'), Nat.add_zero]
  refine h.repark rfl rfl rfl rfl rfl (fun r' hr' => ?_) (htokr ▸ Kept.start hp hc) (fun r' => ?_)
    (fun r' => (hleaving r').ge) (fun h0 => absurd h0 hpos) (fun r' ht => ?_) (fun f hf => ?_)
  · funext k
    rw [htok, if_neg (Ne.symm hr'), Nat.add_zero]
  · rw [hleaving, hwait, hj, List.count_cons]
    change js.count r' + _ + _ = _
    simp only [beq_iff_eq]
    omega
  · exact (List.mem_cons.1 ht).resolve_left (by rintro ⟨⟩)
  · refine ⟨fun r' he => ?_, (h.flushes f hf).result⟩
    obtain ⟨q, hq, h0⟩ := (h.flushes f hf).emits r' he
    have hr' : r' ≠ r := by
      rintro rfl
      rw [hnone] at hq
      cases hq
    exact ⟨q, (Function.update_of_ne hr' _ _).trans hq, h0⟩

theorem Inv.taken {js : List ℕ} (h : Inv dec p) (hj : p.jobs = r :: js) :
    Inv dec ({ p with jobs := js }.taken dec r) := by
  unfold Pool.taken
  split
  · next hn => exact h.takenPlain hj fun s hs => by rw [hn] at hs; cases hs
  · next s hs =>
    split
    · next hc =>
      refine h.takenPlain hj fun s' hs' => ?_
      rw [hs] at hs'
      rwa [← Option.some.inj hs']
    · next hc => exact h.takenPush hj hs hc

/-- A change of who has the tokens: tasks, baskets and flushes, with the same tokens and the same
records about to leave. -/
theorem Inv.rearrange {tasks : List Task} {items : Kind → List ℕ} {shut : Kind → Bool}
    {flushes : List Flush} {stage : Stage} (h : Inv dec p)
    (htok : ∀ r k, (tasks.map (Task.tok r k)).sum + (items k).count r +
      (flushes.map (Flush.tok r k)).sum = p.tok r k)
    (hleaves : ∀ r, (tasks.map (Task.leaves r)).sum + (flushes.map (Flush.leaves r)).sum = p.leaving r)
    (hplain : ∀ r, .emit r ∈ tasks → .emit r ∈ p.tasks)
    (hflushes : ∀ f ∈ flushes, f.Sound p.park p.moves) :
    Inv dec { p with
      tasks := tasks, items := items, shut := shut, flushes := flushes, stage := stage } := by
  refine h.shift h.nodup (fun r => ?_) rfl htok (fun r => ?_) (fun r ht => .inl (hplain r ht))
    hflushes (fun _ => id) (fun _ => id) h.moves (fun _ _ => .inl)
  · change p.jobs.count r + (_ + _) + p.outs r + _ = p.jobs.count r + p.leaving r + p.outs r + _
    rw [hleaves r]
  · change p.leaving r + p.outs r ≤ (_ + _) + p.outs r
    rw [hleaves r]

/-- A record that was about to leave is emitted. -/
theorem Inv.emitted {tasks : List Task} {flushes : List Flush} {rec : Record} (h : Inv dec p)
    (htok : ∀ r k, (tasks.map (Task.tok r k)).sum + (p.items k).count r +
      (flushes.map (Flush.tok r k)).sum = p.tok r k)
    (hleaves : ∀ r', (tasks.map (Task.leaves r')).sum + (flushes.map (Flush.leaves r')).sum +
      (if r = r' then 1 else 0) = p.leaving r')
    (hplain : ∀ r, .emit r ∈ tasks → .emit r ∈ p.tasks)
    (hflushes : ∀ f ∈ flushes, f.Sound p.park p.moves)
    (hrec : Emitted dec p.turned p.moves r rec) :
    Inv dec { p with tasks := tasks, flushes := flushes, out := p.out ++ [(r, rec)] } := by
  have houts : ∀ r', ((p.out ++ [(r, rec)]).map Prod.fst).count r' =
      p.outs r' + if r = r' then 1 else 0 := by
    intro r'
    rw [List.map_append, List.count_append]
    change p.outs r' + [r].count r' = _
    rw [List.count_singleton]
    simp only [beq_iff_eq]
  refine h.shift h.nodup (fun r' => ?_) rfl htok (fun r' => ?_) (fun r ht => .inl (hplain r ht))
    hflushes (fun _ => id) (fun _ => id) h.moves (fun r' rec' ho => ?_)
  · change p.jobs.count r' + ((tasks.map (Task.leaves r')).sum +
      (flushes.map (Flush.leaves r')).sum) + ((p.out ++ [(r, rec)]).map Prod.fst).count r' +
        p.handled.count r' = p.jobs.count r' + p.leaving r' + p.outs r' + p.handled.count r'
    rw [houts r', ← hleaves r']
    omega
  · change p.leaving r' + p.outs r' ≤ (tasks.map (Task.leaves r')).sum +
      (flushes.map (Flush.leaves r')).sum + ((p.out ++ [(r, rec)]).map Prod.fst).count r'
    rw [houts r', ← hleaves r']
    omega
  · rcases List.mem_append.1 ho with ho | ho
    · exact .inl ho
    · obtain ⟨rfl, rfl⟩ := Prod.mk.inj (List.mem_singleton.1 ho)
      exact .inr hrec

theorem newFlush_tok (k k' : Kind) (items : List ℕ) (o : Owner) (r : ℕ) :
    (newFlush k items o).tok r k' = (if k = k' then items.count r else 0) + o.tok r k' := rfl

theorem newFlush_leaves (k : Kind) (items : List ℕ) (o : Owner) (r : ℕ) :
    (newFlush k items o).leaves r = 0 := rfl

/-- A flush that starts is sound beside the others. -/
theorem Inv.sound_newFlush (h : Inv dec p) (k : Kind) (items : List ℕ) (o : Owner) :
    ∀ f ∈ newFlush k items o :: p.flushes, f.Sound p.park p.moves := by
  intro f hf
  rcases List.mem_cons.1 hf with rfl | hf
  · exact ⟨by rintro r ⟨⟩, by rintro o' ⟨⟩⟩
  · exact h.flushes f hf

theorem mem_split {t : Task} {l₁ l₂ : List Task} {u : Task} (hu : u ∈ l₁ ++ l₂) :
    u ∈ l₁ ++ t :: l₂ := by
  rcases List.mem_append.1 hu with h | h
  · exact List.mem_append_left _ h
  · exact List.mem_append_right _ (List.mem_cons_of_mem _ h)

theorem count_update (items : Kind → List ℕ) (k k' : Kind) (l : List ℕ) (r : ℕ) :
    (Function.update items k l k').count r = if k = k' then l.count r else (items k').count r := by
  by_cases hk : k = k'
  · subst hk
    rw [Function.update_self, if_pos rfl]
  · rw [Function.update_of_ne (Ne.symm hk), if_neg hk]

theorem Inv.emitTask {l₁ l₂ : List Task} (h : Inv dec p) (ht : p.tasks = l₁ ++ .emit r :: l₂) :
    Inv dec ({ p with tasks := l₁ ++ l₂ }.emit r (dec r).raw) := by
  have hplain := h.plain r (by rw [ht]; simp)
  refine h.emitted (fun r' k => ?_) (fun r' => ?_) (fun r' h' => ht ▸ mem_split h')
    h.flushes (.plain hplain)
  · rw [Pool.tok, ht, sum_map_split, Task.tok, Nat.zero_add]
  · rw [Pool.leaving, ht, sum_map_split, Task.leaves]
    dsimp only
    omega

theorem Inv.push {ks : List Kind} {l₁ l₂ : List Task} (h : Inv dec p)
    (ht : p.tasks = l₁ ++ .push r (k :: ks) :: l₂) : Inv dec (p.push cf r k ks (l₁ ++ l₂)) := by
  have htok : ∀ r' k', p.tok r' k' = (if r = r' then (if k = k' then 1 else 0) + ks.count k' else 0) +
      ((l₁ ++ l₂).map (Task.tok r' k')).sum + (p.items k').count r' +
        (p.flushes.map (Flush.tok r' k')).sum := by
    intro r' k'
    rw [Pool.tok, ht, sum_map_split, Task.tok, List.count_cons]
    simp only [beq_iff_eq, Nat.add_comm]
  have hleaves : ∀ r', p.leaving r' = ((l₁ ++ l₂).map (Task.leaves r')).sum +
      (p.flushes.map (Flush.leaves r')).sum := by
    intro r'
    rw [Pool.leaving, ht, sum_map_split, Task.leaves, Nat.zero_add]
  have hplain : ∀ r', Task.emit r' ∈ l₁ ++ l₂ → .emit r' ∈ p.tasks := fun r' h' => ht ▸ mem_split h'
  unfold Pool.push
  split
  · refine h.rearrange (fun r' k' => ?_) (fun r' => ?_) hplain (h.sound_newFlush _ _ _)
    · rw [htok, List.map_cons, List.sum_cons, newFlush_tok, Owner.tok, List.count_singleton]
      simp only [beq_iff_eq]
      split_ifs <;> omega
    · rw [hleaves, List.map_cons, List.sum_cons, newFlush_leaves, Nat.zero_add]
  · split
    · refine h.rearrange (fun r' k' => ?_) (fun r' => ?_) hplain (h.sound_newFlush _ _ _)
      · rw [htok, List.map_cons, List.sum_cons, newFlush_tok, Owner.tok, count_update, List.count_nil,
          List.count_append, List.count_singleton]
        simp only [beq_iff_eq]
        by_cases hk : k = k'
        · subst hk
          split_ifs <;> omega
        · split_ifs <;> omega
      · rw [hleaves, List.map_cons, List.sum_cons, newFlush_leaves, Nat.zero_add]
    · refine h.rearrange (fun r' k' => ?_) (fun r' => ?_) (fun r' h' => ?_) h.flushes
      · rw [htok, List.map_cons, List.sum_cons, Task.tok, count_update, List.count_append,
          List.count_singleton]
        simp only [beq_iff_eq]
        by_cases hk : k = k'
        · subst hk
          split_ifs <;> omega
        · split_ifs <;> omega
      · rw [hleaves, List.map_cons, List.sum_cons, Task.leaves, Nat.zero_add]
      · rcases List.mem_cons.1 h' with h' | h'
        · cases h'
        · exact hplain r' h'

theorem Inv.pushed {l₁ l₂ : List Task} (h : Inv dec p) (ht : p.tasks = l₁ ++ .push r [] :: l₂) :
    Inv dec { p with tasks := l₁ ++ l₂ } := by
  refine h.rearrange (fun r' k' => ?_) (fun r' => ?_) (fun r' h' => ht ▸ mem_split h') h.flushes
  · rw [Pool.tok, ht, sum_map_split, Task.tok, List.count_nil, ite_self, Nat.zero_add]
  · rw [Pool.leaving, ht, sum_map_split, Task.leaves, Nat.zero_add]

theorem Inv.flushAll {o : Owner} (h : Inv dec p) (k : Kind) (ho : ∀ r k, o.tok r k = 0) :
    Inv dec (p.flushAll k o) := by
  unfold Pool.flushAll
  split
  · exact h
  · refine h.rearrange (fun r' k' => ?_) (fun r' => ?_) (fun _ => id) (h.sound_newFlush _ _ _)
    · rw [List.map_cons, List.sum_cons, newFlush_tok, ho, count_update, List.count_nil, Pool.tok]
      by_cases hk : k = k'
      · subst hk
        simp only [if_true]
        omega
      · simp only [if_neg hk]
        omega
    · rw [List.map_cons, List.sum_cons, newFlush_leaves, Nat.zero_add, Pool.leaving]

theorem Inv.staged (h : Inv dec p) (shut : Kind → Bool) (stage : Stage) :
    Inv dec { p with shut := shut, stage := stage } :=
  h.rearrange (fun _ _ => rfl) (fun _ => rfl) (fun _ => id) h.flushes

theorem mem_exchange {f g x : Flush} {l₁ l₂ : List Flush} (hx : x ∈ l₁ ++ g :: l₂) :
    x = g ∨ x ∈ l₁ ++ f :: l₂ := by
  rcases List.mem_append.1 hx with h | h
  · exact .inr (List.mem_append_left _ h)
  · rcases List.mem_cons.1 h with h | h
    · exact .inl h
    · exact .inr (List.mem_append_right _ (List.mem_cons_of_mem _ h))

/-- A flush goes on beside the others. -/
theorem Inv.sound_exchange {f g : Flush} {l₁ l₂ : List Flush} {moves : List (ℕ × Kind × Outcome)}
    (h : Inv dec p) (hf : p.flushes = l₁ ++ f :: l₂) (hm : ∀ x ∈ p.moves, x ∈ moves)
    (hg : f.Sound p.park moves → g.Sound p.park moves) :
    ∀ x ∈ l₁ ++ g :: l₂, x.Sound p.park moves := by
  intro x hx
  have hsound : ∀ y ∈ l₁ ++ f :: l₂, y.Sound p.park moves := fun y hy =>
    (h.flushes y (hf ▸ hy)).mono hm
  rcases mem_exchange (f := f) hx with rfl | hx
  · exact hg (hsound f (by simp))
  · exact hsound x hx

theorem Inv.enter {f : Flush} {l₁ l₂ : List Flush} (h : Inv dec p) (hf : p.flushes = l₁ ++ f :: l₂) :
    Inv dec { p with flushes := l₁ ++ { f with inside := true } :: l₂ } := by
  refine h.rearrange (fun r' k' => ?_) (fun r' => ?_) (fun _ => id)
    (h.sound_exchange hf (fun _ => id) fun hs => ⟨hs.emits, hs.result⟩)
  · rw [sum_map_split, Pool.tok, hf, sum_map_split]
    rfl
  · rw [sum_map_split, Pool.leaving, hf, sum_map_split]
    rfl

theorem Inv.leave {f : Flush} {l₁ l₂ : List Flush} (h : Inv dec p) (hf : p.flushes = l₁ ++ f :: l₂)
    (hi : f.items = []) (he : f.emits = none) : Inv dec (p.leave f l₁ l₂) := by
  have hmem : ∀ g ∈ l₁ ++ l₂, g ∈ p.flushes := by
    intro g hg
    rw [hf]
    rcases List.mem_append.1 hg with h | h
    · exact List.mem_append_left _ h
    · exact List.mem_append_right _ (List.mem_cons_of_mem _ h)
  -- A flush without items has no tokens but those of the worker that runs it.
  have htok : ∀ r' k', f.tok r' k' = f.owner.tok r' k' := by
    intro r' k'
    rw [Flush.tok, hi, List.count_nil, ite_self, Nat.zero_add]
  have hleaves : ∀ r', f.leaves r' = 0 := fun r' => by
    rw [Flush.leaves, he]
    rfl
  unfold Pool.leave
  split
  -- The worker that ran the flush goes on with the kinds it has not pushed.
  · next r ks ho =>
    refine h.rearrange (fun r' k' => ?_) (fun r' => ?_) (fun r' ht => ?_)
      (fun g hg => h.flushes g (hmem g hg))
    · rw [Pool.tok, hf, sum_map_split, htok, ho, List.map_cons, List.sum_cons, Task.tok, Owner.tok]
      omega
    · rw [Pool.leaving, hf, sum_map_split, hleaves, List.map_cons, List.sum_cons, Task.leaves]
      omega
    · rcases List.mem_cons.1 ht with ht | ht
      · cases ht
      · exact ht
  · next hno =>
    have hzero : ∀ r' k', f.owner.tok r' k' = 0 := by
      intro r' k'
      cases ho : f.owner with
      | worker r ks => exact absurd ho (hno r ks)
      | timer => rfl
      | closer => rfl
    refine h.rearrange (fun r' k' => ?_) (fun r' => ?_) (fun _ => id)
      (fun g hg => h.flushes g (hmem g hg))
    · rw [Pool.tok, hf, sum_map_split, htok, hzero]
      omega
    · rw [Pool.leaving, hf, sum_map_split, hleaves]
      omega

/-- The tokens of a record that is whole. -/
theorem Kept.whole {moves : List (ℕ × Kind × Outcome)} {tok : Kind → ℕ} {q : Parking} {s : Section}
    (hk : Kept dec moves tok r q s) (h0 : q.pending = 0) :
    (∀ k, tok k = 0) ∧ q.touched = true := by
  have hsum := hk.pending
  rw [h0] at hsum
  have hzero : ∀ k ∈ counted (dec r) s, tok k = 0 := by
    intro k hmem
    exact List.sum_eq_zero_iff.1 hsum.symm _ (List.mem_map_of_mem hmem)
  refine ⟨fun k => ?_, ?_⟩
  · by_contra hne
    exact hne (hzero k (hk.among k hne))
  · rcases hk.touched with ht | ht
    · exact ht
    · obtain ⟨k, hmem⟩ := List.exists_mem_of_ne_nil _ hk.nonempty
      have h1 := ht k hmem
      rw [hzero k hmem] at h1
      omega

theorem Inv.emit {f : Flush} {l₁ l₂ : List Flush} {q : Parking} (h : Inv dec p)
    (hf : p.flushes = l₁ ++ f :: l₂) (he : f.emits = some r) (hq : p.park r = some q) :
    Inv dec ({ p with flushes := l₁ ++ { f with emits := none } :: l₂ }.emit r (q.record (dec r))) := by
  -- A flush emits a record of which no kind is missing.
  have hrec : Emitted dec p.turned p.moves r (q.record (dec r)) := by
    obtain ⟨q', hq', h0⟩ := (h.flushes f (by rw [hf]; simp)).emits r he
    rw [hq] at hq'
    obtain rfl := Option.some.inj hq'
    obtain ⟨s, hk⟩ := h.parked r q hq
    obtain ⟨hzero, htouched⟩ := hk.whole h0
    have ht : p.tok r = fun _ => 0 := funext hzero
    rw [ht] at hk
    rw [Parking.record, if_pos htouched]
    exact .whole hk
  refine h.emitted (fun r' k => ?_) (fun r' => ?_) (fun _ => id)
    (h.sound_exchange hf (fun _ => id) fun hs => ⟨by rintro r' ⟨⟩, hs.result⟩) hrec
  · rw [sum_map_split, Pool.tok, hf, sum_map_split]
    rfl
  · rw [sum_map_split, Pool.leaving, hf, sum_map_split]
    simp only [Flush.leaves, he, Option.some.injEq, reduceCtorEq, if_false]
    omega

/-- A flush moves the object of its first item. -/
theorem Inv.move {f : Flush} {l₁ l₂ : List Flush} {items : List ℕ} {q : Parking} (a : Answer)
    (h : Inv dec p) (hf : p.flushes = l₁ ++ f :: l₂) (hi : f.items = r :: items)
    (hq : p.park r = some q) : Inv dec (p.move f r (move a (dec r) q.sect f.kind) l₁ l₂) := by
  obtain ⟨s, hk⟩ := h.parked r q hq
  have hpos : p.tok r f.kind ≠ 0 := by
    rw [Pool.tok, hf, sum_map_split, Flush.tok, if_pos rfl, hi, List.count_cons_self]
    omega
  -- the locator of a kind that is on its way is the one that was parsed
  have hmove : Retain.move a (dec r) q.sect f.kind = Retain.move a (dec r) s f.kind :=
    move_congr a (dec r) (hk.same f.kind (.inl hpos))
  have hmono : ∀ x ∈ p.moves, x ∈ p.moves ++ [(r, f.kind, Retain.move a (dec r) q.sect f.kind)] :=
    fun x hx => List.mem_append_left _ hx
  refine h.shift h.nodup (fun r' => ?_) rfl (fun r' k' => ?_) (fun r' => ?_) (fun _ => .inl)
    (h.sound_exchange hf hmono fun hs => ⟨hs.emits, fun o ho r' items' hi' => ?_⟩) (fun _ => id)
    hmono (fun r' k' o hm => ?_) (fun _ _ => .inl)
  · rw [Pool.leaving, Pool.leaving, hf, Pool.move, sum_map_split, sum_map_split]
    rfl
  · rw [Pool.tok, Pool.tok, hf, Pool.move, sum_map_split, sum_map_split]
    rfl
  · rw [Pool.leaving, Pool.leaving, hf, Pool.move, sum_map_split, sum_map_split]
    exact le_rfl
  · obtain rfl := (List.cons.inj (hi.symm.trans hi')).1
    obtain rfl := Option.some.inj ho
    exact List.mem_append_right _ (List.mem_singleton_self _)
  · rcases List.mem_append.1 hm with hm | hm
    · exact h.moves r' k' o hm
    · obtain ⟨rfl, hm⟩ := Prod.mk.inj (List.mem_singleton.1 hm)
      obtain ⟨rfl, rfl⟩ := Prod.mk.inj hm
      exact ⟨a, s, hk.parse, hmove⟩

/-- Completing one kind of a record. -/
theorem Kept.complete {moves : List (ℕ × Kind × Outcome)} {tok : Kind → ℕ} {q : Parking}
    {s : Section} {o : Outcome} (hk : Kept dec moves tok r q s) (h1 : tok k = 1)
    (ho : (r, k, o) ∈ moves) :
    Kept dec moves (Function.update tok k 0) r (q.complete k o) s := by
  have hmem : k ∈ counted (dec r) s := hk.among k (by omega)
  obtain ⟨v, hv⟩ := Option.isSome_iff_exists.1 (mem_counted.1 hmem).2
  have hloc : q.sect.locators k = some v := (hk.same k (.inl (by omega))).trans hv
  have hcomplete : q.complete k o = ⟨{ q.sect with
      locators := Function.update q.sect.locators k (some (o.apply v)) }, q.pending - 1, true⟩ := by
    rw [Parking.complete, hloc]
  rw [hcomplete]
  have hne : ∀ k', Function.update tok k 0 k' ≠ 0 → k' ≠ k ∧ tok k' ≠ 0 := by
    intro k' hk'
    by_cases hkk : k' = k
    · subst hkk
      rw [Function.update_self] at hk'
      exact absurd rfl hk'
    · rw [Function.update_of_ne hkk] at hk'
      exact ⟨hkk, hk'⟩
  refine ⟨hk.parse, hk.nonempty, hk.archive, ?_, fun k' => ?_, fun k' hk' => ?_, fun k' hk' => ?_,
    hk.other, fun k' hmem' h0 => ?_, .inl rfl⟩
  · -- one token less
    obtain ⟨l₁, l₂, hsplit⟩ := List.append_of_mem hmem
    have hnodup := nodup_counted (dec r) s
    rw [hsplit] at hnodup
    have hnot : k ∉ l₁ ++ l₂ := fun hin => by
      rw [List.nodup_middle] at hnodup
      exact (List.nodup_cons.1 hnodup).1 hin
    have hsame : (l₁ ++ l₂).map (Function.update tok k 0) = (l₁ ++ l₂).map tok := by
      refine List.map_congr_left fun x hx => Function.update_of_ne ?_ _ _
      rintro rfl
      exact hnot hx
    have hpending := hk.pending
    rw [hsplit, sum_map_split, h1] at hpending
    change q.pending - 1 = _
    rw [hsplit, sum_map_split, Function.update_self, hsame]
    omega
  · by_cases hkk : k' = k
    · subst hkk
      rw [Function.update_self]
      omega
    · rw [Function.update_of_ne hkk]
      exact hk.once k'
  · exact hk.among k' (hne k' hk').2
  · have hkk : k' ≠ k := by
      rcases hk' with hk' | hk'
      · exact (hne k' hk').1
      · rintro rfl
        exact hk' hmem
    change Function.update q.sect.locators k _ k' = _
    rw [Function.update_of_ne hkk]
    exact hk.same k' (hk'.imp (fun hk' => (hne k' hk').2) id)
  · by_cases hkk : k' = k
    · subst hkk
      exact ⟨v, o, hv, ho, Function.update_self _ _ _⟩
    · rw [Function.update_of_ne hkk] at h0
      obtain ⟨v', o', hv', ho', hq'⟩ := hk.done k' hmem' h0
      refine ⟨v', o', hv', ho', ?_⟩
      change Function.update q.sect.locators k _ k' = _
      rw [Function.update_of_ne hkk]
      exact hq'

section

variable {f : Flush} {l₁ l₂ : List Flush} {items : List ℕ} {q : Parking} {o : Outcome}

/-- Completing an item takes one token. -/
theorem Pool.complete_tok (hf : p.flushes = l₁ ++ f :: l₂) (hi : f.items = r :: items) (r' : ℕ)
    (k' : Kind) : p.tok r' k' =
      (p.complete f r items q o l₁ l₂).tok r' k' + if r = r' ∧ f.kind = k' then 1 else 0 := by
  simp only [Pool.complete, Pool.tok, hf, sum_map_split, Flush.tok, hi, List.count_cons, beq_iff_eq]
  by_cases hr : r = r' <;> by_cases hkk : f.kind = k'
  all_goals
    simp only [hr, hkk, and_self, and_true, and_false, if_true, if_false]
    omega

/-- The record leaves when its last kind is completed. -/
theorem Pool.complete_leaving (hf : p.flushes = l₁ ++ f :: l₂) (he : f.emits = none) (r' : ℕ) :
    (p.complete f r items q o l₁ l₂).leaving r' =
      p.leaving r' + if r = r' ∧ (q.complete f.kind o).pending = 0 then 1 else 0 := by
  simp only [Pool.complete, Pool.leaving, hf, sum_map_split, Flush.leaves, he]
  by_cases h0 : (q.complete f.kind o).pending = 0 <;> by_cases hr : r = r'
  all_goals
    simp [h0, hr]
    try omega

theorem Pool.complete_waiting (hq : p.park r = some q) (hpos : q.pending ≠ 0) (r' : ℕ) :
    (p.complete f r items q o l₁ l₂).waiting r' +
      (if r = r' ∧ (q.complete f.kind o).pending = 0 then 1 else 0) = p.waiting r' := by
  by_cases hr : r' = r
  · subst hr
    simp only [Pool.complete, Pool.waiting, Function.update_self, hq, Option.elim_some, if_neg hpos]
    by_cases h0 : (q.complete f.kind o).pending = 0 <;> simp [h0]
  · simp only [Pool.complete, Pool.waiting, Function.update_of_ne hr]
    rw [if_neg fun h => hr h.1.symm, Nat.add_zero]

/-- The flushes after a completion: the one that completed emits the record if it is whole. -/
theorem Inv.sound_complete (h : Inv dec p) (hf : p.flushes = l₁ ++ f :: l₂) (hq : p.park r = some q)
    (hpos : q.pending ≠ 0) :
    ∀ g ∈ (p.complete f r items q o l₁ l₂).flushes,
      g.Sound (p.complete f r items q o l₁ l₂).park p.moves := by
  intro g hg
  rcases mem_exchange (f := f) hg with rfl | hg
  · refine ⟨fun r' he => ?_, by rintro o' ⟨⟩⟩
    change (if (q.complete f.kind o).pending = 0 then some r else none) = some r' at he
    split at he
    · next h0 =>
      obtain rfl := Option.some.inj he
      exact ⟨_, Function.update_self _ _ _, h0⟩
    · cases he
  · have hsound := h.flushes g (hf ▸ hg)
    refine ⟨fun r' he => ?_, hsound.result⟩
    obtain ⟨q', hq', h0⟩ := hsound.emits r' he
    have hr : r' ≠ r := by
      rintro rfl
      obtain rfl := Option.some.inj (hq.symm.trans hq')
      exact hpos h0
    exact ⟨q', (Function.update_of_ne hr _ _).trans hq', h0⟩

theorem Inv.complete (h : Inv dec p) (hf : p.flushes = l₁ ++ f :: l₂) (hi : f.items = r :: items)
    (he : f.emits = none) (ho : f.result = some o) (hq : p.park r = some q) :
    Inv dec (p.complete f r items q o l₁ l₂) := by
  have htok := Pool.complete_tok (q := q) (o := o) hf hi
  have hleaving : ∀ r', (p.complete f r items q o l₁ l₂).leaving r' = p.leaving r' +
      if r = r' ∧ (q.complete f.kind o).pending = 0 then 1 else 0 := Pool.complete_leaving hf he
  obtain ⟨s, hk⟩ := h.parked r q hq
  have h1 : p.tok r f.kind = 1 := by
    have hle := hk.once f.kind
    have := htok r f.kind
    rw [if_pos ⟨rfl, rfl⟩] at this
    omega
  have hpos : q.pending ≠ 0 := fun h0 => by
    have := (hk.whole h0).1 f.kind
    omega
  have hwait : ∀ r', (p.complete f r items q o l₁ l₂).waiting r' +
      (if r = r' ∧ (q.complete f.kind o).pending = 0 then 1 else 0) = p.waiting r' :=
    Pool.complete_waiting hq hpos
  -- Its one token of this kind is gone, and those of the other kinds stay.
  have hself : (p.complete f r items q o l₁ l₂).tok r = Function.update (p.tok r) f.kind 0 := by
    funext k'
    have := htok r k'
    by_cases hkk : f.kind = k'
    · subst hkk
      rw [if_pos ⟨rfl, rfl⟩] at this
      rw [Function.update_self]
      omega
    · rw [if_neg fun h => hkk h.2] at this
      rw [Function.update_of_ne (Ne.symm hkk)]
      omega
  have hmove : (r, f.kind, o) ∈ p.moves := (h.flushes f (by rw [hf]; simp)).result o ho r items hi
  refine h.repark rfl rfl rfl rfl rfl (fun r' hr' => ?_) (hself ▸ hk.complete h1 hmove)
    (fun r' => ?_) (fun r' => ?_) (fun h0 => ?_) (fun _ => id) (h.sound_complete hf hq hpos)
  · funext k'
    have := htok r' k'
    rw [if_neg fun h => hr' h.1.symm] at this
    omega
  · have hw := hwait r'
    rw [hleaving r']
    change p.jobs.count r' + _ + _ = _
    omega
  · rw [hleaving r']
    exact Nat.le_add_right _ _
  · rw [hleaving r, if_pos ⟨rfl, h0⟩]
    exact Nat.le_add_left _ _

end

/-- **One step.** -/
theorem inv_step (h : Inv dec p) (hs : Step cf dec p p') : Inv dec p' := by
  cases hs with
  | handle r hr ho => exact h.handle hr
  | take hj hw => exact h.taken hj
  | emitTask ht => exact h.emitTask ht
  | push ht => exact h.push ht
  | pushed ht => exact h.pushed ht
  | timer k _ => exact h.flushAll k fun _ _ => rfl
  | enter hf hlock => exact h.enter hf
  | move a hf hin hi he ho hq => exact h.move a hf hi hq
  | complete hf hi he ho hq => exact h.complete hf hi he ho hq
  | emit hf he hq => exact h.emit hf he hq
  | leave hf hi he => exact h.leave hf hi he
  | closeJobs ho => exact h.staged p.shut _
  | drained ho hj hw => exact h.staged p.shut _
  | shut ho hc => exact (h.staged _ _).flushAll _ fun _ _ => rfl
  | closed ho hc => exact h.staged p.shut _

/-- **Every run.** -/
theorem inv_reachable (h : Reachable cf dec p) : Inv dec p := by
  induction h with
  | refl => exact inv_new
  | tail _ hs ih => exact inv_step ih hs

/-! ### What is emitted -/

/-- The kind was moved, and its locator says what its own move came to: the address of its object, or
the reason of the failure. -/
def Answered (dec : ℕ → Decision) (p : Pool) (r : ℕ) (k : Kind) (l : Locator) : Prop :=
  ∃ o, (r, k, o) ∈ p.moves ∧
    (∃ a s, parseStore (dec r).raw = some s ∧ o = move a (dec r) s k) ∧ o.Says l ∧
    ∀ m, o = .moved m → ∃ day, m.object = objectName day (dec r) k

/-- Why a pool does not take a record. -/
def Pool.Refuses (cf : Conf) (p : Pool) (reason : Reason) : Prop :=
  (reason = .error ∧ cf.enabled = false) ∨
    (reason = .overload ∧ cf.enabled = true ∧ cf.queue ≤ p.jobs.length)

/-- The record was not taken, since the pool had no archive or its queue was full when it came. -/
def Refused (cf : Conf) (dec : ℕ → Decision) (p : Pool) (r : ℕ) (reason : Reason) : Prop :=
  ∃ p₀, Reachable cf dec p₀ ∧ r ∉ p₀.handled ∧ p₀.Refuses cf reason ∧
    Relation.ReflTransGen (Step cf dec) (p₀.handle cf dec r) p

theorem Pool.handle_turned (cf : Conf) (dec : ℕ → Decision) (p : Pool) (r : ℕ) :
    (p.handle cf dec r).turned = p.turned ∨
      ∃ reason, p.Refuses cf reason ∧ (p.handle cf dec r).turned = p.turned ++ [(r, reason)] := by
  unfold Pool.handle
  simp only
  split
  · exact .inl rfl
  · split
    · next he => exact .inr ⟨.error, .inl ⟨rfl, by simpa using he⟩, rfl⟩
    · next he =>
      split
      · exact .inl rfl
      · next hq => exact .inr ⟨.overload, .inr ⟨rfl, by simpa using he, not_lt.1 hq⟩, rfl⟩

/-- Only a call of `Handle` turns a record away. -/
theorem Step.turned (hs : Step cf dec p p') : p'.turned = p.turned ∨
    ∃ r reason, r ∉ p.handled ∧ p.Refuses cf reason ∧ p' = p.handle cf dec r ∧
      p'.turned = p.turned ++ [(r, reason)] := by
  cases hs with
  | handle r hr ho =>
    rcases p.handle_turned cf dec r with h | ⟨reason, hreason, h⟩
    · exact .inl h
    · exact .inr ⟨r, reason, hr, hreason, rfl, h⟩
  | take hj hw =>
    refine .inl ?_
    unfold Pool.taken
    split
    · rfl
    · split <;> rfl
  | push ht =>
    refine .inl ?_
    unfold Pool.push
    split
    · rfl
    · split <;> rfl
  | timer k ht =>
    refine .inl ?_
    unfold Pool.timer Pool.flushAll
    split <;> rfl
  | leave hf hi he =>
    refine .inl ?_
    unfold Pool.leave
    split <;> rfl
  | shut ho hc =>
    refine .inl ?_
    unfold Pool.shutOne Pool.flushAll
    split <;> rfl
  | emitTask ht => exact .inl rfl
  | pushed ht => exact .inl rfl
  | enter hf hlock => exact .inl rfl
  | move a hf hin hi he ho hq => exact .inl rfl
  | complete hf hi he ho hq => exact .inl rfl
  | emit hf he hq => exact .inl rfl
  | closeJobs ho => exact .inl rfl
  | drained ho hj hw => exact .inl rfl
  | closed ho hc => exact .inl rfl

theorem Refused.step {reason : Reason} (h : Refused cf dec p r reason) (hs : Step cf dec p p') :
    Refused cf dec p' r reason := by
  obtain ⟨p₀, hreach, hr, hwhy, hrun⟩ := h
  exact ⟨p₀, hreach, hr, hwhy, hrun.tail hs⟩

/-- **The reasons of the records that were not taken.** -/
theorem refused_of_turned (h : Reachable cf dec p) :
    ∀ r reason, (r, reason) ∈ p.turned → Refused cf dec p r reason := by
  induction h with
  | refl => rintro r reason ⟨⟩
  | @tail p p' hreach hs ih =>
    intro r reason ht
    rcases hs.turned with h | ⟨r', reason', hr, hwhy, rfl, h⟩
    · rw [h] at ht
      exact (ih r reason ht).step hs
    · rw [h] at ht
      rcases List.mem_append.1 ht with ht | ht
      · exact (ih r reason ht).step hs
      · obtain ⟨rfl, rfl⟩ := Prod.mk.inj (List.mem_singleton.1 ht)
        exact ⟨p, hreach, hr, hwhy, .refl⟩

/-- A record as it was emitted.  Its section stands as it came or is written anew, and in it every
kind counted for the record carries what its own move came to, or all of them say why the record was
not taken; the other kinds are as they were, or null if they had no locator, and so are the terms, a
limit that is not positive apart.  The members around the section are as they came. -/
structure Settled (cf : Conf) (dec : ℕ → Decision) (p : Pool) (r : ℕ) (rec : Record) : Prop where
  before : rec.before = (dec r).raw.before
  after : rec.after = (dec r).raw.after
  store : rec.store = (dec r).raw.store ∨ ∃ s' : Section, rec.store = .object s'.render
  unread : parseStore (dec r).raw = none → rec = (dec r).raw
  kinds : ∀ s, parseStore (dec r).raw = some s → ∃ s', parseStore rec = some s' ∧
    (s'.archive = s.archive ∨ s'.archive = fun k => (s.archive k).map Terms.rendered) ∧
    (∀ k, k ∉ counted (dec r) s → s'.locators k = s.locators k ∨
      (s.locators k = none ∧ s'.locators k = some .null)) ∧
    ((∀ k ∈ counted (dec r) s, ∃ l, s'.locators k = some (.object l) ∧ Answered dec p r k l) ∨
      ∃ reason, Refused cf dec p r reason ∧
        ∀ k ∈ counted (dec r) s, ∃ l, s'.locators k = some (.object l) ∧ l.Unavailable reason)

/-- A record whose section is written anew is settled if the new section is. -/
theorem settled_splice {s t : Section} (hs : parseStore (dec r).raw = some s)
    (harchive : t.archive = s.archive)
    (hother : ∀ k, k ∉ counted (dec r) s → t.locators k = s.locators k)
    (hkinds : (∀ k ∈ counted (dec r) s, ∃ l, t.locators k = some (.object l) ∧ Answered dec p r k l) ∨
      ∃ reason, Refused cf dec p r reason ∧
        ∀ k ∈ counted (dec r) s, ∃ l, t.locators k = some (.object l) ∧ l.Unavailable reason) :
    Settled cf dec p r (spliceStore (dec r).raw t.render) := by
  by_cases ha : (dec r).raw.store = .absent
  · -- there is no section to write, and nothing in it is counted
    have hcounted : counted (dec r) s = [] := by
      rw [parseStore_absent ha] at hs
      obtain rfl := Option.some.inj hs
      simp [counted, Section.none]
    rw [spliceStore_absent ha]
    refine ⟨rfl, rfl, .inl rfl, fun _ => rfl, fun s₁ hs₁ => ?_⟩
    obtain rfl := Option.some.inj (hs.symm.trans hs₁)
    refine ⟨s, hs, .inl rfl, fun _ _ => .inl rfl, .inl fun k hk => ?_⟩
    rw [hcounted] at hk
    cases hk
  · obtain ⟨hbefore, hafter⟩ := spliceStore_members (dec r).raw t.render
    refine ⟨hbefore, hafter, .inr ⟨t, ?_⟩, fun h => ?_, fun s₁ hs₁ => ?_⟩
    · exact spliceStore_store ha t.render
    · rw [hs] at h
      cases h
    obtain rfl := Option.some.inj (hs.symm.trans hs₁)
    refine ⟨t.reread, parseStore_splice ha t, .inr ?_, fun k hk => ?_, ?_⟩
    · simp only [Section.reread, harchive]
    · simp only [Section.reread, hother k hk]
      cases s.locators k with
      | none => exact .inr ⟨rfl, rfl⟩
      | some v => exact .inl rfl
    · have hreread : ∀ k l, t.locators k = some (.object l) →
          t.reread.locators k = some (.object l) := by
        intro k l hl
        simp only [Section.reread, hl, Option.getD_some]
      rcases hkinds with hall | ⟨reason, hwhy, hall⟩
      · refine .inl fun k hk => ?_
        obtain ⟨l, hl, hanswered⟩ := hall k hk
        exact ⟨l, hreread k l hl, hanswered⟩
      · refine .inr ⟨reason, hwhy, fun k hk => ?_⟩
        obtain ⟨l, hl, hunavailable⟩ := hall k hk
        exact ⟨l, hreread k l hl, hunavailable⟩

theorem Emitted.settled {rec : Record} (h : Emitted dec p.turned p.moves r rec)
    (hturned : ∀ reason, (r, reason) ∈ p.turned → Refused cf dec p r reason)
    (hm : ∀ r k o, (r, k, o) ∈ p.moves →
      ∃ a s, parseStore (dec r).raw = some s ∧ o = move a (dec r) s k) :
    Settled cf dec p r rec := by
  cases h with
  | plain hp =>
    refine ⟨rfl, rfl, .inl rfl, fun _ => rfl, fun s hs =>
      ⟨s, hs, .inl rfl, fun _ _ => .inl rfl, .inl fun k hk => ?_⟩⟩
    rw [hp s hs] at hk
    cases hk
  | @degraded reason ht =>
    unfold Retain.degraded
    cases hs : parseStore (dec r).raw with
    | none => exact ⟨rfl, rfl, .inl rfl, fun _ => rfl, fun s hs' => by rw [hs] at hs'; cases hs'⟩
    | some s =>
      refine settled_splice hs rfl (fun k hk => ?_) (.inr ⟨reason, hturned reason ht, fun k hk => ?_⟩)
      · simp only
        split
        · next ha =>
          have hnone : s.locators k = none := by
            by_contra hne
            exact hk (mem_counted.2 ⟨ha, Option.isSome_iff_ne_none.2 hne⟩)
          rw [hnone]
          rfl
        · rfl
      · obtain ⟨l, hl⟩ := object_of_mem_counted hs hk
        refine ⟨unreachable l reason.text, ?_, unreachable_unavailable l reason⟩
        simp only [(mem_counted.1 hk).1, if_true, hl, Option.map_some, Pool.mark]
  | @whole q s hk =>
    refine settled_splice hk.parse hk.archive (fun k hk' => hk.same k (.inr hk'))
      (.inl fun k hmem => ?_)
    obtain ⟨v, o, hv, ho, hq⟩ := hk.done k hmem rfl
    obtain ⟨l, hl⟩ := object_of_mem_counted hk.parse hmem
    obtain rfl := Option.some.inj (hv.symm.trans hl)
    obtain ⟨l', hl', hsays⟩ := o.says_apply l
    refine ⟨l', by rw [hq, hl'], o, ho, hm r k o ho, hsays, fun m hm' => ?_⟩
    obtain ⟨a, s', -, hmove⟩ := hm r k o ho
    exact ⟨a.day, move_object (hmove.symm.trans hm')⟩

/-- A record that is neither in the queue nor on its way has been emitted. -/
theorem Inv.outs_eq (h : Inv dec p) (hj : p.jobs.count r = 0) (htok : ∀ k, p.tok r k = 0)
    (hl : p.leaving r = 0) : p.outs r = p.handled.count r := by
  have hwait : p.waiting r = 0 := by
    cases hq : p.park r with
    | none => simp only [Pool.waiting, hq, Option.elim_none]
    | some q =>
      obtain ⟨s, hk⟩ := h.parked r q hq
      have h0 : q.pending = 0 := by
        rw [hk.pending, List.sum_eq_zero_iff]
        intro n hn
        obtain ⟨k, -, rfl⟩ := List.mem_map.1 hn
        exact htok k
      simp only [Pool.waiting, hq, Option.elim_some, if_pos h0]
  have hplace := h.place r
  omega

/-- A pool with nothing to do has emitted everything. -/
theorem Inv.all_out (h : Inv dec p) (hj : p.jobs = []) (ht : p.tasks = [])
    (hi : ∀ k, p.items k = []) (hf : p.flushes = []) (hr : r ∈ p.handled) : 1 ≤ p.outs r := by
  have htok : ∀ k, p.tok r k = 0 := by
    intro k
    rw [Pool.tok, ht, hi, hf]
    rfl
  have hleaving : p.leaving r = 0 := by
    rw [Pool.leaving, ht, hf]
    rfl
  rw [h.outs_eq (by rw [hj]; rfl) htok hleaving, List.count_eq_one_of_mem h.nodup hr]

/-- **Every record goes through retention once.**  In every state of a pool no record has been
emitted twice, the records that were emitted are settled, and when the queue and the baskets are
empty, no flush runs and no worker has a record in its hands, every record given to `Handle` has been
emitted. -/
theorem emitted_once (h : Reachable cf dec p) :
    (p.out.map Prod.fst).Nodup ∧
    (∀ r rec, (r, rec) ∈ p.out → r ∈ p.handled ∧ Settled cf dec p r rec) ∧
    (p.jobs = [] → p.tasks = [] → (∀ k, p.items k = []) → p.flushes = [] →
      ∀ r ∈ p.handled, ∃ rec, (r, rec) ∈ p.out) := by
  have hinv := inv_reachable h
  refine ⟨List.nodup_iff_count_le_one.2 fun r => ?_, fun r rec ho => ⟨?_, ?_⟩,
    fun hj ht hi hf r hr => ?_⟩
  · have := hinv.place_le r
    change p.outs r ≤ 1
    omega
  · have hpos : 1 ≤ p.outs r := List.count_pos_iff.2 (List.mem_map.2 ⟨(r, rec), ho, rfl⟩)
    have hplace := hinv.place r
    exact List.count_pos_iff.1 (by omega)
  · exact (hinv.out r rec ho).settled (refused_of_turned h r) hinv.moves
  · have hpos := hinv.all_out hj ht hi hf hr
    obtain ⟨⟨r', rec⟩, hmem, rfl⟩ := List.mem_map.1 (List.count_pos_iff.1 hpos)
    exact ⟨rec, hmem⟩

/-- One worker, a queue of one, and baskets that are flushed at once. -/
def oneWorker : Conf := ⟨true, 1, 1, fun _ => ⟨1, 0⟩⟩

/-- The store section of a record whose body is to be archived: it has no locators of the headers and
the arguments, an entry with a limit below zero, and a member that is not read. -/
def bodyFields : Fields where
  locators k := if k = .body then some (.object fun _ => none) else none
  archive := .entries (fun k => if k = .body then some ⟨⟨60, -1, [], [], [], []⟩, []⟩ else none) []
  others := [("x", .literal true)]

/-- A record with that section. -/
def bodyRecord : Decision where
  ray := "r"
  node := "n"
  phase := "request"
  ts := ""
  frameDirection := ""
  frameSeq := 0
  archive k := if k = .body then some ⟨60, -1, [], [], [], []⟩ else none
  archiveOther := false
  attached _ := none
  raw := ⟨[], .object bodyFields, []⟩
  objects := by
    rintro s hs k - v hv
    obtain rfl := Option.some.inj hs
    change (if k = .body then some (Raw.object fun _ => none) else none) = some v at hv
    split at hv
    · exact ⟨_, (Option.some.inj hv).symm⟩
    · cases hv

/-- The archive has taken the object. -/
def putAnswer : Answer := ⟨"bucket", .data [1], some [1], ([1], false), "2025/01/01", some 0⟩

/-- The run of a record whose body is moved: the pool before the worker pushes it, and at the end. -/
theorem body_run :
    (∃ p, Reachable oneWorker (fun _ => bodyRecord) p ∧ p.jobs = [] ∧ (∀ k, p.items k = []) ∧
      p.flushes = [] ∧ 0 ∈ p.handled ∧ p.out = []) ∧
    ∃ p f, Reachable oneWorker (fun _ => bodyRecord) p ∧ p.out = [(0, ⟨[], .object f, []⟩)] ∧
      f.others = [] ∧ f.locators .headers = some .null ∧
      f.archive.parse.map (fun a => a.1 .body) = some (some ⟨60, 0, [], [], [], []⟩) := by
  have h1 : Reachable oneWorker (fun _ => bodyRecord)
      (Pool.new.handle oneWorker (fun _ => bodyRecord) 0) :=
    .tail .refl (.handle 0 (by decide) rfl)
  have h2 := Relation.ReflTransGen.tail h1 (@Step.take _ _ _ 0 [] rfl (by decide))
  refine ⟨⟨_, h2, rfl, fun k => rfl, rfl, by decide, rfl⟩, ?_⟩
  have h3 := Relation.ReflTransGen.tail h2 (@Step.push _ _ _ 0 .body [] [] [] rfl)
  have h4 := Relation.ReflTransGen.tail h3 (@Step.enter _ _ _ _ [] [] rfl (by decide))
  have h5 := Relation.ReflTransGen.tail h4
    (@Step.move _ _ _ _ [] [] 0 [] _ putAnswer rfl rfl rfl rfl rfl rfl)
  have h6 := Relation.ReflTransGen.tail h5 (@Step.complete _ _ _ _ [] [] 0 [] _ _ rfl rfl rfl rfl rfl)
  have h7 := Relation.ReflTransGen.tail h6 (@Step.emit _ _ _ _ [] [] 0 _ rfl rfl rfl)
  exact ⟨_, _, h7, rfl, rfl, rfl, rfl⟩

/-- The worker has taken the record from the queue and not pushed it yet; and in the record that is
emitted in the end a member of the section is gone, the headers have a null locator and the limit is
gone. -/
theorem taken_not_emitted :
    (∃ p, Reachable oneWorker (fun _ => bodyRecord) p ∧ p.jobs = [] ∧ (∀ k, p.items k = []) ∧
      p.flushes = [] ∧ 0 ∈ p.handled ∧ p.out = []) ∧
    bodyRecord.raw.store = .object bodyFields ∧ bodyFields.others = [("x", .literal true)] ∧
    bodyFields.locators .headers = none ∧
    bodyFields.archive.parse.map (fun a => a.1 .body) = some (some ⟨60, -1, [], [], [], []⟩) ∧
    ∃ p f, Reachable oneWorker (fun _ => bodyRecord) p ∧ p.out = [(0, ⟨[], .object f, []⟩)] ∧
      f.others = [] ∧ f.locators .headers = some .null ∧
      f.archive.parse.map (fun a => a.1 .body) = some (some ⟨60, 0, [], [], [], []⟩) :=
  ⟨body_run.1, rfl, rfl, rfl, rfl, body_run.2⟩

theorem emitted_once_body : ∃ p rec, Reachable oneWorker (fun _ => bodyRecord) p ∧
    p.out = [(0, rec)] ∧ Settled oneWorker (fun _ => bodyRecord) p 0 rec := by
  obtain ⟨p, f, h, hout, -⟩ := body_run.2
  exact ⟨p, _, h, hout, ((emitted_once h).2.1 0 _ (by rw [hout]; exact List.mem_singleton_self _)).2⟩

end Retain
