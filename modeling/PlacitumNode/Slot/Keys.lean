import PlacitumNode.Lib.Run
import PlacitumNode.Slot.Table

/-!
# Store keys of different requests

Workers of one node share the store, and a stored object is named by the node id, the request id
and tags.  Within one worker a generation is used once in `2 ^ 40 - 1` acquisitions, so the request
id names the acquisition.  Between workers nothing but the start of the sequence tells the
generations apart, and the start is the process id in the low bits under eight random ones: two
workers whose starts are closer than the number of slots they acquire use the same generations
(`keys_collide`).  When every two starts are far enough apart (`lead`), no two requests ever
compute the same key (`keys_distinct`).

* `Op`, `World`, `step`: any interleaving of the workers' slot operations and placements;
* `acquired`: how many slots a worker acquires in a run;
* `Owned`: the invariant, every generation in use belongs to one acquisition of one request.
-/

namespace Slots

open Octets Run

/-! ### Generations -/

/-- The generation of the `k`-th acquisition (from zero) of a sequence that starts at `s`. -/
def genAt (s k : ℕ) : ℕ := (s + k) % (2 ^ 40 - 1) + 1

/-- The sequence after `n` acquisitions. -/
def seqAfter (s : ℕ) : ℕ → ℕ
  | 0 => s
  | n + 1 => genAt s n

/-- How many generations the start `s` is behind the start `s'`. -/
def lead (s s' : ℕ) : ℕ := (s' % (2 ^ 40 - 1) + (2 ^ 40 - 1) - s % (2 ^ 40 - 1)) % (2 ^ 40 - 1)

theorem and_genMask (n : ℕ) : n &&& genMask = n % 2 ^ 40 := Nat.and_two_pow_sub_one_eq_mod n 40

theorem seqStart_lt (random pid : ℕ) : seqStart random pid < 2 ^ 40 := by
  rw [seqStart, and_genMask]
  exact Nat.mod_lt _ (by norm_num)

theorem nextGen_eq {s : ℕ} (h : s < 2 ^ 40) : nextGen s = s % (2 ^ 40 - 1) + 1 := by
  unfold nextGen
  simp only [and_genMask]
  split_ifs <;> omega

theorem genAt_lt (s k : ℕ) : genAt s k < 2 ^ 40 := by unfold genAt; omega

theorem seqAfter_lt {s : ℕ} (h : s < 2 ^ 40) (n : ℕ) : seqAfter s n < 2 ^ 40 := by
  cases n with
  | zero => exact h
  | succ n => exact genAt_lt s n

/-- The next generation of the sequence. -/
theorem nextGen_seqAfter {s : ℕ} (h : s < 2 ^ 40) (n : ℕ) : nextGen (seqAfter s n) = genAt s n := by
  rw [nextGen_eq (seqAfter_lt h n)]
  cases n with
  | zero => rfl
  | succ n =>
    simp only [seqAfter, genAt]
    omega

theorem genAt_injective {s k k' : ℕ} (hk : k < 2 ^ 32) (hk' : k' < 2 ^ 32)
    (h : genAt s k = genAt s k') : k = k' := by
  unfold genAt at h
  omega

/-- Sequences that are far enough apart share no generation. -/
theorem genAt_ne_of_lead {s s' n n' k k' : ℕ} (hn : n < 2 ^ 32) (hn' : n' < 2 ^ 32)
    (h : n ≤ lead s s') (h' : n' ≤ lead s' s) (hk : k < n) (hk' : k' < n') :
    genAt s k ≠ genAt s' k' := by
  unfold genAt lead at *
  omega

/-- A request id made at the generation `g`. -/
def Made (g rid : ℕ) : Prop := rid < 2 ^ 64 ∧ rid / 2 ^ 24 = g

theorem made_rid {g index : ℕ} (hg : g < 2 ^ 40) (hi : index ≤ indexMask) :
    Made g ((g <<< indexBits) ||| index) := by
  have hi' : index < 2 ^ 24 := by
    unfold indexMask indexBits at hi
    omega
  rw [indexBits, ← Nat.shiftLeft_add_eq_or_of_lt hi', Nat.shiftLeft_eq]
  constructor <;> omega

/-! ### One worker -/

section Worker

variable {ρ : Type*} [DecidableEq ρ]

/-- An operation of a worker on one of its slots or requests. -/
inductive Op (ρ : Type*)
  | ensure (r : ρ) (cleanup : Bool)
  | release (index : ℕ)
  | detach (r : ρ)
  | drop (r : ρ)
  | enter (r : ρ) (phase : Phase)
  | place (r : ρ) (obj : Obj)

/-- What an operation does to the worker. -/
def Op.run (w : Worker ρ) : Op ρ → Worker ρ
  | ensure r cleanup => (ensureSlot w r cleanup).2
  | release index => slotRelease w index
  | detach r => slotDetach w r
  | drop r => slotDrop w r
  | enter r phase => { w with ctx := Function.update w.ctx r { w.ctx r with phase := phase } }
  | place _ _ => w

/-- The operation acquires a slot, that is takes a generation. -/
def Op.acquires (w : Worker ρ) : Op ρ → Bool
  | ensure r _ => (w.ctx r).slot = none ∧ w.freeHead ≠ none
  | _ => false

/-- Every generation in use belongs to one acquisition: `n` acquisitions were made by a worker that
started at `s`, and `owner` names the request that made each of them. -/
structure Owned (s n : ℕ) (owner : ℕ → Option ρ) (w : Worker ρ) : Prop where
  seq : w.seq = seqAfter s n
  head : ∀ i, w.freeHead = some i → i ≤ indexMask
  next : ∀ j i, (w.slots j).nextFree = some i → i ≤ indexMask
  busy : ∀ j, (w.slots j).gen ≠ 0 → j ≤ indexMask
  held : ∀ r, (w.ctx r).slot ≠ none →
    (w.ctx r).ridHex = ridHex (w.ctx r).rid ∧
      ∃ k < n, owner k = some r ∧ Made (genAt s k) (w.ctx r).rid

variable {s n : ℕ} {owner : ℕ → Option ρ} {w : Worker ρ}

omit [DecidableEq ρ] in
theorem owned_init {nslots random pid : ℕ} (h : slotTableInit nslots random pid = some w) :
    Owned (seqStart random pid) 0 (fun _ => none) w := by
  unfold slotTableInit at h
  split_ifs at h with hn
  cases h
  push Not at hn
  refine ⟨rfl, ?_, ?_, ?_, ?_⟩
  · intro i hi
    cases hi
    exact Nat.zero_le _
  · intro j i hi
    simp only [freeTable] at hi
    split_ifs at hi with hj
    cases hi
    omega
  · intro j hj
    exact absurd rfl hj
  · intro r hr
    exact absurd rfl hr

theorem owned_setSlot_none (h : Owned s n owner w) (r : ρ) : Owned s n owner (w.setSlot r none) := by
  refine ⟨h.seq, h.head, h.next, h.busy, fun r' hr' => ?_⟩
  by_cases hr : r' = r
  · subst hr
    simp [Worker.setSlot] at hr'
  · simp only [Worker.setSlot, Function.update_of_ne hr] at hr' ⊢
    exact h.held r' hr'

omit [DecidableEq ρ] in
/-- Putting a slot of the table at the head of the free list. -/
theorem owned_free {w' : Worker ρ} {index : ℕ} (h : Owned s n owner w') (hi : index ≤ indexMask) :
    Owned s n owner
      { w' with
        slots := Function.update w'.slots index ⟨0, w'.freeHead, none⟩
        freeHead := some index } := by
  refine ⟨h.seq, ?_, ?_, ?_, h.held⟩
  · intro i hi'
    cases hi'
    exact hi
  · intro j i hj
    by_cases hji : j = index
    · subst hji
      simp only [Function.update_self] at hj
      exact h.head i hj
    · simp only [Function.update_of_ne hji] at hj
      exact h.next j i hj
  · intro j hj
    by_cases hji : j = index
    · exact hji ▸ hi
    · simp only [Function.update_of_ne hji] at hj
      exact h.busy j hj

theorem owned_release (h : Owned s n owner w) (index : ℕ) :
    Owned s n owner (slotRelease w index) := by
  unfold slotRelease
  simp only
  by_cases hg : (w.slots index).gen = 0
  · rwa [if_pos hg]
  · rw [if_neg hg]
    refine owned_free ?_ (h.busy index hg)
    split
    · split_ifs
      · exact owned_setSlot_none h _
      · exact h
    · exact h

/-- An acquisition is recorded under the request that made it. -/
theorem owned_acquire (hs : s < 2 ^ 40) (h : Owned s n owner w) (r : ρ) (cleanup : Bool)
    (hfree : w.freeHead ≠ none) :
    Owned s (n + 1) (Function.update owner n (some r)) (slotAcquire w r cleanup).2 := by
  obtain ⟨index, hindex⟩ := Option.ne_none_iff_exists'.1 hfree
  have hle := h.head index hindex
  have hgen : nextGen w.seq = genAt s n := by rw [h.seq, nextGen_seqAfter hs]
  -- the state before the cleanup is registered
  have htaken : Owned s (n + 1) (Function.update owner n (some r))
      { w with
        freeHead := (w.slots index).nextFree
        seq := nextGen w.seq
        slots := Function.update w.slots index ⟨nextGen w.seq, none, some r⟩
        ctx := Function.update w.ctx r
          { w.ctx r with
            slot := some index
            rid := (nextGen w.seq <<< indexBits) ||| index
            ridHex := ridHex ((nextGen w.seq <<< indexBits) ||| index) } } := by
    refine ⟨hgen, fun i hi => h.next index i hi, ?_, ?_, ?_⟩
    · intro j i hj
      by_cases hji : j = index
      · subst hji
        simp at hj
      · simp only [Function.update_of_ne hji] at hj
        exact h.next j i hj
    · intro j hj
      by_cases hji : j = index
      · exact hji ▸ hle
      · simp only [Function.update_of_ne hji] at hj
        exact h.busy j hj
    · intro r' hr'
      by_cases hr : r' = r
      · subst hr
        simp only [Function.update_self]
        refine ⟨trivial, n, Nat.lt_succ_self n, Function.update_self .., ?_⟩
        rw [hgen]
        exact made_rid (genAt_lt s n) hle
      · simp only [Function.update_of_ne hr] at hr' ⊢
        obtain ⟨hhex, k, hk, hown, hmade⟩ := h.held r' hr'
        refine ⟨hhex, k, Nat.lt_succ_of_lt hk, ?_, hmade⟩
        rw [Function.update_of_ne (Nat.ne_of_lt hk)]
        exact hown
  unfold slotAcquire
  simp only [hindex]
  split_ifs
  · exact htaken
  · exact owned_release htaken index

/-- **One operation.** It either takes the next generation for a request or takes none. -/
theorem owned_run (hs : s < 2 ^ 40) (h : Owned s n owner w) (op : Op ρ) :
    ∃ owner', (∀ k < n, owner' k = owner k) ∧
      Owned s (n + if op.acquires w then 1 else 0) owner' (op.run w) := by
  by_cases hacq : op.acquires w = true
  · rw [if_pos hacq]
    cases op with
    | ensure r cleanup =>
      simp only [Op.acquires, decide_eq_true_eq] at hacq
      refine ⟨Function.update owner n (some r),
        fun k hk => Function.update_of_ne (Nat.ne_of_lt hk) _ _, ?_⟩
      simp only [Op.run, ensureSlot, hacq.1, ne_eq, not_true_eq_false, if_false]
      exact owned_acquire hs h r cleanup hacq.2
    | _ => simp [Op.acquires] at hacq
  · rw [if_neg hacq, Nat.add_zero]
    refine ⟨owner, fun k _ => rfl, ?_⟩
    cases op with
    | ensure r cleanup =>
      simp only [Op.acquires, decide_eq_true_eq, not_and, not_not] at hacq
      simp only [Op.run, ensureSlot]
      split_ifs with hslot
      · exact h
      · rw [not_not] at hslot
        simp only [slotAcquire, hacq hslot]
        exact h
    | release index => exact owned_release h index
    | detach r =>
      simp only [Op.run, slotDetach]
      split
      · exact h
      · split_ifs
        · exact h
        · exact owned_setSlot_none (owned_release h _) r
        · exact owned_setSlot_none h r
    | drop r =>
      simp only [Op.run, slotDrop]
      split_ifs
      · exact h
      · split
        · exact owned_setSlot_none (owned_release h _) r
        · exact owned_setSlot_none h r
    | enter r phase =>
      refine ⟨h.seq, h.head, h.next, h.busy, fun r' hr' => ?_⟩
      by_cases hr : r' = r
      · subst hr
        simp only [Op.run, Function.update_self] at hr' ⊢
        exact h.held r' hr'
      · simp only [Op.run, Function.update_of_ne hr] at hr' ⊢
        exact h.held r' hr'
    | place r obj => exact h

end Worker

/-! ### The workers of a node -/

section World

variable {ι ρ : Type*} [DecidableEq ι] [DecidableEq ρ]

/-- An object placed in the store: who placed it and under which key. -/
structure Placed (ι ρ : Type*) where
  worker : ι
  req : ρ
  key : Bytes

/-- The workers `ι` of a node and everything they have placed. -/
structure World (ι ρ : Type*) where
  worker : ι → Worker ρ
  store : List (Placed ι ρ)

/-- One worker makes an operation.  A request places an object only while it holds its slot. -/
def step (nodeId : Bytes) (W : World ι ρ) (e : ι × Op ρ) : World ι ρ :=
  { worker := Function.update W.worker e.1 (e.2.run (W.worker e.1))
    store := match e.2 with
      | .place r obj =>
        if ((W.worker e.1).ctx r).slot ≠ none then
          ⟨e.1, r, bodyKey nodeId ((W.worker e.1).ctx r) obj.suffix⟩ :: W.store
        else W.store
      | _ => W.store }

/-- The number of slots the worker `i` acquires in a run. -/
def acquired (nodeId : Bytes) (i : ι) : World ι ρ → List (ι × Op ρ) → ℕ
  | _, [] => 0
  | W, e :: es =>
    (if e.1 = i ∧ e.2.acquires (W.worker i) then 1 else 0) + acquired nodeId i (step nodeId W e) es

/-- Each worker's generations are owned, and each stored key carries one of its placer's. -/
def Inv (nodeId : Bytes) (start n : ι → ℕ) (owner : ι → ℕ → Option ρ) (W : World ι ρ) : Prop :=
  (∀ i, Owned (start i) (n i) (owner i) (W.worker i)) ∧
    ∀ p ∈ W.store, ∃ k < n p.worker, owner p.worker k = some p.req ∧
      ∃ rid, Made (genAt (start p.worker) k) rid ∧ nodeId ++ [58] ++ ridHex rid <+: p.key

variable {nodeId : Bytes} {start n : ι → ℕ} {owner : ι → ℕ → Option ρ} {W : World ι ρ}

omit [DecidableEq ι] [DecidableEq ρ] in
/-- A placement names the generation its request holds. -/
theorem placed_key (h : ∀ i, Owned (start i) (n i) (owner i) (W.worker i)) {i : ι} {r : ρ}
    (hslot : ((W.worker i).ctx r).slot ≠ none) (suffix : Bytes) :
    ∃ k < n i, owner i k = some r ∧ ∃ rid, Made (genAt (start i) k) rid ∧
      nodeId ++ [58] ++ ridHex rid <+: bodyKey nodeId ((W.worker i).ctx r) suffix := by
  obtain ⟨hhex, k, hk, hown, hmade⟩ := (h i).held r hslot
  refine ⟨k, hk, hown, _, hmade, ?_⟩
  rw [← hhex]
  unfold bodyKey
  simp only [List.append_assoc, List.prefix_append_right_inj, List.prefix_append]

theorem inv_step (hs : ∀ i, start i < 2 ^ 40) (h : Inv nodeId start n owner W) (e : ι × Op ρ) :
    ∃ owner', Inv nodeId start
      (fun i => n i + if e.1 = i ∧ e.2.acquires (W.worker i) then 1 else 0) owner'
      (step nodeId W e) := by
  obtain ⟨i, op⟩ := e
  obtain ⟨how, hstore⟩ := h
  obtain ⟨owner', hold, hrun⟩ := owned_run (hs i) (how i) op
  have hle : ∀ j, n j ≤ n j + if i = j ∧ op.acquires (W.worker j) then 1 else 0 :=
    fun j => Nat.le_add_right _ _
  have hkeep : ∀ j, ∀ k < n j, Function.update owner i owner' j k = owner j k := by
    intro j k hk
    by_cases hj : j = i
    · subst hj
      rw [Function.update_self, hold k hk]
    · rw [Function.update_of_ne hj]
  refine ⟨Function.update owner i owner', ?_, ?_⟩
  · intro j
    by_cases hj : j = i
    · subst hj
      simpa [step] using hrun
    · simpa [step, Function.update_of_ne hj, Ne.symm hj] using how j
  · have hold' : ∀ p : Placed ι ρ, (∃ k < n p.worker, owner p.worker k = some p.req ∧
        ∃ rid, Made (genAt (start p.worker) k) rid ∧ nodeId ++ [58] ++ ridHex rid <+: p.key) →
        ∃ k < n p.worker + if i = p.worker ∧ op.acquires (W.worker p.worker) then 1 else 0,
          Function.update owner i owner' p.worker k = some p.req ∧
            ∃ rid, Made (genAt (start p.worker) k) rid ∧
              nodeId ++ [58] ++ ridHex rid <+: p.key := by
      rintro p ⟨k, hk, hown, hrid⟩
      exact ⟨k, lt_of_lt_of_le hk (hle _), (hkeep _ k hk).trans hown, hrid⟩
    intro p hp
    apply hold'
    simp only [step] at hp
    split at hp
    · split_ifs at hp with hslot
      · rcases List.mem_cons.1 hp with rfl | hp
        · exact placed_key how hslot _
        · exact hstore p hp
      · exact hstore p hp
    · exact hstore p hp

theorem inv_run (hs : ∀ i, start i < 2 ^ 40) (es : List (ι × Op ρ)) :
    ∀ {W : World ι ρ} {n : ι → ℕ} {owner : ι → ℕ → Option ρ}, Inv nodeId start n owner W →
      ∃ owner', Inv nodeId start (fun i => n i + acquired nodeId i W es) owner'
        (runFrom (step nodeId) W es) := by
  induction es with
  | nil => intro W n owner h; exact ⟨owner, by simpa [acquired] using h⟩
  | cons e es ih =>
    intro W n owner h
    obtain ⟨owner₁, h₁⟩ := inv_step hs h e
    obtain ⟨owner₂, h₂⟩ := ih h₁
    refine ⟨owner₂, ?_⟩
    simpa only [acquired, runFrom_cons, Nat.add_assoc] using h₂

/-- Keys that begin with a request id each name it. -/
theorem rid_of_key {key : Bytes} {g g' rid rid' : ℕ} (hm : Made g rid) (hm' : Made g' rid')
    (h : nodeId ++ [58] ++ ridHex rid <+: key) (h' : nodeId ++ [58] ++ ridHex rid' <+: key) :
    g = g' := by
  have heq : ridHex rid = ridHex rid' := by
    have := List.prefix_of_prefix_length_le h h' (by simp [ridHex])
    have := this.eq_of_length (by simp [ridHex])
    exact List.append_cancel_left this
  have hrid : rid = rid' :=
    hexField_injective (n := 16) (by have := hm.1; norm_num at this ⊢; exact this)
      (by have := hm'.1; norm_num at this ⊢; exact this) heq
  rw [← hm.2, ← hm'.2, hrid]

/-- **Objects of different requests never share a key** in a run in which every worker acquires
fewer than `2 ^ 32` slots and no worker acquires more slots than its sequence starts before the
sequence of another worker that acquires any. -/
theorem keys_distinct (nodeId : Bytes) (nslots random pid : ι → ℕ) (init : ι → Worker ρ)
    (es : List (ι × Op ρ))
    (hinit : ∀ i, slotTableInit (nslots i) (random i) (pid i) = some (init i))
    (hfew : ∀ i, acquired nodeId i ⟨init, []⟩ es < 2 ^ 32)
    (hapart : ∀ i j, i ≠ j → 0 < acquired nodeId j ⟨init, []⟩ es →
      acquired nodeId i ⟨init, []⟩ es ≤
        lead (seqStart (random i) (pid i)) (seqStart (random j) (pid j))) :
    ∀ p ∈ (runFrom (step nodeId) ⟨init, []⟩ es).store,
      ∀ q ∈ (runFrom (step nodeId) ⟨init, []⟩ es).store,
        (p.worker, p.req) ≠ (q.worker, q.req) → p.key ≠ q.key := by
  have h0 : Inv nodeId (fun i => seqStart (random i) (pid i)) (fun _ => 0) (fun _ _ => none)
      (⟨init, []⟩ : World ι ρ) :=
    ⟨fun i => owned_init (hinit i), fun p hp => absurd hp List.not_mem_nil⟩
  obtain ⟨owner, -, hstore⟩ := inv_run (fun i => seqStart_lt _ _) es h0
  simp only [Nat.zero_add] at hstore
  intro p hp q hq hne hkey
  obtain ⟨k, hk, hown, rid, hmade, hpre⟩ := hstore p hp
  obtain ⟨k', hk', hown', rid', hmade', hpre'⟩ := hstore q hq
  rw [← hkey] at hpre'
  have hgen := rid_of_key hmade hmade' hpre hpre'
  by_cases hw : p.worker = q.worker
  · rw [hw] at hk hown hgen
    have hkk := genAt_injective (hk.trans (hfew _)) (hk'.trans (hfew _)) hgen
    rw [hkk, hown'] at hown
    apply hne
    rw [hw, Option.some.inj hown]
  · exact genAt_ne_of_lead (hfew _) (hfew _) (hapart _ _ hw (Nat.zero_lt_of_lt hk'))
      (hapart _ _ (Ne.symm hw) (Nat.zero_lt_of_lt hk)) hk hk' hgen

/-- Worker 0 serves two requests one after the other, worker 1 serves one. -/
def threeRequests : List (Fin 2 × Op (Fin 2)) :=
  [(0, .ensure 0 true), (0, .place 0 .body), (0, .drop 0), (0, .ensure 1 true), (0, .place 1 .body),
    (1, .ensure 0 true), (1, .place 0 .body)]

/-- Two workers with the process ids 100 and 101 whose random numbers differ in the low byte. -/
def strangers : World (Fin 2) (Fin 2) := ⟨fun i => freeTable 1 i.val (100 + i.val), []⟩

theorem strangers_store_ne :
    (runFrom (step (ascii "edge-01")) strangers threeRequests).store ≠ [] := by
  decide +kernel

theorem keys_distinct_strangers :
    ∃ p ∈ (runFrom (step (ascii "edge-01")) strangers threeRequests).store,
      ∃ q ∈ (runFrom (step (ascii "edge-01")) strangers threeRequests).store,
        (p.worker, p.req) ≠ (q.worker, q.req) ∧ p.key ≠ q.key := by
  have hwho : ((List.head _ strangers_store_ne).worker, (List.head _ strangers_store_ne).req) ≠
      ((List.getLast _ strangers_store_ne).worker, (List.getLast _ strangers_store_ne).req) := by
    decide +kernel
  have hne := strangers_store_ne
  refine ⟨_, List.head_mem hne, _, List.getLast_mem hne, hwho, ?_⟩
  exact keys_distinct (ascii "edge-01") (fun _ => 1) (fun i => i.val) (fun i => 100 + i.val)
    strangers.worker threeRequests (by intro i; simp [slotTableInit, indexMask, indexBits, strangers])
    (by decide +kernel) (by decide +kernel) _ (List.head_mem hne) _ (List.getLast_mem hne) hwho

/-- Two workers with the same random number and the process ids 100 and 101. -/
def neighbours : World (Fin 2) (Fin 2) := ⟨fun i => freeTable 1 7 (100 + i.val), []⟩

/-- Worker 0 serves two requests one after the other and worker 1 serves one: the second request of
the one and the request of the other store their bodies under one key. -/
theorem keys_collide :
    (∀ i, acquired (ascii "edge-01") i neighbours threeRequests < 2 ^ 32) ∧
      ∃ p ∈ (runFrom (step (ascii "edge-01")) neighbours threeRequests).store,
        ∃ q ∈ (runFrom (step (ascii "edge-01")) neighbours threeRequests).store,
          (p.worker, p.req) ≠ (q.worker, q.req) ∧ p.key = q.key := by
  constructor
  · decide +kernel
  · decide +kernel

end World

end Slots
