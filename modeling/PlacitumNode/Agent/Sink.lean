import PlacitumNode.Lib.Octets
import PlacitumNode.Lib.Run

/-!
# The audit sink of the agent (`agent/internal/audit/sink.go`)

Records are added to a queue from many goroutines. One goroutine takes the head of the queue, groups it
by node and hands each group to the bus, while records go on to be added. The queue lives in one
backing array that is compacted in place.

* `Slice`: a slice over its backing array, with the list it stands for;
* `Sink.add`, `Sink.take`, `publish`, `groupByNode`: the code, one critical section each;
* `State.step`: the interleavings of additions with the steps of the flushing goroutine;
* `State.Conserved`, `conserved_run`: what was added is dropped, pending or handed over, once and in
  order;
* `sink_conserves`, `batch_within_budget_iff`: the queue loses nothing, and when its batches keep to the
  budget.
-/

namespace Audit

open Octets Run

/-! ### Slices -/

/-- A slice at the front of its backing array. -/
structure Slice (α : Type*) where
  array : List α
  len : ℕ
  le : len ≤ array.length

namespace Slice

variable {α : Type*}

/-- The elements. -/
def view (s : Slice α) : List α := s.array.take s.len

theorem length_view (s : Slice α) : s.view.length = s.len := by
  rw [view, List.length_take, min_eq_left s.le]

def nil : Slice α := ⟨[], 0, Nat.zero_le _⟩

/-- `append(s, x)`: in place when the array has room, else in a new array. -/
def push (s : Slice α) (x : α) : Slice α where
  array := s.view ++ x :: s.array.drop (s.len + 1)
  len := s.len + 1
  le := by
    rw [List.length_append, List.length_cons, length_view]
    omega

/-- `append(s[:0], s[n:]...)`: the elements from the `n`-th on move to the front of the same array. -/
def shift (s : Slice α) (n : ℕ) : Slice α where
  array := s.view.drop n ++ s.array.drop (s.len - n)
  len := s.len - n
  le := by
    rw [List.length_append, List.length_drop, length_view]
    omega

@[simp] theorem view_nil : (nil : Slice α).view = [] := rfl

@[simp] theorem view_push (s : Slice α) (x : α) : (s.push x).view = s.view ++ [x] := by
  have hlen : (s.view ++ [x]).length = s.len + 1 := by
    rw [List.length_append, length_view, List.length_singleton]
  rw [view, push]
  dsimp only
  rw [← List.singleton_append, ← List.append_assoc, List.take_left' hlen]

@[simp] theorem view_shift (s : Slice α) (n : ℕ) : (s.shift n).view = s.view.drop n := by
  have hlen : (s.view.drop n).length = s.len - n := by rw [List.length_drop, length_view]
  rw [view, shift]
  dsimp only
  exact List.take_left' hlen

end Slice

/-! ### The sink -/

def maxItems : ℕ := 256

def maxSize : ℕ := 512 <<< 10

def maxPending : ℕ := 50000

/-- `item` -/
structure Item where
  node : Bytes
  body : Bytes
  deriving DecidableEq

/-- `sizeOf` -/
def sizeOf (items : List Item) : ℕ := items.foldl (fun n it => n + (it.body.length + 2)) 0

/-- The fields of `Sink` under its mutex. -/
structure Sink where
  pending : Slice Item
  size : ℕ
  dropped : ℕ

/-- The critical section of `Sink.Add`; the answer is `full`. -/
def Sink.add (s : Sink) (it : Item) : Sink × Bool :=
  let pending := s.pending.push it
  let size := s.size + (it.body.length + 2)
  let s : Sink :=
    if pending.len > maxPending then
      let cut := pending.len - maxPending
      let pending := pending.shift cut
      ⟨pending, sizeOf pending.view, s.dropped + cut⟩
    else ⟨pending, size, s.dropped⟩
  (s, decide (s.pending.len ≥ maxItems) || decide (s.size ≥ maxSize))

/-- The critical section of `Sink.flush`: the head of the queue in an array of its own, unless the queue
is empty. -/
def Sink.take (s : Sink) : Option (List Item × Sink) :=
  if s.pending.len = 0 then none
  else
    let n := if s.pending.len > maxItems then maxItems else s.pending.len
    let pending := s.pending.shift n
    some (s.pending.view.take n, { s with pending := pending, size := sizeOf pending.view })

/-- The loop of `groupByNode`: the nodes in order of appearance, and the items of each. -/
def groupLoop (groups : List Bytes × (Bytes → List Item)) (it : Item) :
    List Bytes × (Bytes → List Item) :=
  let order := if it.node ∈ groups.1 then groups.1 else groups.1 ++ [it.node]
  (order, Function.update groups.2 it.node (groups.2 it.node ++ [it]))

/-- `groupByNode` -/
def groupByNode (items : List Item) : List Bytes × (Bytes → List Item) :=
  items.foldl groupLoop ([], fun _ => [])

/-- The calls of `Sink.send` that `Sink.publish` makes. -/
def publish (items : List Item) : List (Bytes × List Item) :=
  match items with
  | [it] => [(it.node, [it])]
  | _ =>
    let groups := groupByNode items
    groups.1.map fun node => (node, groups.2 node)

theorem groupByNode_eq (items : List Item) :
    (∀ node, (groupByNode items).2 node = items.filter fun it => it.node = node) ∧
      (groupByNode items).1.Nodup ∧
      ∀ node, node ∈ (groupByNode items).1 ↔ ∃ it ∈ items, it.node = node := by
  induction items using List.reverseRecOn with
  | nil => exact ⟨fun _ => rfl, List.nodup_nil, fun node => by simp [groupByNode]⟩
  | append_singleton items it ih =>
    obtain ⟨hitems, hnodup, hmem⟩ := ih
    have hstep : groupByNode (items ++ [it]) = groupLoop (groupByNode items) it := by
      rw [groupByNode, List.foldl_append]
      rfl
    rw [hstep, groupLoop]
    dsimp only
    refine ⟨fun node => ?_, ?_, fun node => ?_⟩
    · rw [List.filter_append]
      by_cases hnode : node = it.node
      · subst hnode
        rw [Function.update_self, hitems]
        simp
      · rw [Function.update_of_ne hnode, hitems]
        simp [Ne.symm hnode]
    · split
      · exact hnodup
      · next hnew =>
        exact List.nodup_append.2 ⟨hnodup, List.nodup_singleton _, fun a ha b hb => by
          rw [List.mem_singleton.1 hb]
          exact fun heq => hnew (heq ▸ ha)⟩
    · split
      · next hold =>
        rw [hmem]
        constructor
        · rintro ⟨it', hit', hnode⟩
          exact ⟨it', List.mem_append_left _ hit', hnode⟩
        · rintro ⟨it', hit', hnode⟩
          rcases List.mem_append.1 hit' with hit' | hit'
          · exact ⟨it', hit', hnode⟩
          · rw [List.mem_singleton.1 hit'] at hnode
            exact (hmem node).1 (hnode ▸ hold)
      · rw [List.mem_append, hmem, List.mem_singleton]
        simp only [List.mem_append, List.mem_singleton]
        constructor
        · rintro (⟨it', hit', hnode⟩ | rfl)
          · exact ⟨it', Or.inl hit', hnode⟩
          · exact ⟨it, Or.inr rfl, rfl⟩
        · rintro ⟨it', hit' | rfl, hnode⟩
          · exact Or.inl ⟨it', hit', hnode⟩
          · exact Or.inr hnode.symm

/-- The items of a node. -/
def ofNode (node : Bytes) (items : List Item) : List Item := items.filter fun it => it.node = node

/-- The calls of `send`: one for each node, with all its items in order. -/
theorem publish_eq (items : List Item) :
    publish items = (groupByNode items).1.map fun node => (node, ofNode node items) := by
  have hgroups : ((groupByNode items).1.map fun node => (node, (groupByNode items).2 node)) =
      (groupByNode items).1.map fun node => (node, ofNode node items) :=
    List.map_congr_left fun node _ => by rw [(groupByNode_eq items).1 node, ofNode]
  unfold publish
  split
  · next it =>
    rw [← hgroups]
    simp [groupByNode, groupLoop]
  · exact hgroups

theorem mem_publish {items : List Item} {call : Bytes × List Item} (h : call ∈ publish items) :
    call.2 = ofNode call.1 items ∧ call.2 ≠ [] := by
  rw [publish_eq] at h
  obtain ⟨node, hmem, rfl⟩ := List.mem_map.1 h
  obtain ⟨it, hit, hnode⟩ := ((groupByNode_eq items).2.2 node).1 hmem
  refine ⟨rfl, fun hnil => ?_⟩
  change ofNode node items = [] at hnil
  have hin : it ∈ ofNode node items := List.mem_filter.2 ⟨hit, by simpa using hnode⟩
  rw [hnil] at hin
  exact List.not_mem_nil hin

theorem ofNode_append (node : Bytes) (xs ys : List Item) :
    ofNode node (xs ++ ys) = ofNode node xs ++ ofNode node ys := List.filter_append ..

/-- Grouping keeps the items of each node and their order. -/
theorem ofNode_publish (node : Bytes) (items : List Item) :
    ofNode node ((publish items).flatMap Prod.snd) = ofNode node items := by
  have hgroups : ∀ nodes : List Bytes, nodes.Nodup →
      ofNode node (nodes.flatMap fun n => ofNode n items) =
        if node ∈ nodes then ofNode node items else [] := by
    intro nodes
    induction nodes with
    | nil => exact fun _ => rfl
    | cons n nodes ih =>
      intro hnodup
      obtain ⟨hout, hrest⟩ := List.nodup_cons.1 hnodup
      rw [List.flatMap_cons, ofNode_append, ih hrest]
      by_cases hn : node = n
      · subst hn
        rw [if_neg hout, List.append_nil, if_pos List.mem_cons_self, ofNode, ofNode,
          List.filter_filter]
        simp
      · have hnone : ofNode node (ofNode n items) = [] := by
          rw [ofNode, ofNode, List.filter_filter, List.filter_eq_nil_iff]
          intro it _ hboth
          simp only [Bool.and_eq_true, decide_eq_true_eq] at hboth
          exact hn (hboth.1.symm.trans hboth.2)
        rw [hnone, List.nil_append]
        simp [hn]
  obtain ⟨-, hnodup, hmem⟩ := groupByNode_eq items
  rw [publish_eq, List.flatMap_map]
  refine (hgroups _ hnodup).trans ?_
  split
  · rfl
  · next hout =>
    symm
    rw [ofNode, List.filter_eq_nil_iff]
    exact fun it hit hnode => hout ((hmem node).2 ⟨it, hit, of_decide_eq_true hnode⟩)

/-- Lists with the same items of each node hold the same items. -/
theorem perm_of_ofNode {xs ys : List Item} (h : ∀ node, ofNode node xs = ofNode node ys) :
    xs.Perm ys := by
  refine List.perm_iff_count.2 fun it => ?_
  have hcount : ∀ zs : List Item, zs.count it = (ofNode it.node zs).count it := fun zs => by
    rw [ofNode, List.count_filter (by simp)]
  rw [hcount xs, hcount ys, h]

/-! ### Interleavings -/

/-- How a record left the queue. -/
inductive Fate
  | dropped
  | taken
  deriving DecidableEq

/-- The sink, the calls of `send` that the flushing goroutine has still to make, and what an observer
saw: the records in the order of `Add`, those that left the queue in that order, and the calls made. -/
structure State where
  sink : Sink
  outbox : List (Bytes × List Item)
  added : List Item
  left : List (Item × Fate)
  sent : List (Bytes × List Item)

/-- A step of some goroutine. -/
inductive Event
  | add (it : Item)
  | take
  | send

/-- The events in any order. The flushing goroutine takes a batch only when it has handed over the one
before. -/
def State.step (s : State) : Event → State
  | .add it =>
    let sink := (s.sink.add it).1
    let surplus := (s.sink.pending.view ++ [it]).length - sink.pending.view.length
    { s with
      sink := sink
      added := s.added ++ [it]
      left := s.left ++ ((s.sink.pending.view ++ [it]).take surplus).map fun it => (it, .dropped) }
  | .take =>
    if s.outbox = [] then
      match s.sink.take with
      | none => s
      | some (items, sink) =>
        { s with
          sink := sink
          outbox := publish items
          left := s.left ++ items.map fun it => (it, .taken) }
    else s
  | .send =>
    match s.outbox with
    | [] => s
    | call :: calls => { s with outbox := calls, sent := s.sent ++ [call] }

def State.new : State := ⟨⟨Slice.nil, 0, 0⟩, [], [], [], []⟩

/-- The records with a fate, in order. -/
def withFate (fate : Fate) (left : List (Item × Fate)) : List Item :=
  (left.filter fun p => p.2 = fate).map Prod.fst

/-- All calls of `send`, made and to be made. -/
def State.calls (s : State) : List (Bytes × List Item) := s.sent ++ s.outbox

/-- The books of the sink. -/
structure State.Conserved (s : State) : Prop where
  room : s.sink.pending.view.length ≤ maxPending
  size : s.sink.size = sizeOf s.sink.pending.view
  order : s.added = s.left.map Prod.fst ++ s.sink.pending.view
  dropped : s.sink.dropped = (withFate .dropped s.left).length
  handed : ∀ node, ofNode node (s.calls.flatMap Prod.snd) = ofNode node (withFate .taken s.left)
  groups : ∀ call ∈ s.calls, ∀ it ∈ call.2, it.node = call.1
  short : ∀ call ∈ s.calls, call.2.length ≤ maxItems

theorem sizeOf_append (xs ys : List Item) : sizeOf (xs ++ ys) = sizeOf xs + sizeOf ys := by
  have hfrom : ∀ (ys : List Item) (n : ℕ),
      ys.foldl (fun n it => n + (it.body.length + 2)) n = n + sizeOf ys := by
    intro ys
    induction ys with
    | nil => exact fun n => rfl
    | cons it ys ih =>
      intro n
      have hone : sizeOf (it :: ys) = 0 + (it.body.length + 2) + sizeOf ys := ih _
      rw [List.foldl_cons, ih, hone]
      omega
  rw [sizeOf, List.foldl_append, hfrom]
  rfl

/-- What `Add` does to a queue within its bounds: the new record goes to the end, and of a full queue the
oldest record goes. -/
theorem add_spec {s : Sink} (hroom : s.pending.view.length ≤ maxPending)
    (hsize : s.size = sizeOf s.pending.view) (it : Item) :
    let surplus := if s.pending.view.length = maxPending then 1 else 0
    (s.add it).1.pending.view = (s.pending.view ++ [it]).drop surplus ∧
      (s.add it).1.size = sizeOf (s.add it).1.pending.view ∧
      (s.add it).1.dropped = s.dropped + surplus := by
  have hlen : (s.pending.push it).len = s.pending.view.length + 1 := by
    rw [← Slice.length_view, Slice.view_push, List.length_append, List.length_singleton]
  rw [Sink.add]
  dsimp only
  by_cases hfull : s.pending.view.length = maxPending
  · have hover : (s.pending.push it).len > maxPending := by omega
    have hcut : (s.pending.push it).len - maxPending = 1 := by omega
    rw [if_pos hover, if_pos hfull, hcut]
    exact ⟨by rw [Slice.view_shift, Slice.view_push], rfl, rfl⟩
  · have hover : ¬ (s.pending.push it).len > maxPending := by omega
    rw [if_neg hover, if_neg hfull]
    refine ⟨by rw [Slice.view_push, List.drop_zero], ?_, rfl⟩
    dsimp only
    rw [Slice.view_push, sizeOf_append, hsize]
    simp [sizeOf]

/-- What `flush` takes: the oldest records, at most 256. -/
theorem take_spec {s s' : Sink} {items : List Item} (h : s.take = some (items, s')) :
    items = s.pending.view.take maxItems ∧ s'.pending.view = s.pending.view.drop maxItems ∧
      s'.size = sizeOf s'.pending.view ∧ s'.dropped = s.dropped ∧ items ≠ [] := by
  have hlen := s.pending.length_view
  rw [Sink.take] at h
  split at h
  · cases h
  · next hne =>
    simp only [Option.some.injEq, Prod.mk.injEq] at h
    obtain ⟨rfl, rfl⟩ := h
    have hnonempty : s.pending.view ≠ [] := fun hnil => hne (by rw [← hlen, hnil]; rfl)
    rw [Slice.view_shift]
    by_cases hmany : s.pending.len > maxItems
    · rw [if_pos hmany]
      exact ⟨rfl, rfl, rfl, rfl, by simpa [maxItems] using hnonempty⟩
    · rw [if_neg hmany, List.take_of_length_le hlen.le, List.drop_of_length_le hlen.le,
        List.take_of_length_le (by omega), List.drop_of_length_le (by omega)]
      exact ⟨rfl, rfl, rfl, rfl, hnonempty⟩

@[simp] theorem withFate_append (fate : Fate) (xs ys : List (Item × Fate)) :
    withFate fate (xs ++ ys) = withFate fate xs ++ withFate fate ys := by
  simp [withFate]

theorem withFate_map (fate fate' : Fate) (items : List Item) :
    withFate fate (items.map fun it => (it, fate')) = if fate' = fate then items else [] := by
  by_cases h : fate' = fate <;> simp [withFate, List.filter_map, Function.comp_def, h]

theorem map_fst_map (fate : Fate) (items : List Item) :
    (items.map fun it => (it, fate)).map Prod.fst = items := by simp [Function.comp_def]

theorem conserved_add {s : State} (h : s.Conserved) (it : Item) : (s.step (.add it)).Conserved := by
  obtain ⟨hview, hsize, hdropped⟩ := add_spec h.room h.size it
  have hroom := h.room
  have hsurplus : (s.sink.pending.view ++ [it]).length - (s.sink.add it).1.pending.view.length =
      if s.sink.pending.view.length = maxPending then 1 else 0 := by
    rw [hview, List.length_drop, List.length_append, List.length_singleton]
    split <;> omega
  simp only [State.step, hsurplus]
  generalize hn : (if s.sink.pending.view.length = maxPending then 1 else 0) = n at hview hdropped ⊢
  have hlen : ((s.sink.pending.view ++ [it]).take n).length = n := by
    rw [List.length_take, List.length_append, List.length_singleton, ← hn]
    split <;> omega
  refine ⟨?_, hsize, ?_, ?_, ?_, h.groups, h.short⟩
  · dsimp only
    rw [hview, List.length_drop, List.length_append, List.length_singleton, ← hn]
    split <;> omega
  · dsimp only
    rw [List.map_append, map_fst_map, hview, List.append_assoc, List.take_append_drop, h.order,
      List.append_assoc]
  · dsimp only
    rw [withFate_append, withFate_map, if_pos rfl, List.length_append, hlen, hdropped, h.dropped]
  · intro node
    dsimp only
    rw [withFate_append, withFate_map, if_neg (by decide), List.append_nil]
    exact h.handed node

theorem conserved_take {s : State} (h : s.Conserved) : (s.step .take).Conserved := by
  rw [State.step]
  by_cases hidle : s.outbox = []
  · rw [if_pos hidle]
    cases htake : s.sink.take with
    | none => exact h
    | some taken =>
      obtain ⟨items, sink⟩ := taken
      obtain ⟨hitems, hview, hsize, hdropped, -⟩ := take_spec htake
      have hroom := h.room
      refine ⟨?_, hsize, ?_, ?_, ?_, ?_, ?_⟩
      · dsimp only
        rw [hview, List.length_drop]
        omega
      · dsimp only
        rw [List.map_append, map_fst_map, hview, hitems, List.append_assoc, List.take_append_drop]
        exact h.order
      · dsimp only
        rw [withFate_append, withFate_map, if_neg (by decide), List.append_nil, hdropped]
        exact h.dropped
      · intro node
        have hhanded := h.handed node
        rw [State.calls, hidle, List.append_nil] at hhanded
        rw [State.calls]
        dsimp only
        rw [List.flatMap_append, ofNode_append, hhanded, ofNode_publish, withFate_append, withFate_map,
          if_pos rfl, ofNode_append]
      · intro call hcall it hit
        rcases List.mem_append.1 hcall with hold | hnew
        · exact h.groups call (List.mem_append_left _ hold) it hit
        · rw [(mem_publish hnew).1] at hit
          exact of_decide_eq_true (List.mem_filter.1 hit).2
      · intro call hcall
        rcases List.mem_append.1 hcall with hold | hnew
        · exact h.short call (List.mem_append_left _ hold)
        · rw [(mem_publish hnew).1, hitems]
          exact le_trans (List.length_filter_le _ _) (List.length_take_le _ _)
  · rw [if_neg hidle]
    exact h

theorem conserved_send {s : State} (h : s.Conserved) : (s.step .send).Conserved := by
  rw [State.step]
  cases hout : s.outbox with
  | nil => exact h
  | cons call calls =>
    have hcalls : s.calls = s.sent ++ [call] ++ calls := by
      rw [State.calls, hout, List.append_assoc]
      rfl
    have hhanded := h.handed
    have hgroups := h.groups
    have hshort := h.short
    rw [hcalls] at hhanded hgroups hshort
    exact ⟨h.room, h.size, h.order, h.dropped, hhanded, hgroups, hshort⟩

theorem conserved_step (s : State) (e : Event) (h : s.Conserved) : (s.step e).Conserved := by
  cases e with
  | add it => exact conserved_add h it
  | take => exact conserved_take h
  | send => exact conserved_send h

theorem conserved_new : State.new.Conserved :=
  ⟨Nat.zero_le _, rfl, rfl, rfl, fun _ => rfl, fun _ hcall => absurd hcall List.not_mem_nil,
    fun _ hcall => absurd hcall List.not_mem_nil⟩

theorem conserved_run (es : List Event) : (runFrom State.step State.new es).Conserved :=
  invariant_always conserved_step es conserved_new

/-- **The sink conserves records.** The queue keeps to its bound and knows its size. The records left it
in the order in which they were added; a record is dropped only to make room in a full queue, where it
is the oldest. Those taken are handed to `send`, each once, and those of one node in their order. -/
theorem sink_conserves (es : List Event) :
    let s := runFrom State.step State.new es
    s.sink.pending.view.length ≤ maxPending ∧
      s.sink.size = sizeOf s.sink.pending.view ∧
      s.added = s.left.map Prod.fst ++ s.sink.pending.view ∧
      s.sink.dropped = (withFate .dropped s.left).length ∧
      (∀ it, (s.step (.add it)).left = s.left ++
        if s.sink.pending.view.length = maxPending then
          (s.sink.pending.view.take 1).map fun it => (it, .dropped)
        else []) ∧
      (s.calls.flatMap Prod.snd).Perm (withFate .taken s.left) ∧
      (∀ node, ofNode node (s.calls.flatMap Prod.snd) = ofNode node (withFate .taken s.left)) ∧
      ∀ call ∈ s.calls, ∀ it ∈ call.2, it.node = call.1 := by
  have h := conserved_run es
  generalize runFrom State.step State.new es = s at h
  refine ⟨h.room, h.size, h.order, h.dropped, fun it => ?_, perm_of_ofNode h.handed, h.handed,
    h.groups⟩
  obtain ⟨hview, -, -⟩ := add_spec h.room h.size it
  simp only [State.step]
  congr 1
  rw [hview, List.length_drop, List.length_append, List.length_singleton]
  by_cases hfull : s.sink.pending.view.length = maxPending
  · have hone : s.sink.pending.view.length + 1 - (s.sink.pending.view.length + 1 - 1) = 1 := by omega
    rw [if_pos hfull, if_pos hfull, hone, List.take_append_of_le_length (by rw [hfull]; decide)]
  · have hnone : s.sink.pending.view.length + 1 - (s.sink.pending.view.length + 1 - 0) = 0 := by omega
    rw [if_neg hfull, if_neg hfull, hnone]
    rfl

/-! ### The budget of a batch -/

/-- A message carries at most 256 records, and unless it is a single one, they keep to the size. -/
def Budget (call : Bytes × List Item) : Prop :=
  call.2.length ≤ maxItems ∧ (call.2.length = 1 ∨ sizeOf call.2 ≤ maxSize)

/-- The head of the queue weighs little enough for each node: the condition on a step of `flush`. -/
def State.Light (s : State) (e : Event) : Prop :=
  e = .take → s.outbox = [] → ∀ node,
    (ofNode node (s.sink.pending.view.take maxItems)).length ≤ 1 ∨
      sizeOf (ofNode node (s.sink.pending.view.take maxItems)) ≤ maxSize

theorem budget_publish_iff {items : List Item} (hlen : items.length ≤ maxItems) :
    (∀ call ∈ publish items, Budget call) ↔
      ∀ node, (ofNode node items).length ≤ 1 ∨ sizeOf (ofNode node items) ≤ maxSize := by
  constructor
  · intro h node
    by_cases hnil : ofNode node items = []
    · exact Or.inl (by rw [hnil]; exact Nat.zero_le 1)
    · obtain ⟨it, hit⟩ := List.exists_mem_of_ne_nil _ hnil
      obtain ⟨hmem, hnode⟩ := List.mem_filter.1 hit
      have hcall : (node, ofNode node items) ∈ publish items := by
        rw [publish_eq]
        exact List.mem_map_of_mem (((groupByNode_eq items).2.2 node).2 ⟨it, hmem, by simpa using hnode⟩)
      rcases (h _ hcall).2 with hone | hsize
      · exact Or.inl hone.le
      · exact Or.inr hsize
  · intro h call hcall
    obtain ⟨hitems, hne⟩ := mem_publish hcall
    refine ⟨?_, ?_⟩
    · rw [hitems]
      exact le_trans (List.length_filter_le _ _) hlen
    · rcases h call.1 with hone | hsize
      · have hpos := List.length_pos_iff_ne_nil.2 hne
        rw [← hitems] at hone
        exact Or.inl (by omega)
      · exact Or.inr (by rwa [hitems])

/-- A step makes new calls only when it takes a batch. -/
theorem budget_step_iff (s : State) (e : Event) :
    (∀ call ∈ (s.step e).calls, Budget call) ↔ (∀ call ∈ s.calls, Budget call) ∧ s.Light e := by
  -- `send` moves a call from the outbox to the sent ones, and only `take` makes new ones.
  cases e with
  | add it =>
    exact ⟨fun h => ⟨h, fun hadd => by cases hadd⟩, fun h => h.1⟩
  | send =>
    have hcalls : (s.step .send).calls = s.calls := by
      rw [State.step, State.calls, State.calls]
      cases hout : s.outbox with
      | nil =>
        dsimp only
        rw [hout]
      | cons call calls => simp
    rw [hcalls]
    exact ⟨fun h => ⟨h, fun hsend => by cases hsend⟩, fun h => h.1⟩
  | take =>
    rw [State.step]
    by_cases hidle : s.outbox = []
    · rw [if_pos hidle]
      cases htake : s.sink.take with
      | none =>
        have hempty : s.sink.pending.view = [] := by
          rw [Sink.take] at htake
          split at htake
          · next hzero => exact List.length_eq_zero_iff.1 (by rw [Slice.length_view, hzero])
          · cases htake
        refine ⟨fun h => ⟨h, fun _ _ node => Or.inl ?_⟩, fun h => h.1⟩
        rw [hempty]
        exact Nat.zero_le 1
      | some taken =>
        obtain ⟨items, sink⟩ := taken
        obtain ⟨hitems, -⟩ := take_spec htake
        have hlen : items.length ≤ maxItems := by rw [hitems]; exact List.length_take_le _ _
        have hbudget := budget_publish_iff hlen
        rw [State.calls, State.calls, hidle, List.append_nil]
        dsimp only
        rw [List.forall_mem_append, hbudget, hitems]
        refine and_congr_right fun _ => ?_
        exact ⟨fun h _ _ => h, fun h => h rfl hidle⟩
    · rw [if_neg hidle]
      exact ⟨fun h => ⟨h, fun _ hidle' => absurd hidle' hidle⟩, fun h => h.1⟩

theorem budget_run_iff (es : List Event) (s : State) :
    (∀ call ∈ (runFrom State.step s es).calls, Budget call) ↔
      (∀ call ∈ s.calls, Budget call) ∧ Along State.step State.Light s es := by
  induction es generalizing s with
  | nil => exact ⟨fun h => ⟨h, trivial⟩, fun h => h.1⟩
  | cons e es ih => rw [runFrom_cons, ih, budget_step_iff, along_cons, and_assoc]

/-- Records added to an idle sink that has room for them. -/
theorem adds_run (it : Item) {n : ℕ} (hn : n ≤ maxPending) :
    (runFrom State.step State.new (List.replicate n (.add it))).sink.pending.view =
        List.replicate n it ∧
      (runFrom State.step State.new (List.replicate n (.add it))).outbox = [] := by
  induction n with
  | zero => exact ⟨rfl, rfl⟩
  | succ n ih =>
    obtain ⟨hview, hidle⟩ := ih (by omega)
    have h := conserved_run (List.replicate n (.add it))
    rw [List.replicate_succ', runFrom_append]
    generalize runFrom State.step State.new (List.replicate n (.add it)) = s at hview hidle h ⊢
    refine ⟨?_, hidle⟩
    have hfew : s.sink.pending.view.length ≠ maxPending := by
      rw [hview, List.length_replicate]
      omega
    obtain ⟨hadd, -, -⟩ := add_spec h.room h.size it
    rw [if_neg hfew, List.drop_zero, hview, ← List.replicate_succ'] at hadd
    exact hadd

theorem sizeOf_le {items : List Item} {b : ℕ} (h : ∀ it ∈ items, it.body.length ≤ b) :
    sizeOf items ≤ items.length * (b + 2) := by
  induction items with
  | nil => exact Nat.zero_le _
  | cons it items ih =>
    have hone := h it List.mem_cons_self
    have hrest := ih fun it' hit' => h it' (List.mem_cons_of_mem it hit')
    have hcons : sizeOf (it :: items) = sizeOf [it] + sizeOf items := sizeOf_append [it] items
    have hsingle : sizeOf [it] = it.body.length + 2 := by simp [sizeOf]
    rw [hcons, hsingle, List.length_cons, Nat.add_mul]
    omega

theorem sizeOf_replicate (n : ℕ) (it : Item) :
    sizeOf (List.replicate n it) = n * (it.body.length + 2) := by
  induction n with
  | zero => simp [sizeOf]
  | succ n ih =>
    have hsingle : sizeOf [it] = it.body.length + 2 := by simp [sizeOf]
    rw [List.replicate_succ', sizeOf_append, ih, hsingle, Nat.succ_mul]

/-- A body of a size. -/
def bulky (n : ℕ) : Item := ⟨[97], List.replicate n 0⟩

theorem length_bulky (n : ℕ) : (bulky n).body.length = n := List.length_replicate

theorem maxSize_eq : maxSize = 524288 := rfl

/-- The budget fails when a batch of bulky records weighs too much. -/
theorem light_bulky {k n : ℕ} (hk : 1 < k) (hk' : k ≤ maxItems)
    (h : ∀ call ∈ (runFrom State.step State.new
      (List.replicate k (.add (bulky n)) ++ [.take])).calls, Budget call) :
    k * (n + 2) ≤ maxSize := by
  have hpending : k ≤ maxPending := le_trans hk' (by decide)
  obtain ⟨hview, hidle⟩ := adds_run (bulky n) hpending
  have hnode : ofNode [97] (List.replicate k (bulky n)) = List.replicate k (bulky n) := by
    rw [ofNode, List.filter_eq_self]
    intro it hit
    rw [List.eq_of_mem_replicate hit, bulky]
    exact decide_eq_true rfl
  have hlight := ((budget_run_iff _ _).1 h).2.at_step rfl hidle [97]
  rw [hview, List.take_of_length_le (by rw [List.length_replicate]; exact hk'), hnode,
    List.length_replicate, sizeOf_replicate, length_bulky] at hlight
  omega

/-- Two records of 256 KiB that wait for the same flush go out in one message, over the budget. -/
theorem two_bulky_over_budget :
    ¬ ∀ call ∈ (runFrom State.step State.new
      (List.replicate 2 (.add (bulky 262144)) ++ [.take])).calls, Budget call := by
  intro h
  have hsize := light_bulky (by norm_num) (by decide) h
  rw [maxSize_eq] at hsize
  omega

/-- Only what was added is in the books. -/
theorem added_mem {es : List Event} {it : Item}
    (h : it ∈ (runFrom State.step State.new es).added) : Event.add it ∈ es := by
  induction es using List.reverseRecOn with
  | nil => exact absurd h List.not_mem_nil
  | append_singleton es e ih =>
    rw [runFrom_append, runFrom_cons, runFrom_nil] at h
    generalize runFrom State.step State.new es = s at h ih
    have hstep : (s.step e).added = s.added ∨ ∃ it, e = .add it ∧ (s.step e).added = s.added ++ [it] := by
      cases e with
      | add it => exact Or.inr ⟨it, rfl, rfl⟩
      | take =>
        left
        rw [State.step]
        split
        · cases s.sink.take <;> rfl
        · rfl
      | send =>
        left
        rw [State.step]
        cases s.outbox <;> rfl
    rcases hstep with hsame | ⟨it', rfl, hadd⟩
    · exact List.mem_append_left _ (ih (hsame ▸ h))
    · rw [hadd] at h
      rcases List.mem_append.1 h with hold | hnew
      · exact List.mem_append_left _ (ih hold)
      · rw [List.mem_singleton.1 hnew]
        exact List.mem_append_right _ (List.mem_singleton.2 rfl)

/-- **When batches keep to the budget.** All messages of a run do exactly when at each batch the records
of one node in the head of the queue weigh at most the size together, or are a single one. Whatever
the order of calls, this is so as long as bodies have at most 2046 bytes, and not for longer ones. -/
theorem batch_within_budget_iff (es : List Event) (b : ℕ) :
    ((∀ call ∈ (runFrom State.step State.new es).calls, Budget call) ↔
        Along State.step State.Light State.new es) ∧
      ((∀ es : List Event, (∀ it, Event.add it ∈ es → it.body.length ≤ b) →
          ∀ call ∈ (runFrom State.step State.new es).calls, Budget call) ↔ b ≤ 2046) := by
  have hrun : (∀ call ∈ (runFrom State.step State.new es).calls, Budget call) ↔
      Along State.step State.Light State.new es := by
    rw [budget_run_iff]
    exact and_iff_right fun call hcall => absurd hcall List.not_mem_nil
  refine ⟨hrun, fun h => ?_, fun hb es hbodies call hcall => ?_⟩
  · by_contra hlong
    have hbodies : ∀ it, Event.add it ∈ List.replicate maxItems (.add (bulky 2047)) ++ [.take] →
        it.body.length ≤ b := by
      intro it hit
      rcases List.mem_append.1 hit with hadd | htake
      · obtain rfl := Event.add.inj (List.eq_of_mem_replicate hadd)
        rw [length_bulky]
        omega
      · cases List.mem_singleton.1 htake
    have hsize := light_bulky (by decide) le_rfl (h _ hbodies)
    rw [maxSize_eq, maxItems] at hsize
    omega
  · have hkept := conserved_run es
    have hitems : ∀ it ∈ call.2, it.body.length ≤ b := by
      intro it hit
      have hin : it ∈ withFate .taken (runFrom State.step State.new es).left :=
        (perm_of_ofNode hkept.handed).mem_iff.1 (List.mem_flatMap.2 ⟨call, hcall, hit⟩)
      have hleft : it ∈ (runFrom State.step State.new es).left.map Prod.fst :=
        (List.filter_sublist.map Prod.fst).subset hin
      have hadded : it ∈ (runFrom State.step State.new es).added := by
        rw [hkept.order]
        exact List.mem_append_left _ hleft
      exact hbodies it (added_mem hadded)
    have hshort := hkept.short call hcall
    refine ⟨hshort, Or.inr (le_trans (sizeOf_le hitems) ?_)⟩
    rw [maxSize_eq]
    calc call.2.length * (b + 2) ≤ 256 * 2048 := Nat.mul_le_mul hshort (by omega)
      _ = 524288 := rfl

/-- Three records of one node in a flush: they go out in one message. -/
theorem batch_within_budget_small :
    ∀ call ∈ (runFrom State.step State.new
      [.add (bulky 3), .add (bulky 700), .add (bulky 2046), .take, .send]).calls, Budget call :=
  (batch_within_budget_iff [] 2046).2.2 le_rfl
    [.add (bulky 3), .add (bulky 700), .add (bulky 2046), .take, .send] fun it hit => by
      simp only [List.mem_cons, Event.add.injEq, List.not_mem_nil, or_false, reduceCtorEq] at hit
      rcases hit with rfl | rfl | rfl <;> rw [length_bulky] <;> norm_num

end Audit
