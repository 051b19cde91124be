import PlacitumNode.Retain.Record

/-!
# The retention pool (`agent/internal/retain/retain.go`, `batch.go`)

Records wait in a queue for the workers; a worker splits a record over the baskets of its kinds,
the baskets are flushed by size, by a timer or at the end, and the record is emitted when the last of
its kinds is completed.

* `Parking`, `Flush`, `Task`, `Pool`: the state;
* `Pool.handle`, `Pool.taken`, `Pool.push`, `Pool.timer`, `Pool.move`, `Pool.complete`,
  `Pool.shutOne`: what the functions do between two points at which another goroutine can run;
* `Step`: one of these, by any goroutine.

A record is named by the call of `Handle` that brought it, and `dec` gives its decision.  The cleanup
of the moved objects and the counters are left out.
-/

namespace Retain

/-- `BatchPolicy` -/
structure Policy where
  size : ℕ
  timeout : ℕ

def Policy.immediate (p : Policy) : Bool := p.size ≤ 1 && p.timeout = 0

def Policy.full (p : Policy) (n : ℕ) : Bool :=
  if n = 0 then false
  else if p.immediate then true
  else 0 < p.size && p.size ≤ n

structure Conf where
  enabled : Bool
  queue : ℕ
  workers : ℕ
  batch : Kind → Policy

/-- `parking`: the section with the locators written so far, and the kinds that are missing. -/
structure Parking where
  sect : Section
  pending : ℕ
  touched : Bool

/-- Who runs a flush; a worker goes on with the kinds it has not pushed. -/
inductive Owner
  | worker (r : ℕ) (ks : List Kind)
  | timer
  | closer
  deriving DecidableEq

/-- A call of `doFlush`: the items to be moved, whether it has the lock, what the move of its first
item came to, and the record that the last `complete` found to be whole. -/
structure Flush where
  kind : Kind
  items : List ℕ
  inside : Bool
  result : Option Outcome
  emits : Option ℕ
  owner : Owner

/-- What a worker does with the record it took. -/
inductive Task
  | emit (r : ℕ)
  | push (r : ℕ) (ks : List Kind)

/-- How far `Pool.Close` is. -/
inductive Stage
  | opened
  | draining
  | flushing (ks : List Kind)
  | closed
  deriving DecidableEq

/-- `Pool`; `handled`, `turned`, `moves` and `out` are its history: the records given to `Handle`, those
that were not taken, the moves that were made, and the records that were emitted. -/
structure Pool where
  jobs : List ℕ
  tasks : List Task
  items : Kind → List ℕ
  shut : Kind → Bool
  flushes : List Flush
  park : ℕ → Option Parking
  stage : Stage
  handled : List ℕ
  turned : List (ℕ × Reason)
  moves : List (ℕ × Kind × Outcome)
  out : List (ℕ × Record)

/-- `NewShared` -/
def Pool.new : Pool :=
  { jobs := [], tasks := [], items := fun _ => [], shut := fun _ => false, flushes := []
    park := fun _ => none, stage := .opened, handled := [], turned := [], moves := [], out := [] }

variable (cf : Conf) (dec : ℕ → Decision)

def Pool.emit (p : Pool) (r : ℕ) (rec : Record) : Pool := { p with out := p.out ++ [(r, rec)] }

/-- `Pool.degrade` -/
def Pool.degrade (p : Pool) (r : ℕ) (reason : Reason) : Pool :=
  { p with turned := p.turned ++ [(r, reason)] }.emit r (degraded (dec r) reason)

/-- `len(d.Archive) == 0` -/
def Decision.unarchived (d : Decision) : Bool :=
  kinds.all (fun k => (d.archive k).isNone) && !d.archiveOther

/-- `Pool.Handle`, while the queue is open -/
def Pool.handle (p : Pool) (r : ℕ) : Pool :=
  let p := { p with handled := p.handled ++ [r] }
  if (dec r).unarchived then p.emit r (dec r).raw
  else if !cf.enabled then p.degrade dec r .error
  else if p.jobs.length < cf.queue then { p with jobs := p.jobs ++ [r] }
  else p.degrade dec r .overload

/-- The first half of `Pool.enqueue`: the kinds of the record are counted. -/
def Pool.taken (p : Pool) (r : ℕ) : Pool :=
  match parseStore (dec r).raw with
  | none => { p with tasks := .emit r :: p.tasks }
  | some s =>
    if counted (dec r) s = [] then { p with tasks := .emit r :: p.tasks }
    else
      { p with
        park := Function.update p.park r (some ⟨s, (counted (dec r) s).length, false⟩)
        tasks := .push r (counted (dec r) s) :: p.tasks }

/-- A new call of `doFlush`. -/
def newFlush (k : Kind) (items : List ℕ) (owner : Owner) : Flush := ⟨k, items, false, none, none, owner⟩

/-- `basket.push` for the record `r`, by a worker that goes on with `ks`; `tasks` are those of the
other workers. -/
def Pool.push (p : Pool) (r : ℕ) (k : Kind) (ks : List Kind) (tasks : List Task) : Pool :=
  if p.shut k then
    { p with tasks := tasks, flushes := newFlush k [r] (.worker r ks) :: p.flushes }
  else if (cf.batch k).full (p.items k ++ [r]).length then
    { p with
      tasks := tasks
      items := Function.update p.items k []
      flushes := newFlush k (p.items k ++ [r]) (.worker r ks) :: p.flushes }
  else
    { p with tasks := .push r ks :: tasks, items := Function.update p.items k (p.items k ++ [r]) }

/-- `takeLocked` and the call of `doFlush`, which returns at once when there is nothing to do. -/
def Pool.flushAll (p : Pool) (k : Kind) (owner : Owner) : Pool :=
  if p.items k = [] then p
  else
    { p with
      items := Function.update p.items k []
      flushes := newFlush k (p.items k) owner :: p.flushes }

/-- `basket.onTimer` -/
def Pool.timer (p : Pool) (k : Kind) : Pool := p.flushAll k .timer

/-- The locked part of `parking.complete`. -/
def Parking.complete (q : Parking) (k : Kind) (o : Outcome) : Parking :=
  match q.sect.locators k with
  | some v =>
    { sect := { q.sect with locators := Function.update q.sect.locators k (some (o.apply v)) }
      pending := q.pending - 1, touched := true }
  | none => { q with pending := q.pending - 1 }

/-- The record that is emitted when the last kind is completed. -/
def Parking.record (q : Parking) (d : Decision) : Record :=
  if q.touched then spliceStore d.raw q.sect.render else d.raw

/-- A flush has moved the object of its first item, and has not completed it yet. -/
def Pool.move (p : Pool) (f : Flush) (r : ℕ) (o : Outcome) (l₁ l₂ : List Flush) : Pool :=
  { p with
    moves := p.moves ++ [(r, f.kind, o)]
    flushes := l₁ ++ { f with result := some o } :: l₂ }

/-- A flush completes its first item. -/
def Pool.complete (p : Pool) (f : Flush) (r : ℕ) (items : List ℕ) (q : Parking) (o : Outcome)
    (l₁ l₂ : List Flush) : Pool :=
  let q' := q.complete f.kind o
  { p with
    park := Function.update p.park r (some q')
    flushes := l₁ ++
      { f with
        items := items, result := none
        emits := if q'.pending = 0 then some r else none } :: l₂ }

/-- A flush is over: its worker goes on. -/
def Pool.leave (p : Pool) (f : Flush) (l₁ l₂ : List Flush) : Pool :=
  match f.owner with
  | .worker r ks => { p with flushes := l₁ ++ l₂, tasks := .push r ks :: p.tasks }
  | _ => { p with flushes := l₁ ++ l₂ }

/-- `basket.closeAndFlush` -/
def Pool.shutOne (p : Pool) (k : Kind) (ks : List Kind) : Pool :=
  { p with shut := Function.update p.shut k true, stage := .flushing ks }.flushAll k .closer

def Owner.isWorker : Owner → Bool
  | .worker _ _ => true
  | _ => false

/-- The workers that are not waiting for a record. -/
def Pool.busy (p : Pool) : ℕ := p.tasks.length + p.flushes.countP fun f => f.owner.isWorker

/-- One step of a goroutine of the pool, or a call of `Handle`. -/
inductive Step : Pool → Pool → Prop
  | handle {p : Pool} (r : ℕ) (hr : r ∉ p.handled) (ho : p.stage = .opened) :
      Step p (p.handle cf dec r)
  | take {p : Pool} {r : ℕ} {js : List ℕ} (hj : p.jobs = r :: js) (hw : p.busy < cf.workers) :
      Step p ({ p with jobs := js }.taken dec r)
  | emitTask {p : Pool} {r : ℕ} {l₁ l₂ : List Task} (ht : p.tasks = l₁ ++ .emit r :: l₂) :
      Step p ({ p with tasks := l₁ ++ l₂ }.emit r (dec r).raw)
  | push {p : Pool} {r : ℕ} {k : Kind} {ks : List Kind} {l₁ l₂ : List Task}
      (ht : p.tasks = l₁ ++ .push r (k :: ks) :: l₂) : Step p (p.push cf r k ks (l₁ ++ l₂))
  | pushed {p : Pool} {r : ℕ} {l₁ l₂ : List Task} (ht : p.tasks = l₁ ++ .push r [] :: l₂) :
      Step p { p with tasks := l₁ ++ l₂ }
  | timer {p : Pool} (k : Kind) (ht : 0 < (cf.batch k).timeout) : Step p (p.timer k)
  | enter {p : Pool} {f : Flush} {l₁ l₂ : List Flush} (hf : p.flushes = l₁ ++ f :: l₂)
      (hlock : ∀ g ∈ p.flushes, g.kind = f.kind → g.inside = false) :
      Step p { p with flushes := l₁ ++ { f with inside := true } :: l₂ }
  | move {p : Pool} {f : Flush} {l₁ l₂ : List Flush} {r : ℕ} {items : List ℕ} {q : Parking}
      (a : Answer) (hf : p.flushes = l₁ ++ f :: l₂) (hin : f.inside = true)
      (hi : f.items = r :: items) (he : f.emits = none) (ho : f.result = none)
      (hq : p.park r = some q) : Step p (p.move f r (move a (dec r) q.sect f.kind) l₁ l₂)
  | complete {p : Pool} {f : Flush} {l₁ l₂ : List Flush} {r : ℕ} {items : List ℕ} {q : Parking}
      {o : Outcome} (hf : p.flushes = l₁ ++ f :: l₂) (hi : f.items = r :: items)
      (he : f.emits = none) (ho : f.result = some o) (hq : p.park r = some q) :
      Step p (p.complete f r items q o l₁ l₂)
  | emit {p : Pool} {f : Flush} {l₁ l₂ : List Flush} {r : ℕ} {q : Parking}
      (hf : p.flushes = l₁ ++ f :: l₂) (he : f.emits = some r) (hq : p.park r = some q) :
      Step p ({ p with flushes := l₁ ++ { f with emits := none } :: l₂ }.emit r (q.record (dec r)))
  | leave {p : Pool} {f : Flush} {l₁ l₂ : List Flush} (hf : p.flushes = l₁ ++ f :: l₂)
      (hi : f.items = []) (he : f.emits = none) : Step p (p.leave f l₁ l₂)
  | closeJobs {p : Pool} (ho : p.stage = .opened) : Step p { p with stage := .draining }
  | drained {p : Pool} (ho : p.stage = .draining) (hj : p.jobs = []) (hw : p.busy = 0) :
      Step p { p with stage := .flushing kinds }
  | shut {p : Pool} {k : Kind} {ks : List Kind} (ho : p.stage = .flushing (k :: ks))
      (hc : ∀ f ∈ p.flushes, f.owner ≠ .closer) : Step p (p.shutOne k ks)
  | closed {p : Pool} (ho : p.stage = .flushing []) (hc : ∀ f ∈ p.flushes, f.owner ≠ .closer) :
      Step p { p with stage := .closed }

/-- The states of a pool. -/
def Reachable (p : Pool) : Prop := Relation.ReflTransGen (Step cf dec) Pool.new p

end Retain
