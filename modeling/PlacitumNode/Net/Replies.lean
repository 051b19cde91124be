import PlacitumNode.Bus.Input
import PlacitumNode.Net.Redis

/-!
# Replies from Redis (`body/drv_redis.c`)

The commands of many requests share a connection, and Redis answers them in order.  An entry of the
queue stands for a command in flight and leads to the operation that waits for it.  Entries are used
again, operations go away with their request while the reply is on its way, and a reply comes in
pieces: a shift by one would give the body of one client to the inspectors of another.

* `Table`: the entries with their timers and cleanups, the queue and the free list;
* `Pipe.parse`: one turn of the loop of `ngx_http_waf_redis_parse`; handlers run in a turn, so that
  between two turns anything may happen to the queue;
* `Table.Sound`, `Pipe.Owes`: the queue, and the bytes that are still to come for it;
* `replies_matched`: every operation is answered once at most, and by its own reply.
-/

namespace Replies

open Octets Numerals Net

/-! ### Replies and outcomes -/

/-- What a server answers to a command. -/
inductive Reply
  | simple (text : Bytes)
  | integer (text : Bytes)
  | error (text : Bytes)
  | bulk (data : Bytes)
  | null
  deriving DecidableEq

/-- The first line of a reply, without its end. -/
def Reply.line : Reply → Bytes
  | .simple text => 43 :: text
  | .integer text => 58 :: text
  | .error text => 45 :: text
  | .bulk data => 36 :: decimal data.length
  | .null => 36 :: ascii "-1"

/-- What follows that line. -/
def Reply.payload : Reply → Bytes
  | .bulk data => data ++ crlf
  | _ => []

def Reply.encode (r : Reply) : Bytes := r.line ++ crlf ++ r.payload

/-- The status of an operation, with the bytes that a get has found. -/
inductive Outcome
  | ok (data : Option Bytes)
  | declined
  | error
  deriving DecidableEq

/-- Why a handler is called. -/
inductive Cause
  | reply
  | timeout
  | lost
  deriving DecidableEq

/-- A call of `op->handler`; `op` is the address of the operation. -/
structure Call where
  op : ℕ
  out : Outcome
  cause : Cause
  deriving DecidableEq

/-! ### The entries -/

/-- `ngx_http_waf_redis_entry_t`.  The cleanup belongs to the pool of an operation and goes by its
address. -/
structure Cell where
  op : Option ℕ
  cln : Option ℕ
  timer : Bool
  bulk : Bool

/-- The entries of an `ngx_http_waf_redis_conn_t` by address, its queue and its free list.  `armed`
are the cleanups that have a handler, with the entry they lead to.  `asked`, `calls` and `dropped` are
the operations that were queued, answered and detached so far. -/
structure Table where
  cells : ℕ → Cell
  fresh : ℕ
  queue : List ℕ
  free : List ℕ
  inflight : ℕ
  armed : ℕ → Option ℕ
  asked : List ℕ
  calls : List Call
  dropped : List ℕ

def Cell.empty : Cell := ⟨none, none, false, false⟩

/-- `ngx_http_waf_redis_entry_get` -/
def Table.entryGet (pcalloc : Bool) (t : Table) : Option (ℕ × Table) :=
  match t.free with
  | a :: free => some (a, { t with cells := Function.update t.cells a Cell.empty, free := free })
  | [] =>
    if pcalloc then
      some (t.fresh, { t with
        cells := Function.update t.cells t.fresh Cell.empty, fresh := t.fresh + 1 })
    else none

/-- The handler of a cleanup that an entry leads to is taken away. -/
def disarm (armed : ℕ → Option ℕ) : Option ℕ → ℕ → Option ℕ
  | none => armed
  | some o => Function.update armed o none

/-- `ngx_http_waf_redis_entry_free` -/
def Table.entryFree (t : Table) (a : ℕ) : Table :=
  { t with
    cells := Function.update t.cells a { t.cells a with op := none, cln := none }
    free := a :: t.free
    armed := disarm t.armed (t.cells a).cln }

/-- `ngx_http_waf_redis_entry_push` -/
def Table.entryPush (t : Table) (a : ℕ) : Table :=
  { t with queue := t.queue ++ [a], inflight := t.inflight + 1 }

/-- The call of a handler, when there is an operation. -/
def Table.call (t : Table) (op : Option ℕ) (out : Outcome) (cause : Cause) : Table :=
  match op with
  | none => t
  | some o => { t with calls := t.calls ++ [⟨o, out, cause⟩] }

/-- The first entry `a` leaves the queue, and `queue` is left. -/
def Table.unlink (t : Table) (a : ℕ) (queue : List ℕ) : Table :=
  Table.entryFree { t with
    cells := Function.update t.cells a { t.cells a with timer := false, op := none }
    queue := queue
    inflight := t.inflight - 1 } a

/-- What `ngx_http_waf_redis_entry_done` and `ngx_http_waf_redis_bulk_ready` begin with: the first
entry leaves the queue, and its operation is returned. -/
def Table.pop (t : Table) : Option (Option ℕ × Table) :=
  match t.queue with
  | [] => none
  | a :: queue => some ((t.cells a).op, t.unlink a queue)

/-- `ngx_http_waf_redis_on_timeout`, for a timer that is set -/
def Table.onTimeout (t : Table) (a : ℕ) : Table :=
  if (t.cells a).timer then
    Table.call { t with
      cells := Function.update t.cells a { t.cells a with timer := false, op := none } }
      (t.cells a).op .error .timeout
  else t

/-- `ngx_http_waf_redis_detach` -/
def Table.detach (t : Table) (a : ℕ) : Table :=
  { t with
    cells := Function.update t.cells a { t.cells a with op := none, cln := none, timer := false }
    dropped := t.dropped ++ (t.cells a).op.toList }

/-- The pool of an operation is destroyed, and its cleanups run. -/
def Table.poolGone (t : Table) (o : ℕ) : Table :=
  match t.armed o with
  | none => t
  | some a => { t.detach a with armed := Function.update t.armed o none }

/-- What goes well when a command is queued: the new entry, the cleanup of the pool, and the bytes of
the command, whole or not at all. -/
structure Mood where
  entry : Bool
  cleanup : Bool
  sent : Bool

/-- `ngx_http_waf_drv_redis_put` and `ngx_http_waf_drv_redis_get` from the entry on; only a get waits
for a bulk.  `true` when the command is queued. -/
def Table.ask (t : Table) (mood : Mood) (o : ℕ) (bulk : Bool) : Table × Bool :=
  match t.entryGet mood.entry with
  | none => (t, false)
  | some (a, t) =>
    if mood.cleanup then
      let t := { t with
        cells := Function.update t.cells a ⟨some o, some o, false, bulk⟩
        armed := Function.update t.armed o (some a) }
      if mood.sent then
        (Table.entryPush { t with
          cells := Function.update t.cells a { t.cells a with timer := true }
          asked := t.asked ++ [o] } a, true)
      else (t.entryFree a, false)
    else (t.entryFree a, false)

/-- `ngx_http_waf_redis_queue` -/
def Table.command (t : Table) (mood : Mood) : Table × Bool :=
  match t.entryGet mood.entry with
  | none => (t, false)
  | some (a, t) => if mood.sent then (t.entryPush a, true) else (t.entryFree a, false)

/-- The operations that still wait. -/
def Table.pending (t : Table) : List ℕ := t.queue.filterMap fun a => (t.cells a).op

/-- The operation of the first entry. -/
def Table.live (t : Table) : Option ℕ := t.queue.head?.bind fun a => (t.cells a).op

/-- The first entry waits for a bulk. -/
def Table.headBulk (t : Table) : Bool := (t.queue.head?.map fun a => (t.cells a).bulk).getD false

/-! ### The connection -/

/-- Where the link is: `parsing` is a read handler within `on_read`, `draining` a link that was
dropped and whose entries fail one after the other. -/
inductive Mode
  | idle
  | parsing
  | draining
  | down
  deriving DecidableEq

/-- A command that was queued, with the reply that the server will give. -/
structure Cmd where
  op : Option ℕ
  bulk : Bool
  reply : Reply

/-- The input side of the link and `ngx_http_waf_redis_conn_t`: `buf` is the input buffer up to
`in_last`, `bulk` the part of a body that was got, and `stream` what the socket has yet to give.
`sent` are the commands so far, `fault` says that the node has met bytes it could not make sense of,
and `starved` are the operations whose own bulk found no memory. -/
structure Pipe where
  table : Table
  skip : ℕ
  skipErr : Bool
  bulk : Bytes
  bulkSize : ℕ
  bulkNeed : ℕ
  buf : Bytes
  pos : ℕ
  mode : Mode
  stream : Bytes
  sent : List Cmd
  fault : Bool
  starved : List ℕ

/-- The bytes from `in_pos` on. -/
def Pipe.unread (w : Pipe) : Bytes := w.buf.drop w.pos

/-- Commands are queued on a link that is up. -/
def Pipe.up (w : Pipe) : Bool := w.mode == .idle || w.mode == .parsing

/-- `ngx_http_waf_redis_entry_done` -/
def Pipe.entryDone (w : Pipe) (out : Outcome) (cause : Cause) : Pipe :=
  match w.table.pop with
  | none => { w with fault := true }
  | some (op, t) => { w with table := t.call op out cause }

/-- `ngx_http_waf_redis_bulk_ready`; `mem` says that memory for the copy is there. -/
def Pipe.bulkReady (w : Pipe) (mem : Bool) : Pipe :=
  let empty := { w with bulk := [], bulkSize := 0 }
  match w.table.pop with
  | none => { empty with fault := true }
  | some (op, t) => { empty with
      table := t.call op (if mem then .ok (some w.bulk) else .error) .reply
      starved := if mem then w.starved else op.toList ++ w.starved }

/-- The branch of a `$` line in `ngx_http_waf_redis_parse`, with the number that was read; `len` is
the length that an operation asked for. -/
def Pipe.bulkHead (len : ℕ → ℕ) (mem : Bool) (w : Pipe) (n : Option ℕ) : Pipe :=
  if w.table.headBulk then
    match n with
    | none => w.entryDone .declined .reply
    | some n =>
      if w.table.live.all (len · < n) then { w with skip := n + 2, skipErr := true }
      else if mem then { w with bulk := [], bulkSize := n, bulkNeed := n + 2 }
      else { w with
        skip := n + 2, skipErr := true, starved := w.table.live.toList ++ w.starved }
  else
    match n with
    | none => w.entryDone (.ok none) .reply
    | some n => { w with skip := n + 2 }

/-- The switch of `ngx_http_waf_redis_parse` on a line. -/
def Pipe.line (len : ℕ → ℕ) (mem : Bool) (w : Pipe) (line : Bytes) : Pipe :=
  match line.head? with
  | some 43 => w.entryDone (.ok none) .reply
  | some 58 => w.entryDone (.ok none) .reply
  | some 45 => w.entryDone .error .reply
  | some 36 => w.bulkHead len mem (atoi (Bus.dropCr line).tail)
  | _ => { w with mode := .draining, fault := true }

/-- One turn of the loop of `ngx_http_waf_redis_parse`. -/
def Pipe.parse (len : ℕ → ℕ) (mem : Bool) (w : Pipe) : Pipe :=
  let start := w.unread
  if start = [] then { w with buf := [], pos := 0, mode := .idle }
  else if w.bulkNeed ≠ 0 then
    let take := min start.length w.bulkNeed
    let n := if w.bulk.length < w.bulkSize then min take (w.bulkSize - w.bulk.length) else 0
    let w := { w with
      bulk := w.bulk ++ start.take n, pos := w.pos + take, bulkNeed := w.bulkNeed - take }
    if w.bulkNeed ≠ 0 then { w with mode := .idle } else w.bulkReady mem
  else if w.skip ≠ 0 then
    let take := min start.length w.skip
    let w := { w with pos := w.pos + take, skip := w.skip - take }
    if w.skip ≠ 0 then { w with mode := .idle }
    else if w.skipErr then Pipe.entryDone { w with skipErr := false } .error .reply
    else w.entryDone (.ok none) .reply
  else if 10 ∉ start then { w with mode := .idle }
  else
    let line := start.takeWhile (· ≠ 10)
    Pipe.line len mem { w with pos := w.pos + line.length + 1 } line

/-- One turn of `ngx_http_waf_link_read_handler` up to `on_read`, where the socket gives at most `n`
bytes, and at least one when it has any. -/
def Pipe.recv (inSize : ℕ) (w : Pipe) (n : ℕ) : Pipe :=
  if w.buf.length = inSize ∧ w.pos = 0 then { w with mode := .draining, fault := true }
  else
    let w := if w.buf.length = inSize then { w with buf := w.unread, pos := 0 } else w
    let got := w.stream.take (min (max n 1) (inSize - w.buf.length))
    if got = [] then w
    else { w with buf := w.buf ++ got, stream := w.stream.drop got.length, mode := .parsing }

/-- One turn of the loop of `ngx_http_waf_redis_drain`, or its end. -/
def Pipe.drain (w : Pipe) : Pipe :=
  if w.table.queue ≠ [] then w.entryDone .error .lost
  else { w with
    skip := 0, skipErr := false, bulk := [], bulkSize := 0, bulkNeed := 0, mode := .down }

/-- What happens to a connection.  `mem` says whether memory for a body is there. -/
inductive Event
  | ask (op : ℕ) (bulk : Bool) (mood : Mood) (reply : Reply)
  | command (mood : Mood) (reply : Reply)
  | timeout (entry : ℕ)
  | poolGone (op : ℕ)
  | recv (n : ℕ)
  | parse (mem : Bool)
  | lost
  | drain
  | connect

/-- One event.  An operation is asked for once. -/
def Pipe.step (len : ℕ → ℕ) (inSize : ℕ) (w : Pipe) : Event → Pipe
  | .ask op bulk mood reply =>
    if w.up ∧ op ∉ w.table.asked then
      let r := w.table.ask mood op bulk
      if r.2 then { w with
        table := r.1, sent := w.sent ++ [⟨some op, bulk, reply⟩], stream := w.stream ++ reply.encode }
      else { w with table := r.1 }
    else w
  | .command mood reply =>
    if w.up then
      let r := w.table.command mood
      if r.2 then { w with
        table := r.1, sent := w.sent ++ [⟨none, false, reply⟩], stream := w.stream ++ reply.encode }
      else { w with table := r.1 }
    else w
  | .timeout entry => { w with table := w.table.onTimeout entry }
  | .poolGone op => { w with table := w.table.poolGone op }
  | .recv n => if w.mode = .idle then w.recv inSize n else w
  | .parse mem => if w.mode = .parsing then w.parse len mem else w
  | .lost => if w.mode = .idle then { w with mode := .draining } else w
  | .drain => if w.mode = .draining then w.drain else w
  | .connect =>
    if w.mode = .down then { w with buf := [], pos := 0, stream := [], mode := .idle } else w

/-! ### The queue -/

/-- An entry stands for a command. -/
def StandsFor (c : Cell) (cmd : Cmd) : Prop :=
  c.bulk = cmd.bulk ∧ ∀ o, c.op = some o → cmd.op = some o

/-- The entries in the queue stand for the commands that are not answered yet.  An entry outside the
queue leads nowhere, and no timer and no cleanup leads to it; every operation that was asked for was
answered, was detached or still waits. -/
structure Table.Sound (t : Table) (owed : List Cmd) : Prop where
  count : t.inflight = t.queue.length
  nodup : (t.queue ++ t.free).Nodup
  known : ∀ a ∈ t.queue ++ t.free, a < t.fresh
  quiet : ∀ a ∉ t.queue, (t.cells a).op = none ∧ (t.cells a).cln = none ∧ (t.cells a).timer = false
  armed : ∀ o a, t.armed o = some a ↔ a ∈ t.queue ∧ (t.cells a).cln = some o
  held : ∀ a o, (t.cells a).op = some o → (t.cells a).cln = some o
  asked : ∀ a o, (t.cells a).cln = some o → o ∈ t.asked
  owed : List.Forall₂ (fun a cmd => StandsFor (t.cells a) cmd) t.queue owed
  account : t.asked.Perm (t.calls.map Call.op ++ t.dropped ++ t.pending)
  once : t.asked.Nodup

section Queue

variable {t : Table} {owed : List Cmd} {cmd : Cmd} {a o : ℕ}

theorem Table.call_frame (t : Table) (op : Option ℕ) (out : Outcome) (cause : Cause) :
    (t.call op out cause).calls = t.calls ++ op.toList.map (⟨·, out, cause⟩) ∧
      (t.call op out cause) = { t with calls := (t.call op out cause).calls } := by
  cases op with
  | none => exact ⟨(List.append_nil _).symm, rfl⟩
  | some o => exact ⟨rfl, rfl⟩

/-- Changes to entries that are not in a queue do not matter to it. -/
theorem owed_congr {cells cells' : ℕ → Cell} {queue : List ℕ}
    (h : ∀ a ∈ queue, cells' a = cells a)
    (howed : List.Forall₂ (fun a cmd => StandsFor (cells a) cmd) queue owed) :
    List.Forall₂ (fun a cmd => StandsFor (cells' a) cmd) queue owed := by
  induction howed with
  | nil => exact List.Forall₂.nil
  | cons hhead _ ih =>
    refine List.Forall₂.cons ?_ (ih fun a ha => h a (List.mem_cons_of_mem _ ha))
    rw [h _ List.mem_cons_self]
    exact hhead

theorem pending_congr {cells cells' : ℕ → Cell} {queue : List ℕ}
    (h : ∀ a ∈ queue, cells' a = cells a) :
    queue.filterMap (fun a => (cells' a).op) = queue.filterMap fun a => (cells a).op :=
  List.filterMap_congr fun a ha => by rw [h a ha]

/-- An operation that is taken off its entry waits no more. -/
theorem pending_update (cells : ℕ → Cell) {c : Cell} {queue : List ℕ} (hnodup : queue.Nodup)
    (ha : a ∈ queue) (hc : c.op = none) :
    (queue.filterMap fun b => (cells b).op).Perm
      ((cells a).op.toList ++ queue.filterMap fun b => (Function.update cells a c b).op) := by
  induction queue with
  | nil => cases ha
  | cons b queue ih =>
    obtain ⟨hb, hnodup⟩ := List.nodup_cons.1 hnodup
    by_cases hab : b = a
    · subst hab
      have hrest : queue.filterMap (fun d => (Function.update cells b c d).op) =
          queue.filterMap fun d => (cells d).op := by
        refine pending_congr fun d hd => ?_
        exact Function.update_of_ne (ne_of_mem_of_not_mem hd hb) _ _
      simp only [List.filterMap_cons, Function.update_self, hc, hrest]
      cases (cells b).op with
      | none => exact List.Perm.refl _
      | some o => exact List.Perm.refl _
    · have ha' : a ∈ queue := (List.mem_cons.1 ha).resolve_left fun h => hab h.symm
      have hperm := ih hnodup ha'
      simp only [List.filterMap_cons, Function.update_of_ne hab]
      cases (cells b).op with
      | none => exact hperm
      | some o => exact (hperm.cons o).trans List.perm_middle.symm

theorem Table.cells_unlink (t : Table) (a : ℕ) (queue : List ℕ) :
    (t.unlink a queue).cells = Function.update t.cells a ⟨none, none, false, (t.cells a).bulk⟩ := by
  simp only [Table.unlink, Table.entryFree, Function.update_self, Function.update_idem]

theorem Table.armed_unlink (t : Table) (a : ℕ) (queue : List ℕ) :
    (t.unlink a queue).armed = disarm t.armed (t.cells a).cln := by
  simp only [Table.unlink, Table.entryFree, Function.update_self]

/-- A cleanup that has lost its handler leads nowhere. -/
theorem disarm_iff {armed : ℕ → Option ℕ} {cln : Option ℕ} :
    disarm armed cln o = some a ↔ cln ≠ some o ∧ armed o = some a := by
  cases cln with
  | none => simp [disarm]
  | some c =>
    by_cases hc : o = c
    · subst hc
      simp [disarm]
    · simp [disarm, Function.update_of_ne hc, Ne.symm hc]

/-- An entry of the queue loses its operation, and its cleanup or not. -/
theorem Table.Sound.strip (h : t.Sound owed) (ha : a ∈ t.queue) (c : Cell)
    (armed : ℕ → Option ℕ) (calls : List Call) (dropped : List ℕ) (hop : c.op = none)
    (hbulk : c.bulk = (t.cells a).bulk)
    (hcln : (c.cln = (t.cells a).cln ∧ armed = t.armed) ∨
      (c.cln = none ∧ armed = disarm t.armed (t.cells a).cln))
    (haccount : (calls.map Call.op ++ dropped).Perm
      (t.calls.map Call.op ++ t.dropped ++ (t.cells a).op.toList)) :
    Table.Sound { t with
      cells := Function.update t.cells a c, armed := armed, calls := calls, dropped := dropped }
      owed := by
  -- No cleanup is added.
  have hsub : ∀ b o, (Function.update t.cells a c b).cln = some o → (t.cells b).cln = some o := by
    intro b o ho
    by_cases hab : b = a
    · subst hab
      rw [Function.update_self] at ho
      rcases hcln with ⟨hcln, -⟩ | ⟨hcln, -⟩
      · rw [← hcln, ho]
      · rw [hcln] at ho
        cases ho
    · rwa [Function.update_of_ne hab] at ho
  refine ⟨h.count, h.nodup, h.known, ?_, ?_, ?_,
    fun b o ho => h.asked b o (hsub b o ho), ?_, ?_, h.once⟩
  · intro b hb
    dsimp only
    rw [Function.update_of_ne (ne_of_mem_of_not_mem ha hb).symm]
    exact h.quiet b hb
  · intro o b
    show armed o = some b ↔ b ∈ t.queue ∧ (Function.update t.cells a c b).cln = some o
    rcases hcln with ⟨hcln, rfl⟩ | ⟨hcln, rfl⟩
    · rw [h.armed]
      by_cases hab : b = a
      · rw [hab, Function.update_self, hcln]
      · rw [Function.update_of_ne hab]
    · rw [disarm_iff, h.armed]
      by_cases hab : b = a
      · rw [hab, Function.update_self, hcln]
        exact ⟨fun hh => absurd hh.2.2 hh.1, fun hh => by cases hh.2⟩
      · rw [Function.update_of_ne hab]
        -- One operation leads to one entry, so that no other entry loses its cleanup here.
        refine and_iff_right_of_imp fun ⟨hb, hb'⟩ hne => hab ?_
        have hto := (h.armed o a).2 ⟨ha, hne⟩
        rw [(h.armed o b).2 ⟨hb, hb'⟩] at hto
        exact Option.some.inj hto
  · intro b o ho
    dsimp only at ho ⊢
    by_cases hab : b = a
    · rw [hab, Function.update_self, hop] at ho
      cases ho
    · rw [Function.update_of_ne hab] at ho ⊢
      exact h.held b o ho
  · refine h.owed.imp fun b cmd hb => ?_
    dsimp only
    by_cases hab : b = a
    · subst hab
      rw [Function.update_self]
      exact ⟨hbulk.trans hb.1, fun o ho => by rw [hop] at ho; cases ho⟩
    · rw [Function.update_of_ne hab]
      exact hb
  · refine h.account.trans ?_
    have hpending := pending_update t.cells (List.nodup_append.1 h.nodup).1 ha hop
    refine (hpending.append_left _).trans ?_
    rw [← List.append_assoc]
    exact haccount.symm.append_right _

/-- A bare entry leaves the front of the queue. -/
theorem Table.Sound.move {queue : List ℕ} (h : t.Sound (cmd :: owed)) (hqueue : t.queue = a :: queue)
    (hbare : (t.cells a).op = none ∧ (t.cells a).cln = none ∧ (t.cells a).timer = false) :
    Table.Sound { t with queue := queue, free := a :: t.free, inflight := t.inflight - 1 } owed := by
  have hmem : ∀ b, b ∈ queue ++ a :: t.free ↔ b ∈ t.queue ++ t.free := by
    intro b
    rw [hqueue]
    simp [or_left_comm]
  have hin : ∀ b, b ∈ t.queue ↔ b = a ∨ b ∈ queue := by
    intro b
    rw [hqueue]
    exact List.mem_cons
  have howed := h.owed
  have haccount := h.account
  rw [hqueue] at howed
  rw [Table.pending, hqueue, List.filterMap_cons, hbare.1] at haccount
  refine ⟨?_, ?_, fun b hb => h.known b ((hmem b).1 hb), ?_, ?_, h.held, h.asked,
    (List.forall₂_cons.1 howed).2, haccount, h.once⟩
  · show t.inflight - 1 = queue.length
    rw [h.count, hqueue]
    rfl
  · have hnodup := h.nodup
    rw [hqueue] at hnodup
    exact List.perm_middle.nodup_iff.2 hnodup
  · intro b hb
    by_cases hab : b = a
    · exact hab ▸ hbare
    · exact h.quiet b fun hmem => hb (((hin b).1 hmem).resolve_left hab)
  · intro o b
    dsimp only
    rw [h.armed, hin]
    constructor
    · rintro ⟨rfl | hb, hcln⟩
      · rw [hbare.2.1] at hcln
        cases hcln
      · exact ⟨hb, hcln⟩
    · exact fun ⟨hb, hcln⟩ => ⟨Or.inr hb, hcln⟩

/-- **The first entry leaves.**  It stood for the first command, and its operation is called. -/
theorem Table.Sound.pop (h : t.Sound (cmd :: owed)) :
    ∃ t', t.pop = some (t.live, t') ∧ t.headBulk = cmd.bulk ∧
      (∀ o, t.live = some o → cmd.op = some o) ∧ t'.calls = t.calls ∧ t'.asked = t.asked ∧
      ∀ out cause, (t'.call t.live out cause).Sound owed := by
  obtain ⟨a, queue, hhead, -, hqueue⟩ := List.forall₂_cons_right_iff.1 h.owed
  have hlive : t.live = (t.cells a).op := by
    rw [Table.live, hqueue]
    rfl
  refine ⟨t.unlink a queue, by rw [Table.pop, hqueue, hlive], ?_, ?_, rfl, rfl, fun out cause => ?_⟩
  · rw [Table.headBulk, hqueue]
    exact hhead.1
  · exact fun o ho => hhead.2 o (hlive ▸ ho)
  · obtain ⟨hcalls, hcall⟩ := (t.unlink a queue).call_frame t.live out cause
    have hstrip := h.strip (by rw [hqueue]; exact List.mem_cons_self)
      ⟨none, none, false, (t.cells a).bulk⟩ (disarm t.armed (t.cells a).cln)
      ((t.unlink a queue).call t.live out cause).calls t.dropped
      rfl rfl (Or.inr ⟨rfl, rfl⟩) (by
        rw [hcalls, hlive]
        show ((t.calls ++ _).map Call.op ++ t.dropped).Perm _
        rw [List.map_append, List.map_map, List.append_assoc, List.append_assoc]
        refine List.Perm.append_left _ ?_
        have hid : (Call.op ∘ fun o => ⟨o, out, cause⟩) = id := rfl
        rw [hid, List.map_id]
        exact List.perm_append_comm)
    have hmove := hstrip.move hqueue ⟨by simp, by simp, by simp⟩
    have heq : (t.unlink a queue).call t.live out cause = { t with
        cells := Function.update t.cells a ⟨none, none, false, (t.cells a).bulk⟩
        armed := disarm t.armed (t.cells a).cln
        calls := ((t.unlink a queue).call t.live out cause).calls
        queue := queue, free := a :: t.free, inflight := t.inflight - 1 } := by
      rw [hcall, ← t.cells_unlink a queue, ← t.armed_unlink a queue]
      rfl
    rw [heq]
    exact hmove

/-- What may change under the parser: the operation of the first entry may go away. -/
def Fades (t t' : Table) : Prop := ∀ o, t'.live = some o → t.live = some o

theorem fades_update {c : Cell} (hop : c.op = none) {t' : Table} (hqueue : t'.queue = t.queue)
    (hcells : t'.cells = Function.update t.cells a c) : Fades t t' := by
  intro o ho
  rw [Table.live, hqueue, hcells] at ho
  rw [Table.live]
  cases hq : t.queue with
  | nil =>
    rw [hq] at ho
    cases ho
  | cons b queue =>
    rw [hq] at ho
    have ho' : (Function.update t.cells a c b).op = some o := ho
    by_cases hab : b = a
    · rw [hab, Function.update_self, hop] at ho'
      cases ho'
    · rwa [Function.update_of_ne hab] at ho'

/-- **A timer fires.**  Its own operation fails, and the reply will find nobody. -/
theorem Table.Sound.onTimeout (h : t.Sound owed) (a : ℕ) :
    (t.onTimeout a).Sound owed ∧ Fades t (t.onTimeout a) ∧ (t.onTimeout a).asked = t.asked ∧
      ∃ ops : List ℕ, (t.onTimeout a).calls = t.calls ++ ops.map (⟨·, .error, .timeout⟩) := by
  by_cases htimer : (t.cells a).timer = true
  · have ha : a ∈ t.queue := by
      by_contra ha
      rw [(h.quiet a ha).2.2] at htimer
      cases htimer
    rw [Table.onTimeout, if_pos htimer]
    obtain ⟨hcalls, hcall⟩ := Table.call_frame { t with
      cells := Function.update t.cells a { t.cells a with timer := false, op := none } }
      (t.cells a).op .error .timeout
    refine ⟨?_, ?_, by rw [hcall], (t.cells a).op.toList, hcalls⟩
    · rw [hcall, hcalls]
      refine h.strip ha _ _ _ _ rfl rfl (Or.inl ⟨rfl, rfl⟩) ?_
      rw [List.map_append, List.map_map, List.append_assoc, List.append_assoc]
      refine List.Perm.append_left _ ?_
      have hid : (Call.op ∘ fun o => ⟨o, Outcome.error, Cause.timeout⟩) = id := rfl
      rw [hid, List.map_id]
      exact List.perm_append_comm
    · rw [hcall]
      exact fades_update rfl rfl rfl
  · rw [Table.onTimeout, if_neg htimer]
    exact ⟨h, fun o ho => ho, rfl, [], (List.append_nil _).symm⟩

/-- **A pool is destroyed.**  The cleanup reaches the entry of its own operation. -/
theorem Table.Sound.poolGone (h : t.Sound owed) (o : ℕ) :
    (t.poolGone o).Sound owed ∧ Fades t (t.poolGone o) ∧ (t.poolGone o).asked = t.asked ∧
      (t.poolGone o).calls = t.calls := by
  rw [Table.poolGone]
  cases harmed : t.armed o with
  | none => exact ⟨h, fun o ho => ho, rfl, rfl⟩
  | some a =>
    obtain ⟨ha, hcln⟩ := (h.armed o a).1 harmed
    refine ⟨?_, fades_update rfl rfl rfl, rfl, rfl⟩
    refine h.strip ha _ _ _ _ rfl rfl (Or.inr ⟨rfl, ?_⟩) ?_
    · rw [hcln]
      rfl
    · show (t.calls.map Call.op ++ (t.dropped ++ (t.cells a).op.toList)).Perm _
      rw [List.append_assoc]

/-- An entry that leads nowhere is written outside the queue. -/
theorem Table.Sound.shelf (h : t.Sound owed) (ha : a ∉ t.queue) {c : Cell} {free : List ℕ} {fresh : ℕ}
    (hbare : c.op = none ∧ c.cln = none ∧ c.timer = false) (hnodup : (t.queue ++ free).Nodup)
    (hknown : ∀ b ∈ t.queue ++ free, b < fresh) :
    Table.Sound { t with cells := Function.update t.cells a c, free := free, fresh := fresh }
      owed := by
  have hother : ∀ b ∈ t.queue, Function.update t.cells a c b = t.cells b := fun b hb =>
    Function.update_of_ne (ne_of_mem_of_not_mem hb ha) _ _
  have hback : ∀ b o, (Function.update t.cells a c b).cln = some o → (t.cells b).cln = some o := by
    intro b o ho
    by_cases hab : b = a
    · rw [hab, Function.update_self, hbare.2.1] at ho
      cases ho
    · rwa [Function.update_of_ne hab] at ho
  refine ⟨h.count, hnodup, hknown, ?_, ?_, ?_, fun b o ho => h.asked b o (hback b o ho),
    owed_congr hother h.owed, ?_, h.once⟩
  · intro b hb
    dsimp only
    by_cases hab : b = a
    · rw [hab, Function.update_self]
      exact hbare
    · rw [Function.update_of_ne hab]
      exact h.quiet b hb
  · intro o b
    dsimp only
    rw [h.armed]
    exact and_congr_right fun hb => by rw [hother b hb]
  · intro b o ho
    dsimp only at ho ⊢
    by_cases hab : b = a
    · rw [hab, Function.update_self, hbare.1] at ho
      cases ho
    · rw [Function.update_of_ne hab] at ho ⊢
      exact h.held b o ho
  · show t.asked.Perm (t.calls.map Call.op ++ t.dropped ++
      t.queue.filterMap fun b => (Function.update t.cells a c b).op)
    rw [pending_congr hother]
    exact h.account

/-- An entry that can be queued. -/
structure Table.Spare (t : Table) (a : ℕ) : Prop where
  queue : a ∉ t.queue
  free : a ∉ t.free
  fresh : a < t.fresh

/-- An entry for a new command comes from the free list or from the pool, and leads nowhere. -/
theorem Table.Sound.entryGet (h : t.Sound owed) {pcalloc : Bool} {t' : Table}
    (hget : t.entryGet pcalloc = some (a, t')) :
    t'.Sound owed ∧ t'.Spare a ∧ t'.cells a = Cell.empty ∧ t'.asked = t.asked ∧
      t'.calls = t.calls ∧ t'.queue = t.queue ∧ Fades t t' := by
  rw [Table.entryGet] at hget
  cases hfree : t.free with
  | cons b free =>
    rw [hfree] at hget
    cases hget
    have hnodup := h.nodup
    rw [hfree] at hnodup
    obtain ⟨hb, hnodup'⟩ := List.nodup_cons.1 (List.perm_middle.nodup_iff.1 hnodup)
    rw [List.mem_append, not_or] at hb
    have hknown := h.known
    rw [hfree] at hknown
    refine ⟨h.shelf hb.1 ⟨rfl, rfl, rfl⟩ hnodup' fun d hd => hknown d ?_,
      ⟨hb.1, hb.2, hknown a (by simp)⟩, Function.update_self _ _ _, rfl, rfl, rfl,
      fades_update (c := Cell.empty) rfl rfl rfl⟩
    rcases List.mem_append.1 hd with hd | hd
    · exact List.mem_append_left _ hd
    · exact List.mem_append_right _ (List.mem_cons_of_mem _ hd)
  | nil =>
    rw [hfree] at hget
    cases pcalloc with
    | false => cases hget
    | true =>
      cases hget
      have hnot : t.fresh ∉ t.queue := fun hmem =>
        absurd (h.known _ (List.mem_append_left _ hmem)) (lt_irrefl _)
      have hnodup := h.nodup
      have hknown := h.known
      rw [hfree] at hnodup hknown
      refine ⟨h.shelf hnot ⟨rfl, rfl, rfl⟩ hnodup fun d hd => Nat.lt_succ_of_lt (hknown d hd),
        ⟨hnot, List.not_mem_nil, Nat.lt_succ_self _⟩,
        Function.update_self _ _ _, rfl, rfl, rfl, fades_update (c := Cell.empty) rfl rfl rfl⟩

/-- An entry is given back. -/
theorem Table.Sound.give (h : t.Sound owed) (ha : t.Spare a) (bulk : Bool) :
    Table.Sound { t with
      cells := Function.update t.cells a ⟨none, none, false, bulk⟩, free := a :: t.free } owed := by
  refine h.shelf ha.queue ⟨rfl, rfl, rfl⟩ ?_ ?_
  · refine List.perm_middle.nodup_iff.2 (List.nodup_cons.2 ⟨?_, h.nodup⟩)
    rw [List.mem_append, not_or]
    exact ⟨ha.queue, ha.free⟩
  · intro b hb
    rcases List.mem_append.1 hb with hb | hb
    · exact h.known b (List.mem_append_left _ hb)
    · rcases List.mem_cons.1 hb with rfl | hb
      · exact ha.fresh
      · exact h.known b (List.mem_append_right _ hb)

/-- The cleanup of an operation leads to its entry. -/
def arm (armed : ℕ → Option ℕ) (a : ℕ) : Option ℕ → ℕ → Option ℕ
  | none => armed
  | some o => Function.update armed o (some a)

theorem arm_iff {armed : ℕ → Option ℕ} {b : ℕ} {op : Option ℕ}
    (h : ∀ c, op = some c → armed c ≠ some b) :
    arm armed a op o = some b ↔ (b = a ∧ op = some o) ∨ armed o = some b := by
  cases op with
  | none => simp [arm]
  | some c =>
    by_cases hc : o = c
    · subst hc
      simp [arm, h o rfl, eq_comm]
    · simp [arm, Function.update_of_ne hc, Ne.symm hc]

/-- An entry is queued for a command. -/
theorem Table.Sound.push (h : t.Sound owed) (ha : t.Spare a) (op : Option ℕ)
    (hop : ∀ o, op = some o → o ∉ t.asked) (timer bulk : Bool) (reply : Reply) :
    Table.Sound { t with
      cells := Function.update t.cells a ⟨op, op, timer, bulk⟩
      armed := arm t.armed a op
      asked := t.asked ++ op.toList
      queue := t.queue ++ [a]
      inflight := t.inflight + 1 } (owed ++ [⟨op, bulk, reply⟩]) := by
  have hother : ∀ b ∈ t.queue, Function.update t.cells a ⟨op, op, timer, bulk⟩ b = t.cells b :=
    fun b hb => Function.update_of_ne (ne_of_mem_of_not_mem hb ha.queue) _ _
  -- The fields in order; a cell other than `a` is as it was, and `a` was on neither list.
  refine ⟨?_, ?_, ?_, ?_, ?_, ?_, ?_, ?_, ?_, ?_⟩
  · show t.inflight + 1 = (t.queue ++ [a]).length
    rw [h.count, List.length_append]
    rfl
  · show (t.queue ++ [a] ++ t.free).Nodup
    rw [List.append_assoc]
    refine List.perm_middle.nodup_iff.2 (List.nodup_cons.2 ⟨?_, h.nodup⟩)
    show a ∉ t.queue ++ t.free
    rw [List.mem_append, not_or]
    exact ⟨ha.queue, ha.free⟩
  · intro b hb
    have hb' : b ∈ t.queue ++ [a] ++ t.free := hb
    simp only [List.append_assoc, List.mem_append, List.mem_singleton] at hb'
    rcases hb' with hb' | rfl | hb'
    · exact h.known b (List.mem_append_left _ hb')
    · exact ha.fresh
    · exact h.known b (List.mem_append_right _ hb')
  · intro b hb
    have hb' : b ∉ t.queue ++ [a] := hb
    rw [List.mem_append, List.mem_singleton, not_or] at hb'
    dsimp only
    rw [Function.update_of_ne hb'.2]
    exact h.quiet b hb'.1
  · intro o b
    show arm t.armed a op o = some b ↔
      b ∈ t.queue ++ [a] ∧ (Function.update t.cells a ⟨op, op, timer, bulk⟩ b).cln = some o
    rw [arm_iff fun c hc hb => hop c hc (h.asked b c ((h.armed c b).1 hb).2), List.mem_append,
      List.mem_singleton]
    by_cases hab : b = a
    · subst hab
      rw [Function.update_self, h.armed]
      simp [ha.queue]
    · rw [Function.update_of_ne hab, h.armed]
      simp [hab]
  · intro b o ho
    dsimp only at ho ⊢
    by_cases hab : b = a
    · rw [hab, Function.update_self] at ho ⊢
      exact ho
    · rw [Function.update_of_ne hab] at ho ⊢
      exact h.held b o ho
  · intro b o ho
    dsimp only at ho ⊢
    by_cases hab : b = a
    · rw [hab, Function.update_self] at ho
      have ho' : op = some o := ho
      rw [ho']
      exact List.mem_append_right _ (List.mem_singleton_self o)
    · rw [Function.update_of_ne hab] at ho
      exact List.mem_append_left _ (h.asked b o ho)
  · refine List.rel_append (owed_congr hother h.owed) (List.Forall₂.cons ?_ List.Forall₂.nil)
    rw [Function.update_self]
    exact ⟨rfl, fun o ho => ho⟩
  · show (t.asked ++ op.toList).Perm (t.calls.map Call.op ++ t.dropped ++
      (t.queue ++ [a]).filterMap fun b => (Function.update t.cells a ⟨op, op, timer, bulk⟩ b).op)
    rw [List.filterMap_append, pending_congr hother, ← List.append_assoc]
    refine h.account.append ?_
    simp only [List.filterMap_cons, Function.update_self, List.filterMap_nil]
    cases op with
    | none => exact List.Perm.refl _
    | some o => exact List.Perm.refl _
  · show (t.asked ++ op.toList).Nodup
    cases op with
    | none => simpa using h.once
    | some o =>
      rw [Option.toList_some, List.nodup_append]
      refine ⟨h.once, List.nodup_singleton o, fun b hb d hd => ?_⟩
      rw [List.mem_singleton.1 hd]
      exact ne_of_mem_of_not_mem hb (hop o rfl)

theorem fades_push (hqueue : t.queue ≠ []) {t' : Table} (hqueue' : t'.queue = t.queue ++ [a])
    (hother : ∀ b ∈ t.queue, t'.cells b = t.cells b) : Fades t t' := by
  intro o ho
  obtain ⟨b, queue, hq⟩ := List.exists_cons_of_ne_nil hqueue
  rw [Table.live, hqueue', hq] at ho
  rw [Table.live, hq]
  have hb := hother b (by rw [hq]; exact List.mem_cons_self)
  have ho' : (t'.cells b).op = some o := ho
  rwa [hb] at ho'

theorem Table.Sound.queue_ne_nil (h : t.Sound owed) (howed : owed ≠ []) : t.queue ≠ [] := by
  intro hnil
  have hlen := h.owed.length_eq
  rw [hnil] at hlen
  exact howed (List.length_eq_zero_iff.1 hlen.symm)

/-- A new entry that found no use. -/
theorem Table.Sound.unused (h : t.Sound owed) (ha : t.Spare a) (hempty : t.cells a = Cell.empty) :
    (t.entryFree a).Sound owed ∧ (t.entryFree a).calls = t.calls ∧
      (t.entryFree a).asked = t.asked ∧ Fades t (t.entryFree a) := by
  have heq : t.entryFree a = { t with
      cells := Function.update t.cells a ⟨none, none, false, false⟩, free := a :: t.free } := by
    simp only [Table.entryFree, hempty, Cell.empty, disarm]
  rw [heq]
  exact ⟨h.give ha false, rfl, rfl, fades_update (c := ⟨none, none, false, false⟩) rfl rfl rfl⟩

/-- An entry whose command did not go out: its cleanup leads nowhere. -/
theorem Table.Sound.unsent (h : t.Sound owed) (ha : t.Spare a) (ho : o ∉ t.asked) (bulk : Bool)
    {t' : Table} (ht' : t' = { t with
      cells := Function.update t.cells a ⟨some o, some o, false, bulk⟩
      armed := Function.update t.armed o (some a) }) :
    (t'.entryFree a).Sound owed ∧ (t'.entryFree a).calls = t.calls ∧
      (t'.entryFree a).asked = t.asked ∧ Fades t (t'.entryFree a) := by
  have harmed : t.armed o = none := by
    cases hb : t.armed o with
    | none => rfl
    | some b => exact absurd (h.asked b o ((h.armed o b).1 hb).2) ho
  have heq : t'.entryFree a = { t with
      cells := Function.update t.cells a ⟨none, none, false, bulk⟩, free := a :: t.free } := by
    have hdisarm : Function.update (Function.update t.armed o (some a)) o none = t.armed := by
      rw [Function.update_idem, ← harmed, Function.update_eq_self]
    simp only [ht', Table.entryFree, Function.update_self, Function.update_idem, disarm, hdisarm]
  rw [heq]
  exact ⟨h.give ha bulk, rfl, rfl, fades_update (c := ⟨none, none, false, bulk⟩) rfl rfl rfl⟩

/-- **A put or a get.**  It is queued behind the others, or nothing is left of it. -/
theorem Table.Sound.ask (h : t.Sound owed) (ho : o ∉ t.asked) {mood : Mood} {bulk ok : Bool}
    {t' : Table} (reply : Reply) (hask : t.ask mood o bulk = (t', ok)) :
    t'.Sound (if ok then owed ++ [⟨some o, bulk, reply⟩] else owed) ∧ t'.calls = t.calls ∧
      t'.asked = t.asked ++ (if ok then [o] else []) ∧ (owed ≠ [] → Fades t t') := by
  rw [Table.ask] at hask
  cases hget : t.entryGet mood.entry with
  | none =>
    rw [hget] at hask
    cases hask
    exact ⟨h, rfl, (List.append_nil _).symm, fun _ o ho => ho⟩
  | some got =>
    obtain ⟨a, t₁⟩ := got
    obtain ⟨h₁, ha, hempty, hasked, hcalls, -, hfades⟩ := h.entryGet hget
    have ho₁ : o ∉ t₁.asked := hasked ▸ ho
    rw [hget] at hask
    dsimp only at hask
    by_cases hcleanup : mood.cleanup = true
    · rw [if_pos hcleanup] at hask
      by_cases hsent : mood.sent = true
      · rw [if_pos hsent] at hask
        cases hask
        have hpush := h₁.push ha (some o) (fun c hc => Option.some.inj hc ▸ ho₁) true bulk reply
        refine ⟨?_, hcalls, by rw [← hasked]; rfl, fun hne o ho => hfades o ?_⟩
        · simpa only [Table.entryPush, Function.update_self, Function.update_idem, arm,
            Option.toList_some, if_true] using hpush
        · refine fades_push (h₁.queue_ne_nil hne) rfl (fun b hb => ?_) o ho
          have hba := ne_of_mem_of_not_mem hb ha.queue
          show Function.update (Function.update t₁.cells a _) a _ b = t₁.cells b
          rw [Function.update_of_ne hba, Function.update_of_ne hba]
      · rw [if_neg hsent] at hask
        cases hask
        obtain ⟨hsound, hcalls', hasked', hfades'⟩ := h₁.unsent ha ho₁ bulk rfl
        exact ⟨hsound, hcalls'.trans hcalls, by rw [hasked', hasked]; exact (List.append_nil _).symm,
          fun _ o ho => hfades o (hfades' o ho)⟩
    · rw [if_neg hcleanup] at hask
      cases hask
      obtain ⟨hsound, hcalls', hasked', hfades'⟩ := h₁.unused ha hempty
      exact ⟨hsound, hcalls'.trans hcalls, by rw [hasked', hasked]; exact (List.append_nil _).symm,
        fun _ o ho => hfades o (hfades' o ho)⟩

/-- **A command for nobody.**  It takes its place in the queue. -/
theorem Table.Sound.command (h : t.Sound owed) {mood : Mood} {ok : Bool} {t' : Table} (reply : Reply)
    (hcommand : t.command mood = (t', ok)) :
    t'.Sound (if ok then owed ++ [⟨none, false, reply⟩] else owed) ∧ t'.calls = t.calls ∧
      t'.asked = t.asked ∧ (owed ≠ [] → Fades t t') := by
  rw [Table.command] at hcommand
  cases hget : t.entryGet mood.entry with
  | none =>
    rw [hget] at hcommand
    cases hcommand
    exact ⟨h, rfl, rfl, fun _ o ho => ho⟩
  | some got =>
    obtain ⟨a, t₁⟩ := got
    obtain ⟨h₁, ha, hempty, hasked, hcalls, -, hfades⟩ := h.entryGet hget
    rw [hget] at hcommand
    dsimp only at hcommand
    by_cases hsent : mood.sent = true
    · rw [if_pos hsent] at hcommand
      cases hcommand
      have hpush := h₁.push ha none (fun c hc => by cases hc) false false reply
      have hsame : Function.update t₁.cells a ⟨none, none, false, false⟩ = t₁.cells := by
        have hempty' : (⟨none, none, false, false⟩ : Cell) = t₁.cells a := hempty.symm
        rw [hempty', Function.update_eq_self]
      have hpushed : ∀ hne : owed ≠ [], Fades t₁ (t₁.entryPush a) := fun hne =>
        fades_push (h₁.queue_ne_nil hne) rfl fun b _ => rfl
      refine ⟨?_, hcalls, hasked, fun hne o ho => hfades o (hpushed hne o ho)⟩
      simpa only [hsame, Table.entryPush, arm, Option.toList_none, List.append_nil, if_true]
        using hpush
    · rw [if_neg hsent] at hcommand
      cases hcommand
      obtain ⟨hsound, hcalls', hasked', hfades'⟩ := h₁.unused ha hempty
      exact ⟨hsound, hcalls'.trans hcalls, hasked'.trans hasked,
        fun _ o ho => hfades o (hfades' o ho)⟩

end Queue

/-! ### The bytes -/

/-- What an operation is told when a command is answered. -/
def Cmd.answer (len : ℕ → ℕ) (o : ℕ) (cmd : Cmd) : Outcome :=
  match cmd.reply with
  | .simple _ => .ok none
  | .integer _ => .ok none
  | .error _ => .error
  | .null => if cmd.bulk then .declined else .ok none
  | .bulk data =>
    if cmd.bulk then if data.length ≤ len o then .ok (some data) else .error else .ok none

/-- The bytes that the server owes for commands. -/
def due (owed : List Cmd) : Bytes := owed.flatMap fun cmd => cmd.reply.encode

/-- A first line fits the input buffer and is one line, and the size of a bulk is an integer. -/
def Reply.Fits (inSize : ℕ) (r : Reply) : Prop :=
  10 ∉ r.line ∧ r.line.length + 2 ≤ inSize ∧ ∀ data, r = .bulk data → data.length ≤ maxInt

/-- **What is still to come.**  Between two replies it is what the server owes; within a bulk, `past`
is the part that was taken, and it is thrown away or collected. -/
inductive Pipe.Owes (len : ℕ → ℕ) (w : Pipe) : List Cmd → Prop
  | between {owed : List Cmd} (hskip : w.skip = 0) (herr : w.skipErr = false)
      (hneed : w.bulkNeed = 0) (hrest : w.unread ++ w.stream = due owed) : w.Owes len owed
  | skipping {cmd : Cmd} {owed : List Cmd} {data past : Bytes} (hreply : cmd.reply = .bulk data)
      (hskip : w.skip ≠ 0) (herr : w.skipErr = cmd.bulk) (hneed : w.bulkNeed = 0)
      (hlen : past.length + w.skip = data.length + 2)
      (hrest : past ++ (w.unread ++ w.stream) = data ++ crlf ++ due owed)
      (hwhy : cmd.bulk = true →
        ∀ o, w.table.live = some o → len o < data.length ∨ o ∈ w.starved) :
      w.Owes len (cmd :: owed)
  | collecting {cmd : Cmd} {owed : List Cmd} {data past : Bytes} (hreply : cmd.reply = .bulk data)
      (hbulk : cmd.bulk = true) (hskip : w.skip = 0) (herr : w.skipErr = false)
      (hneed : w.bulkNeed ≠ 0) (hlen : past.length + w.bulkNeed = data.length + 2)
      (hrest : past ++ (w.unread ++ w.stream) = data ++ crlf ++ due owed)
      (hsize : w.bulkSize = data.length) (hgot : w.bulk = past.take data.length)
      (hfit : ∀ o, w.table.live = some o → data.length ≤ len o) : w.Owes len (cmd :: owed)

/-- A call was right: its reply was the one to its own command, or it is told of a failure: that its own
bulk found no memory, that its time is over or that the link is lost. -/
def Pipe.Right (len : ℕ → ℕ) (w : Pipe) (call : Call) : Prop :=
  match call.cause with
  | .reply => ∃ cmd ∈ w.sent, cmd.op = some call.op ∧
      (call.out = cmd.answer len call.op ∨ (call.out = .error ∧ call.op ∈ w.starved))
  | .timeout => call.out = .error
  | .lost => call.out = .error

/-- The invariant of a connection: `owed` are the commands that are not answered yet. -/
structure Pipe.Inv (len : ℕ → ℕ) (inSize : ℕ) (w : Pipe) (owed : List Cmd) : Prop where
  table : w.table.Sound owed
  fault : w.fault = false
  sent : owed <:+ w.sent
  names : w.sent.filterMap Cmd.op = w.table.asked
  fits : ∀ cmd ∈ w.sent, cmd.reply.Fits inSize
  room : w.pos ≤ w.buf.length ∧ w.buf.length ≤ inSize
  owes : w.up = true → w.Owes len owed
  idle : w.mode = .idle → w.unread = [] ∨ (w.skip = 0 ∧ w.bulkNeed = 0 ∧ 10 ∉ w.unread)
  down : w.mode = .down → owed = [] ∧ w.skip = 0 ∧ w.skipErr = false ∧ w.bulkNeed = 0
  right : ∀ call ∈ w.table.calls, w.Right len call

section Bytes

variable {len : ℕ → ℕ} {inSize : ℕ} {w w' : Pipe} {owed : List Cmd} {cmd : Cmd}

/-- The first line of what is to come, when its end was read. -/
theorem takeWhile_line {a s l m : Bytes} (h : a ++ s = l ++ 10 :: m) (hl : 10 ∉ l) (ha : 10 ∈ a) :
    a.takeWhile (· ≠ 10) = l ∧ ∃ r, a = l ++ 10 :: r ∧ r ++ s = m := by
  rcases List.append_eq_append_iff.1 h with ⟨d, rfl, -⟩ | ⟨d, rfl, hd⟩
  · exact absurd (List.mem_append_left _ ha) hl
  · cases d with
    | nil => exact absurd (by simpa using ha) hl
    | cons c r =>
      obtain ⟨rfl, rfl⟩ := List.cons.inj hd
      refine ⟨?_, r, rfl, rfl⟩
      rw [List.takeWhile_append_of_pos fun c hc => by simpa using ne_of_mem_of_not_mem hc hl]
      simp

theorem due_cons (cmd : Cmd) (owed : List Cmd) :
    due (cmd :: owed) = (cmd.reply.line ++ [13]) ++ 10 :: (cmd.reply.payload ++ due owed) := by
  simp [due, Reply.encode, crlf]

theorem Reply.Fits.line {r : Reply} (h : r.Fits inSize) : 10 ∉ r.line ++ [13] := by
  simpa using h.1

theorem dropCr_line (l : Bytes) : Bus.dropCr (l ++ [13]) = l := by
  simp [Bus.dropCr]

/-- Taking bytes off the front of the buffer. -/
theorem unread_advance (w : Pipe) (n : ℕ) : w.buf.drop (w.pos + n) = w.unread.drop n := by
  rw [Pipe.unread, List.drop_drop]

theorem Pipe.Right.mono {call : Call} (h : w.Right len call) (hsent : w.sent <+: w'.sent)
    (hstarved : w.starved ⊆ w'.starved) : w'.Right len call := by
  unfold Pipe.Right at h ⊢
  cases hcause : call.cause with
  | reply =>
    rw [hcause] at h
    obtain ⟨cmd, hmem, hop, hout⟩ := h
    exact ⟨cmd, hsent.subset hmem, hop, hout.imp_right fun h => ⟨h.1, hstarved h.2⟩⟩
  | timeout => rwa [hcause] at h
  | lost => rwa [hcause] at h

/-- Commands behind the others change nothing in what is to come for these. -/
theorem Pipe.Owes.grow (h : w.Owes len owed) (new : List Cmd)
    (hsame : w'.skip = w.skip ∧ w'.skipErr = w.skipErr ∧ w'.bulkNeed = w.bulkNeed ∧
      w'.bulk = w.bulk ∧ w'.bulkSize = w.bulkSize)
    (hrest : w'.unread ++ w'.stream = w.unread ++ w.stream ++ due new)
    (hlive : owed ≠ [] → Fades w.table w'.table) (hstarved : w'.starved = w.starved) :
    w'.Owes len (owed ++ new) := by
  obtain ⟨hskip', herr', hneed', hbulk', hsize'⟩ := hsame
  have hdue : ∀ owed : List Cmd, due owed ++ due new = due (owed ++ new) := fun owed =>
    (List.flatMap_append ..).symm
  cases h with
  | between hskip herr hneed h =>
    refine .between (hskip'.trans hskip) (herr'.trans herr) (hneed'.trans hneed) ?_
    rw [hrest, h, hdue]
  | @skipping cmd owed data past hreply hskip herr hneed hlen h hwhy =>
    have hlen' : past.length + w'.skip = data.length + 2 := hskip' ▸ hlen
    refine .skipping hreply (hskip' ▸ hskip) (herr'.trans herr) (hneed'.trans hneed) hlen' ?_
      fun hbulk => ?_
    · rw [hrest, ← List.append_assoc, h, List.append_assoc, hdue]
      rfl
    · rw [hstarved]
      exact fun o ho => hwhy hbulk o (hlive (List.cons_ne_nil _ _) o ho)
  | @collecting cmd owed data past hreply hbulk hskip herr hneed hlen h hsize hgot hfit =>
    have hlen' : past.length + w'.bulkNeed = data.length + 2 := hneed' ▸ hlen
    refine .collecting hreply hbulk (hskip'.trans hskip) (herr'.trans herr) (hneed' ▸ hneed) hlen' ?_
      (hsize'.trans hsize) (hbulk'.trans hgot) fun o ho => hfit o (hlive (List.cons_ne_nil _ _) o ho)
    rw [hrest, ← List.append_assoc, h, List.append_assoc, hdue]
    rfl

/-- The same bytes in other places. -/
theorem Pipe.Owes.congr (h : w.Owes len owed)
    (hsame : w'.skip = w.skip ∧ w'.skipErr = w.skipErr ∧ w'.bulkNeed = w.bulkNeed ∧
      w'.bulk = w.bulk ∧ w'.bulkSize = w.bulkSize)
    (hrest : w'.unread ++ w'.stream = w.unread ++ w.stream)
    (hlive : Fades w.table w'.table) (hstarved : w'.starved = w.starved) : w'.Owes len owed := by
  have hgrow := h.grow [] hsame (by rw [hrest]; exact (List.append_nil _).symm) (fun _ => hlive)
    hstarved
  rwa [List.append_nil] at hgrow

/-- **A reply is taken.**  The first entry leaves, and its operation is told. -/
theorem Pipe.Inv.settle (h : w.Inv len inSize (cmd :: owed)) (out : Outcome) (cause : Cause)
    (htable : ∀ t, w.table.pop = some (w.table.live, t) → w'.table = t.call w.table.live out cause)
    (hsent : w'.sent = w.sent) (hfault : w'.fault = false)
    (hstarved : w.starved ⊆ w'.starved)
    (hroom : w'.pos ≤ w'.buf.length ∧ w'.buf.length ≤ inSize)
    (hmode : w'.mode = .parsing ∧ w'.Owes len owed ∨ w'.mode = .draining)
    (hout : ∀ o, w.table.live = some o → cmd.op = some o → w'.Right len ⟨o, out, cause⟩) :
    w'.Inv len inSize owed := by
  obtain ⟨t, hpop, -, hop, hcalls, hasked, hsound⟩ := h.table.pop
  have htable' := htable t hpop
  refine ⟨htable' ▸ hsound out cause, hfault, ?_, ?_, hsent ▸ h.fits, hroom, fun hup => ?_,
    fun hidle => ?_,    fun hdown => ?_, fun call hcall => ?_⟩
  · rw [hsent]
    exact (List.suffix_cons cmd owed).trans h.sent
  · rw [hsent, h.names, htable', (t.call_frame _ _ _).2, ← hasked]
  · rcases hmode with ⟨-, howes⟩ | hmode
    · exact howes
    · rw [Pipe.up, hmode] at hup
      cases hup
  · rcases hmode with ⟨hmode, -⟩ | hmode <;> rw [hmode] at hidle <;> cases hidle
  · rcases hmode with ⟨hmode, -⟩ | hmode <;> rw [hmode] at hdown <;> cases hdown
  · rw [htable', (t.call_frame _ _ _).1, hcalls] at hcall
    rcases List.mem_append.1 hcall with hcall | hcall
    · exact (h.right call hcall).mono (hsent ▸ List.prefix_refl _) hstarved
    · obtain ⟨o, ho, rfl⟩ := List.mem_map.1 hcall
      have hlive : w.table.live = some o := Option.mem_toList.1 ho
      exact hout o hlive (hop o hlive)

theorem Pipe.entryDone_eq {op : Option ℕ} {t : Table} (hpop : w.table.pop = some (op, t))
    (out : Outcome) (cause : Cause) :
    w.entryDone out cause = { w with table := t.call op out cause } := by
  rw [Pipe.entryDone, hpop]

/-- **Taking part of a bulk.**  It ends where all of it was taken, and else the buffer is empty. -/
theorem take_bulk {past u s data d : Bytes} {k : ℕ} (hlen : past.length + k = data.length + 2)
    (h : past ++ (u ++ s) = data ++ crlf ++ d) :
    (past ++ u.take (min u.length k)).length + (k - min u.length k) = data.length + 2 ∧
      (past ++ u.take (min u.length k)) ++ (u.drop (min u.length k) ++ s) = data ++ crlf ++ d ∧
      (k - min u.length k ≠ 0 → u.drop (min u.length k) = []) ∧
      (k - min u.length k = 0 → past ++ u.take (min u.length k) = data ++ crlf ∧
        u.drop (min u.length k) ++ s = d) := by
  have hfirst : (past ++ u.take (min u.length k)).length + (k - min u.length k) =
      data.length + 2 := by
    rw [List.length_append, List.length_take]
    omega
  have hall : (past ++ u.take (min u.length k)) ++ (u.drop (min u.length k) ++ s) =
      data ++ crlf ++ d := by
    rw [← h, List.append_assoc, ← List.append_assoc (u.take _), List.take_append_drop]
  refine ⟨hfirst, hall, fun hk => ?_, fun hk => ?_⟩
  · exact List.drop_eq_nil_of_le (by omega)
  · refine List.append_inj hall ?_
    rw [@List.length_append _ data, show crlf.length = 2 from rfl]
    omega

/-- The part of a body that is copied. -/
theorem take_body (past u data : Bytes) (n : ℕ) :
    past.take data.length ++ u.take (if (past.take data.length).length < data.length
        then min n (data.length - (past.take data.length).length) else 0) =
      (past ++ u.take n).take data.length := by
  rw [List.take_append, List.take_take, List.length_take]
  congr 2
  split_ifs <;> omega

/-- A turn within a bulk that is collected. -/
theorem Pipe.Inv.collect (h : w.Inv len inSize owed) (hmode : w.mode = .parsing)
    (hstart : w.unread ≠ []) (hneed : w.bulkNeed ≠ 0) (mem : Bool) :
    ∃ owed', (w.parse len mem).Inv len inSize owed' := by
  have howes := h.owes (by rw [Pipe.up, hmode]; rfl)
  cases howes with
  | between hskip herr hneed' => exact absurd hneed' hneed
  | skipping hreply hskip herr hneed' => exact absurd hneed' hneed
  | @collecting cmd owed data past hreply hbulk hskip herr _ hlen hrest hsize hgot hfit =>
    obtain ⟨hlen', hrest', hempty, hdone⟩ := take_bulk hlen hrest
    have hbody := take_body past w.unread data (min w.unread.length w.bulkNeed)
    have hroom : w.pos + min w.unread.length w.bulkNeed ≤ w.buf.length ∧ w.buf.length ≤ inSize := by
      refine ⟨?_, h.room.2⟩
      have hunread : w.unread.length = w.buf.length - w.pos := List.length_drop
      have hpos := h.room.1
      omega
    rw [Pipe.parse]
    dsimp only
    rw [if_neg hstart, if_pos hneed, hgot, hsize, hbody]
    by_cases hmore : w.bulkNeed - min w.unread.length w.bulkNeed = 0
    -- The bulk and the CR LF after it are complete.
    · obtain ⟨hpast, hnext⟩ := hdone hmore
      have hbody' :
          (past ++ w.unread.take (min w.unread.length w.bulkNeed)).take data.length = data := by
        rw [hpast, List.take_left]
      obtain ⟨t, hpop, -, hop, -⟩ := h.table.pop
      rw [if_neg (not_not.2 hmore), Pipe.bulkReady]
      dsimp only
      rw [hpop, hbody']
      refine ⟨owed, h.settle (if mem then .ok (some data) else .error) .reply
        (fun t' ht' => ?_) rfl h.fault ?_ hroom (Or.inl ⟨hmode, ?_⟩)
        fun o ho hcmd => ?_⟩
      · rw [hpop] at ht'
        cases ht'
        rfl
      · dsimp only
        split
        · exact List.Subset.refl _
        · exact List.subset_append_right _ _
      · refine .between hskip herr hmore ?_
        show w.buf.drop _ ++ w.stream = _
        rw [unread_advance, hnext]
      -- The bytes collected are those of the reply, unless there was no memory to copy them.
      · refine ⟨cmd, h.sent.subset List.mem_cons_self, hcmd, ?_⟩
        cases mem with
        | true =>
          refine Or.inl ?_
          simp only [Cmd.answer, hreply, hbulk, if_true, if_pos (hfit o ho)]
        | false => exact Or.inr ⟨rfl, List.mem_append_left _ (Option.mem_toList.2 ho)⟩
    · rw [if_pos hmore]
      refine ⟨cmd :: owed, h.table, h.fault, h.sent, h.names, h.fits, hroom, fun _ => ?_,
        fun _ => Or.inl ?_, fun hdown => (by cases hdown), h.right⟩
      · refine .collecting hreply hbulk hskip herr hmore hlen' ?_ rfl rfl hfit
        show _ ++ (w.buf.drop _ ++ w.stream) = _
        rw [unread_advance, hrest']
      · show w.buf.drop _ = []
        rw [unread_advance, hempty hmore]

/-- An entry is done by a turn of the parser, which goes on. -/
theorem Pipe.Inv.done (h : w.Inv len inSize (cmd :: owed)) {out : Outcome}
    (htable : w'.table = w.table) (hsent : w'.sent = w.sent) (hfault : w'.fault = w.fault)
    (hstarved : w'.starved = w.starved) (hroom : w'.pos ≤ w'.buf.length ∧ w'.buf.length ≤ inSize)
    (hmode : w'.mode = .parsing)
    (hbetween : w'.skip = 0 ∧ w'.skipErr = false ∧ w'.bulkNeed = 0)
    (hrest : w'.unread ++ w'.stream = due owed)
    (hout : ∀ o, w.table.live = some o →
      out = cmd.answer len o ∨ (out = .error ∧ o ∈ w.starved)) :
    (w'.entryDone out .reply).Inv len inSize owed := by
  obtain ⟨t, hpop, -⟩ := h.table.pop
  have hkept : w.starved ⊆ w'.starved := hstarved ▸ List.Subset.refl _
  have hpop' : w'.table.pop = some (w.table.live, t) := htable ▸ hpop
  rw [Pipe.entryDone_eq hpop']
  refine h.settle out .reply (fun t' ht' => ?_) hsent (hfault.trans h.fault)
    hkept hroom (Or.inl ⟨hmode, ?_⟩) fun o ho hcmd => ?_
  · rw [hpop] at ht'
    cases ht'
    rfl
  · exact .between hbetween.1 hbetween.2.1 hbetween.2.2 hrest
  · refine ⟨cmd, ?_, hcmd, (hout o ho).imp_right fun h => ⟨h.1, hstarved.symm ▸ h.2⟩⟩
    show cmd ∈ w'.sent
    rw [hsent]
    exact h.sent.subset List.mem_cons_self

/-- A turn within a bulk that is thrown away. -/
theorem Pipe.Inv.discard (h : w.Inv len inSize owed) (hmode : w.mode = .parsing)
    (hstart : w.unread ≠ []) (hneed : w.bulkNeed = 0) (hskip : w.skip ≠ 0) (mem : Bool) :
    ∃ owed', (w.parse len mem).Inv len inSize owed' := by
  have howes := h.owes (by rw [Pipe.up, hmode]; rfl)
  cases howes with
  | between hskip' => exact absurd hskip' hskip
  | collecting hreply hbulk hskip' => exact absurd hskip' hskip
  | @skipping cmd owed data past hreply _ herr _ hlen hrest hwhy =>
    obtain ⟨hlen', hrest', hempty, hdone⟩ := take_bulk hlen hrest
    have hroom : w.pos + min w.unread.length w.skip ≤ w.buf.length ∧ w.buf.length ≤ inSize := by
      refine ⟨?_, h.room.2⟩
      have hunread : w.unread.length = w.buf.length - w.pos := List.length_drop
      have hpos := h.room.1
      omega
    rw [Pipe.parse]
    dsimp only
    rw [if_neg hstart, if_neg (not_not.2 hneed), if_pos hskip]
    by_cases hmore : w.skip - min w.unread.length w.skip = 0
    · obtain ⟨-, hnext⟩ := hdone hmore
      have hrest'' : w.buf.drop (w.pos + min w.unread.length w.skip) ++ w.stream = due owed := by
        rw [unread_advance, hnext]
      rw [if_neg (not_not.2 hmore)]
      by_cases hbulk : cmd.bulk = true
      · rw [if_pos (herr.trans hbulk)]
        refine ⟨owed, h.done rfl rfl rfl rfl hroom hmode ⟨hmore, rfl, hneed⟩ hrest'' fun o ho => ?_⟩
        rcases hwhy hbulk o ho with hlong | hstarved
        · refine Or.inl ?_
          simp only [Cmd.answer, hreply, hbulk, if_true, if_neg (Nat.not_le.2 hlong)]
        · exact Or.inr ⟨rfl, hstarved⟩
      · have hbulk' := Bool.eq_false_of_not_eq_true hbulk
        rw [if_neg (by rw [herr, hbulk']; exact Bool.false_ne_true)]
        refine ⟨owed, h.done rfl rfl rfl rfl hroom hmode ⟨hmore, herr.trans hbulk', hneed⟩ hrest''
          fun o _ => Or.inl ?_⟩
        simp only [Cmd.answer, hreply, hbulk', Bool.false_eq_true, if_false]
    · rw [if_pos hmore]
      refine ⟨cmd :: owed, h.table, h.fault, h.sent, h.names, h.fits, hroom, fun _ => ?_,
        fun _ => Or.inl ?_, fun hdown => (by cases hdown), h.right⟩
      · refine .skipping hreply hmore herr hneed hlen' ?_ hwhy
        show _ ++ (w.buf.drop _ ++ w.stream) = _
        rw [unread_advance, hrest']
      · show w.buf.drop _ = []
        rw [unread_advance, hempty hmore]

/-- A turn that leaves the queue as it is and goes on. -/
theorem Pipe.Inv.stay (h : w.Inv len inSize owed) (htable : w'.table = w.table)
    (hsent : w'.sent = w.sent) (hfault : w'.fault = w.fault)
    (hstarved : w.starved ⊆ w'.starved)
    (hroom : w'.pos ≤ w'.buf.length ∧ w'.buf.length ≤ inSize) (hmode : w'.mode = .parsing)
    (howes : w'.Owes len owed) : w'.Inv len inSize owed := by
  refine ⟨htable ▸ h.table, hfault.trans h.fault, hsent ▸ h.sent, ?_, hsent ▸ h.fits, hroom,
    fun _ => howes, fun hidle => ?_, fun hdown => ?_, fun call hcall => ?_⟩
  · rw [hsent, htable]
    exact h.names
  · rw [hmode] at hidle
    cases hidle
  · rw [hmode] at hdown
    cases hdown
  · rw [htable] at hcall
    exact (h.right call hcall).mono (hsent ▸ List.prefix_refl _) hstarved

/-- **The head of a bulk.**  A bulk of its size follows, or none. -/
theorem Pipe.Inv.head (w' : Pipe) (h : w.Inv len inSize (cmd :: owed)) (htable : w'.table = w.table)
    (hsent : w'.sent = w.sent) (hfault : w'.fault = w.fault) (hstarved : w'.starved = w.starved)
    (hroom : w'.pos ≤ w'.buf.length ∧ w'.buf.length ≤ inSize) (hmode : w'.mode = .parsing)
    (hbetween : w'.skip = 0 ∧ w'.skipErr = false ∧ w'.bulkNeed = 0) (mem : Bool) {n : Option ℕ}
    (hrest : w'.unread ++ w'.stream = cmd.reply.payload ++ due owed)
    (hreply : (∃ data, cmd.reply = .bulk data ∧ n = some data.length) ∨
      (cmd.reply = .null ∧ n = none)) :
    ∃ owed', (w'.bulkHead len mem n).Inv len inSize owed' := by
  obtain ⟨hskip, herr, hneed⟩ := hbetween
  obtain ⟨t, -, hhead, -⟩ := h.table.pop
  have hkept : w.starved ⊆ w'.starved := hstarved ▸ List.Subset.refl _
  have hhead' : w'.table.headBulk = cmd.bulk := htable ▸ hhead
  unfold Pipe.bulkHead
  rw [hhead']
  rcases hreply with ⟨data, hreply, rfl⟩ | ⟨hreply, rfl⟩
  · have hrest' : w'.unread ++ w'.stream = data ++ crlf ++ due owed := by
      rw [hrest, hreply]
      rfl
    have hnil : ([] : Bytes).length + (data.length + 2) = data.length + 2 := Nat.zero_add _
    by_cases hbulk : cmd.bulk = true
    · rw [if_pos hbulk]
      dsimp only
      -- The bulk is longer than its operation takes, or there is memory for it, or there is none.
      split_ifs with hlong hmem
      · refine ⟨_, h.stay htable hsent hfault hkept hroom hmode ?_⟩
        refine .skipping hreply (Nat.succ_ne_zero _) hbulk.symm hneed hnil
          hrest' fun _ o ho => Or.inl ?_
        have ho' : w'.table.live = some o := ho
        rw [ho'] at hlong
        exact of_decide_eq_true hlong
      · refine ⟨_, h.stay htable hsent hfault hkept hroom hmode ?_⟩
        refine .collecting hreply hbulk hskip herr (Nat.succ_ne_zero _) hnil
          hrest' rfl List.take_nil.symm fun o ho => ?_
        have ho' : w'.table.live = some o := ho
        rw [ho'] at hlong
        exact Nat.not_lt.1 fun hlt => hlong (decide_eq_true hlt)
      · refine ⟨_, h.stay htable hsent hfault
          (fun o ho => List.mem_append_right _ (hkept ho)) hroom hmode ?_⟩
        exact .skipping hreply (Nat.succ_ne_zero _) hbulk.symm hneed hnil
          hrest' fun _ o ho => Or.inr (List.mem_append_left _ (Option.mem_toList.2 ho))
    -- The operation wants no bulk: it is skipped, and that is no error.
    · rw [if_neg hbulk]
      refine ⟨_, h.stay htable hsent hfault hkept hroom hmode ?_⟩
      refine .skipping hreply (Nat.succ_ne_zero _) ?_ hneed hnil hrest'
        fun hyes => absurd hyes hbulk
      show w'.skipErr = cmd.bulk
      rw [herr, Bool.eq_false_of_not_eq_true hbulk]
  · have hrest' : w'.unread ++ w'.stream = due owed := by
      rw [hrest, hreply]
      rfl
    by_cases hbulk : cmd.bulk = true
    · rw [if_pos hbulk]
      refine ⟨owed, h.done htable hsent hfault hstarved hroom hmode ⟨hskip, herr, hneed⟩ hrest'
        fun o _ => Or.inl ?_⟩
      simp only [Cmd.answer, hreply, hbulk, if_true]
    · rw [if_neg hbulk]
      refine ⟨owed, h.done htable hsent hfault hstarved hroom hmode ⟨hskip, herr, hneed⟩ hrest'
        fun o _ => Or.inl ?_⟩
      simp only [Cmd.answer, hreply, if_neg hbulk]

/-- **A line.**  It is the first line of the reply to the first command. -/
theorem Pipe.Inv.line (h : w.Inv len inSize owed) (hmode : w.mode = .parsing)
    (hstart : w.unread ≠ []) (hneed : w.bulkNeed = 0) (hskip : w.skip = 0) (hlf : 10 ∈ w.unread)
    (mem : Bool) : ∃ owed', (w.parse len mem).Inv len inSize owed' := by
  have howes := h.owes (by rw [Pipe.up, hmode]; rfl)
  cases howes with
  | skipping hreply hskip' => exact absurd hskip hskip'
  | collecting hreply hbulk _ herr hneed' => exact absurd hneed hneed'
  | between _ herr _ hrest =>
    cases owed with
    | nil =>
      -- The server says nothing that it was not asked for.
      have hnil : w.unread = [] := (List.append_eq_nil_iff.1 hrest).1
      exact absurd hnil hstart
    | cons cmd owed =>
      have hfits := h.fits cmd (h.sent.subset List.mem_cons_self)
      rw [due_cons] at hrest
      obtain ⟨hline, rest, hunread, hnext⟩ := takeWhile_line hrest hfits.line hlf
      rw [Pipe.parse]
      dsimp only
      rw [if_neg hstart, if_neg (not_not.2 hneed), if_neg (not_not.2 hskip), if_neg (not_not.2 hlf),
        hline]
      have hpos : w.pos + (cmd.reply.line ++ [13]).length + 1 ≤ w.buf.length := by
        have hlen : w.unread.length = w.buf.length - w.pos := List.length_drop
        rw [hunread, List.length_append, List.length_cons] at hlen
        omega
      have hdrop : w.buf.drop (w.pos + (cmd.reply.line ++ [13]).length + 1) = rest := by
        rw [Nat.add_assoc, unread_advance, hunread, List.drop_append]
        simp
      have hrest' : w.buf.drop (w.pos + (cmd.reply.line ++ [13]).length + 1) ++ w.stream =
          cmd.reply.payload ++ due owed := by
        rw [hdrop, hnext]
      have hroom := And.intro hpos h.room.2
      cases hreply : cmd.reply with
      | simple text | integer text | error text =>
        -- The line is the whole reply.
        rw [hreply] at hroom hrest'
        refine ⟨owed, h.done rfl rfl rfl rfl hroom hmode ⟨hskip, herr, hneed⟩ hrest' fun o _ =>
          Or.inl ?_⟩
        simp only [Cmd.answer, hreply]
      | bulk data =>
        have hsize : atoi (Bus.dropCr ((Reply.bulk data).line ++ [13])).tail = some data.length := by
          rw [dropCr_line]
          exact atoi_decimal (hfits.2.2 data hreply)
        rw [hreply] at hroom hrest'
        exact Pipe.Inv.head { w with pos := w.pos + ((Reply.bulk data).line ++ [13]).length + 1 }
          h rfl rfl rfl rfl hroom hmode ⟨hskip, herr, hneed⟩ mem
          (by rw [hreply]; exact hrest') (Or.inl ⟨data, hreply, hsize⟩)
      | null =>
        have hsize : atoi (Bus.dropCr (Reply.null.line ++ [13])).tail = none := by
          rw [dropCr_line]
          rfl
        rw [hreply] at hroom hrest'
        exact Pipe.Inv.head { w with pos := w.pos + (Reply.null.line ++ [13]).length + 1 }
          h rfl rfl rfl rfl hroom hmode ⟨hskip, herr, hneed⟩ mem
          (by rw [hreply]; exact hrest') (Or.inr ⟨hreply, hsize⟩)

/-- **A turn of the parser.** -/
theorem Pipe.Inv.parse (h : w.Inv len inSize owed) (hmode : w.mode = .parsing) (mem : Bool) :
    ∃ owed', (w.parse len mem).Inv len inSize owed' := by
  have howes := h.owes (by rw [Pipe.up, hmode]; rfl)
  by_cases hstart : w.unread = []
  · refine ⟨owed, ?_⟩
    rw [Pipe.parse]
    dsimp only
    rw [if_pos hstart]
    refine ⟨h.table, h.fault, h.sent, h.names, h.fits, ⟨le_rfl, Nat.zero_le _⟩, fun _ => ?_,
      fun _ => Or.inl rfl, fun hdown => (by cases hdown), h.right⟩
    refine howes.congr ⟨rfl, rfl, rfl, rfl, rfl⟩ ?_ (fun o ho => ho) rfl
    rw [hstart]
    rfl
  · by_cases hneed : w.bulkNeed = 0
    · by_cases hskip : w.skip = 0
      · by_cases hlf : 10 ∈ w.unread
        · exact h.line hmode hstart hneed hskip hlf mem
        · refine ⟨owed, ?_⟩
          rw [Pipe.parse]
          dsimp only
          rw [if_neg hstart, if_neg (not_not.2 hneed), if_neg (not_not.2 hskip), if_pos hlf]
          exact ⟨h.table, h.fault, h.sent, h.names, h.fits, h.room,
            fun _ => howes.congr ⟨rfl, rfl, rfl, rfl, rfl⟩ rfl (fun o ho => ho) rfl,
            fun _ => Or.inr ⟨hskip, hneed, hlf⟩, fun hdown => (by cases hdown), h.right⟩
      · exact h.discard hmode hstart hneed hskip mem
    · exact h.collect hmode hstart hneed mem

/-- A full buffer holds the end of a line. -/
theorem Pipe.Inv.not_stuck (h : w.Inv len inSize owed) (hmode : w.mode = .idle)
    (hsize : 0 < inSize) : ¬ (w.buf.length = inSize ∧ w.pos = 0) := by
  rintro ⟨hfull, hpos⟩
  have hunread : w.unread = w.buf := by
    rw [Pipe.unread, hpos]
    rfl
  have hne : w.unread ≠ [] := by
    rw [hunread]
    exact List.ne_nil_of_length_pos (hfull ▸ hsize)
  rcases h.idle hmode with hnil | ⟨hskip, hneed, hlf⟩
  · exact hne hnil
  · have howes := h.owes (by rw [Pipe.up, hmode]; rfl)
    cases howes with
    | skipping hreply hskip' => exact hskip' hskip
    | collecting hreply hbulk _ herr hneed' => exact hneed' hneed
    | between _ _ _ hrest =>
      cases owed with
      | nil => exact hne (List.append_eq_nil_iff.1 hrest).1
      | cons cmd owed =>
        have hfits := h.fits cmd (h.sent.subset List.mem_cons_self)
        rw [due_cons] at hrest
        rcases List.append_eq_append_iff.1 hrest with ⟨d, hline, -⟩ | ⟨d, hd, htail⟩
        · have hlen := congrArg List.length hline
          have hshort := hfits.2.1
          rw [List.length_append, List.length_append, hunread, hfull] at hlen
          have hone : ([13] : Bytes).length = 1 := rfl
          omega
        · cases d with
          | nil =>
            have hlen := congrArg List.length hd
            have hshort := hfits.2.1
            rw [List.append_nil, hunread, hfull, List.length_append] at hlen
            have hone : ([13] : Bytes).length = 1 := rfl
            omega
          | cons c d =>
            obtain ⟨rfl, -⟩ := List.cons.inj htail
            exact hlf (hd ▸ List.mem_append_right _ List.mem_cons_self)

/-- The unread bytes move to the front. -/
theorem Pipe.Inv.compact (h : w.Inv len inSize owed) :
    Pipe.Inv len inSize { w with buf := w.unread, pos := 0 } owed := by
  have hlen : w.unread.length ≤ inSize := by
    rw [Pipe.unread, List.length_drop]
    exact le_trans (Nat.sub_le _ _) h.room.2
  exact ⟨h.table, h.fault, h.sent, h.names, h.fits, ⟨Nat.zero_le _, hlen⟩,
    fun hup => (h.owes hup).congr ⟨rfl, rfl, rfl, rfl, rfl⟩ rfl (fun o ho => ho) rfl,
    h.idle, h.down, h.right⟩

/-- **Bytes arrive.** -/
theorem Pipe.Inv.recv (h : w.Inv len inSize owed) (hmode : w.mode = .idle) (hsize : 0 < inSize)
    (n : ℕ) : (w.recv inSize n).Inv len inSize owed := by
  have hread : ∀ w₁ : Pipe, w₁.Inv len inSize owed → w₁.up = true → ∀ got : Bytes,
      got <+: w₁.stream → got.length ≤ inSize - w₁.buf.length →
      (if got = [] then w₁ else { w₁ with
        buf := w₁.buf ++ got, stream := w₁.stream.drop got.length, mode := .parsing }).Inv
          len inSize owed := by
    intro w₁ h₁ hup got hpre hgot
    by_cases hnil : got = []
    · rw [if_pos hnil]
      exact h₁
    · rw [if_neg hnil]
      have hunread : (w₁.buf ++ got).drop w₁.pos = w₁.unread ++ got :=
        List.drop_append_of_le_length h₁.room.1
      refine h₁.stay rfl rfl rfl (List.Subset.refl _) ?_ rfl ?_
      · have hroom := h₁.room
        show w₁.pos ≤ (w₁.buf ++ got).length ∧ (w₁.buf ++ got).length ≤ inSize
        rw [List.length_append]
        omega
      · refine (h₁.owes hup).congr ⟨rfl, rfl, rfl, rfl, rfl⟩ ?_ (fun o ho => ho) rfl
        show (w₁.buf ++ got).drop w₁.pos ++ w₁.stream.drop got.length = w₁.unread ++ w₁.stream
        rw [hunread, List.append_assoc, List.prefix_iff_eq_append.1 hpre]
  have hup : w.up = true := by
    rw [Pipe.up, hmode]
    rfl
  rw [Pipe.recv, if_neg (h.not_stuck hmode hsize)]
  by_cases hfull : w.buf.length = inSize
  · rw [if_pos hfull]
    refine hread _ h.compact hup _ (List.take_prefix _ _) ?_
    exact le_trans (List.length_take_le _ _) (Nat.min_le_right _ _)
  · rw [if_neg hfull]
    refine hread w h hup _ (List.take_prefix _ _) ?_
    exact le_trans (List.length_take_le _ _) (Nat.min_le_right _ _)

/-- **The queue changes.**  Operations may go, and commands may join behind the others. -/
theorem Pipe.Inv.requeue (h : w.Inv len inSize owed) (t : Table) (new : List Cmd)
    (hsound : t.Sound (owed ++ new)) (hlive : owed ≠ [] → Fades w.table t)
    (hasked : t.asked = w.table.asked ++ new.filterMap Cmd.op)
    (hnew : new = [] ∨ w.up = true) (hfits : ∀ cmd ∈ new, cmd.reply.Fits inSize)
    (hcalls : ∀ call ∈ t.calls,
      call ∈ w.table.calls ∨ (call.cause = .timeout ∧ call.out = .error)) :
    Pipe.Inv len inSize { w with
      table := t, sent := w.sent ++ new, stream := w.stream ++ due new } (owed ++ new) := by
  refine ⟨hsound, h.fault, ?_, ?_, ?_, h.room, fun hup => ?_, h.idle, fun hdown => ?_,
    fun call hcall => ?_⟩
  · obtain ⟨done, hdone⟩ := h.sent
    exact ⟨done, by rw [← List.append_assoc, hdone]⟩
  · rw [List.filterMap_append, h.names, hasked]
  · intro cmd hcmd
    rcases List.mem_append.1 hcmd with hcmd | hcmd
    · exact h.fits cmd hcmd
    · exact hfits cmd hcmd
  · refine (h.owes hup).grow new ⟨rfl, rfl, rfl, rfl, rfl⟩ ?_ hlive rfl
    exact (List.append_assoc _ _ _).symm
  · obtain ⟨howed, hidle⟩ := h.down hdown
    rcases hnew with rfl | hup
    · exact ⟨by rw [howed]; rfl, hidle⟩
    · have hdown' : w.mode = .down := hdown
      rw [Pipe.up, hdown'] at hup
      cases hup
  · rcases hcalls call hcall with hold | ⟨hcause, hout⟩
    · exact (h.right call hold).mono (List.prefix_append _ _) (List.Subset.refl _)
    · unfold Pipe.Right
      rw [hcause]
      exact hout

/-- Operations go, and the commands stay. -/
theorem Pipe.Inv.fade (h : w.Inv len inSize owed) {t : Table} (hsound : t.Sound owed)
    (hlive : owed ≠ [] → Fades w.table t) (hasked : t.asked = w.table.asked)
    (hcalls : ∀ call ∈ t.calls,
      call ∈ w.table.calls ∨ (call.cause = .timeout ∧ call.out = .error)) :
    Pipe.Inv len inSize { w with table := t } owed := by
  have hsame := h.requeue t [] (by rwa [List.append_nil]) hlive
    (hasked.trans (List.append_nil _).symm) (Or.inl rfl)
    (fun cmd hcmd => absurd hcmd List.not_mem_nil) hcalls
  simpa only [List.append_nil, due, List.flatMap_nil] using hsame

/-- A command joins the queue, or it does not. -/
theorem Pipe.Inv.queued (h : w.Inv len inSize owed) (hup : w.up = true) {t : Table} {ok : Bool}
    (hsound : t.Sound (if ok then owed ++ [cmd] else owed)) (hcalls : t.calls = w.table.calls)
    (hasked : t.asked = w.table.asked ++ (if ok then cmd.op.toList else []))
    (hlive : owed ≠ [] → Fades w.table t) (hfits : cmd.reply.Fits inSize) :
    ∃ owed', Pipe.Inv len inSize (if ok then { w with
      table := t, sent := w.sent ++ [cmd], stream := w.stream ++ cmd.reply.encode }
      else { w with table := t }) owed' := by
  have hcalls' : ∀ call ∈ t.calls,
      call ∈ w.table.calls ∨ (call.cause = .timeout ∧ call.out = .error) :=
    fun call hcall => Or.inl (hcalls ▸ hcall)
  cases ok with
  | true =>
    have hnew : t.asked = w.table.asked ++ [cmd].filterMap Cmd.op := by
      rw [hasked]
      cases hop : cmd.op <;> simp [hop]
    have hone := h.requeue t [cmd] hsound hlive hnew (Or.inr hup)
      (fun c hc => by rw [List.mem_singleton.1 hc]; exact hfits) hcalls'
    refine ⟨owed ++ [cmd], ?_⟩
    simpa only [due, List.flatMap_cons, List.flatMap_nil, List.append_nil, if_true] using hone
  | false => exact ⟨owed, h.fade hsound hlive (hasked.trans (List.append_nil _)) hcalls'⟩

/-- **A dropped link.**  One entry fails, or the link is down. -/
theorem Pipe.Inv.drain (h : w.Inv len inSize owed) (hmode : w.mode = .draining) :
    ∃ owed', w.drain.Inv len inSize owed' := by
  rw [Pipe.drain]
  by_cases hqueue : w.table.queue = []
  · rw [if_neg (not_not.2 hqueue)]
    have howed : owed = [] := by
      have hrel := h.table.owed
      rw [hqueue] at hrel
      exact List.forall₂_nil_left_iff.1 hrel
    exact ⟨owed, h.table, h.fault, h.sent, h.names, h.fits, h.room, fun hup => (by cases hup),
      fun hidle => (by cases hidle), fun _ => ⟨howed, rfl, rfl, rfl⟩, h.right⟩
  · rw [if_pos hqueue]
    cases howed : owed with
    | nil => exact absurd (List.forall₂_nil_right_iff.1 (howed ▸ h.table.owed)) hqueue
    | cons cmd rest =>
      rw [howed] at h
      obtain ⟨t, hpop, -⟩ := h.table.pop
      rw [Pipe.entryDone_eq hpop]
      refine ⟨rest, h.settle .error .lost (fun t' ht' => ?_) rfl h.fault
        (List.Subset.refl _) h.room (Or.inr hmode) fun o _ _ => rfl⟩
      rw [hpop] at ht'
      cases ht'
      rfl

/-- The reply that the server gives to a command fits the buffer. -/
def Event.Fits (inSize : ℕ) : Event → Prop
  | .ask _ _ _ reply => reply.Fits inSize
  | .command _ reply => reply.Fits inSize
  | _ => True

/-- **One event.** -/
theorem Pipe.Inv.step (h : w.Inv len inSize owed) (hsize : 0 < inSize) (e : Event)
    (hfits : e.Fits inSize) : ∃ owed', (w.step len inSize e).Inv len inSize owed' := by
  cases e with
  | ask op bulk mood reply =>
    by_cases hup : w.up = true ∧ op ∉ w.table.asked
    · obtain ⟨hsound, hcalls, hasked, hlive⟩ :=
        h.table.ask hup.2 reply (Prod.eta (w.table.ask mood op bulk)).symm
      rw [Pipe.step, if_pos hup]
      exact h.queued hup.1 hsound hcalls hasked hlive hfits
    · rw [Pipe.step, if_neg hup]
      exact ⟨owed, h⟩
  | command mood reply =>
    by_cases hup : w.up = true
    · obtain ⟨hsound, hcalls, hasked, hlive⟩ :=
        h.table.command reply (Prod.eta (w.table.command mood)).symm
      rw [Pipe.step, if_pos hup]
      exact h.queued hup hsound hcalls (by rw [hasked]; simp) hlive hfits
    · rw [Pipe.step, if_neg hup]
      exact ⟨owed, h⟩
  | timeout entry =>
    obtain ⟨hsound, hfades, hasked, ops, hcalls⟩ := h.table.onTimeout entry
    refine ⟨owed, h.fade hsound (fun _ => hfades) hasked fun call hcall => ?_⟩
    rw [hcalls] at hcall
    rcases List.mem_append.1 hcall with hcall | hcall
    · exact Or.inl hcall
    · obtain ⟨o, -, rfl⟩ := List.mem_map.1 hcall
      exact Or.inr ⟨rfl, rfl⟩
  | poolGone op =>
    obtain ⟨hsound, hfades, hasked, hcalls⟩ := h.table.poolGone op
    exact ⟨owed, h.fade hsound (fun _ => hfades) hasked fun call hcall => Or.inl (hcalls ▸ hcall)⟩
  | recv n =>
    by_cases hmode : w.mode = .idle
    · rw [Pipe.step, if_pos hmode]
      exact ⟨owed, h.recv hmode hsize n⟩
    · rw [Pipe.step, if_neg hmode]
      exact ⟨owed, h⟩
  | parse mem =>
    by_cases hmode : w.mode = .parsing
    · rw [Pipe.step, if_pos hmode]
      exact h.parse hmode mem
    · rw [Pipe.step, if_neg hmode]
      exact ⟨owed, h⟩
  | lost =>
    by_cases hmode : w.mode = .idle
    · rw [Pipe.step, if_pos hmode]
      exact ⟨owed, h.table, h.fault, h.sent, h.names, h.fits, h.room, fun hup => (by cases hup),
        fun hidle => (by cases hidle), fun hdown => (by cases hdown), h.right⟩
    · rw [Pipe.step, if_neg hmode]
      exact ⟨owed, h⟩
  | drain =>
    by_cases hmode : w.mode = .draining
    · rw [Pipe.step, if_pos hmode]
      exact h.drain hmode
    · rw [Pipe.step, if_neg hmode]
      exact ⟨owed, h⟩
  | connect =>
    by_cases hmode : w.mode = .down
    · rw [Pipe.step, if_pos hmode]
      obtain ⟨rfl, hskip, herr, hneed⟩ := h.down hmode
      exact ⟨[], h.table, h.fault, h.sent, h.names, h.fits, ⟨le_rfl, Nat.zero_le _⟩,
        fun _ => .between hskip herr hneed rfl, fun _ => Or.inl rfl, fun hdown => (by cases hdown),
        h.right⟩
    · rw [Pipe.step, if_neg hmode]
      exact ⟨owed, h⟩

/-- **All events.** -/
theorem Pipe.Inv.run (h : w.Inv len inSize owed) (hsize : 0 < inSize) {es : List Event}
    (hfits : ∀ e ∈ es, e.Fits inSize) :
    ∃ owed', (Run.runFrom (Pipe.step len inSize) w es).Inv len inSize owed' := by
  induction es generalizing w owed with
  | nil => exact ⟨owed, h⟩
  | cons e es ih =>
    obtain ⟨owed', h'⟩ := h.step hsize e (hfits e List.mem_cons_self)
    exact ih h' fun e' he' => hfits e' (List.mem_cons_of_mem e he')

/-- When nothing is to come, nothing is owed. -/
theorem Pipe.Owes.nil (h : w.Owes len owed) (hrest : w.unread ++ w.stream = []) : owed = [] := by
  cases h with
  | between _ _ _ h =>
    cases owed with
    | nil => rfl
    | cons cmd owed =>
      rw [hrest, due_cons] at h
      simp at h
  | @skipping cmd owed data past hreply hskip _ _ hlen h =>
    rw [hrest] at h
    have hsum := congrArg List.length h
    have hcrlf : crlf.length = 2 := rfl
    simp only [List.append_nil, List.length_append, hcrlf] at hsum
    omega
  | @collecting cmd owed data past hreply _ _ _ hneed hlen h =>
    rw [hrest] at h
    have hsum := congrArg List.length h
    have hcrlf : crlf.length = 2 := rfl
    simp only [List.append_nil, List.length_append, hcrlf] at hsum
    omega

end Bytes

/-! ### Every operation by its own reply -/

/-- A connection without a past, on a link that is up. -/
def Pipe.start : Pipe :=
  { table := ⟨fun _ => Cell.empty, 0, [], [], 0, fun _ => none, [], [], []⟩
    skip := 0, skipErr := false, bulk := [], bulkSize := 0, bulkNeed := 0
    buf := [], pos := 0, mode := .idle, stream := [], sent := [], fault := false, starved := [] }

theorem Pipe.inv_start (len : ℕ → ℕ) (inSize : ℕ) : Pipe.start.Inv len inSize [] := by
  have hsound : Pipe.start.table.Sound [] :=
    ⟨rfl, List.nodup_nil, fun a ha => absurd ha List.not_mem_nil, fun a _ => ⟨rfl, rfl, rfl⟩,
      fun o a => ⟨fun h => (by cases h), fun h => absurd h.1 List.not_mem_nil⟩,
      fun a o h => (by cases h), fun a o h => (by cases h), List.Forall₂.nil, List.Perm.refl _,
      List.nodup_nil⟩
  exact ⟨hsound, rfl, List.suffix_refl _, rfl, fun cmd hcmd => absurd hcmd List.not_mem_nil,
    ⟨le_rfl, Nat.zero_le _⟩, fun _ => .between rfl rfl rfl rfl, fun _ => Or.inl rfl,
    fun hdown => (by cases hdown), fun call hcall => absurd hcall List.not_mem_nil⟩

/-- What holds of a connection at any time.  Its commands name the operations that were asked for;
each of these was called, was detached or waits, and each call was right.  A cleanup leads to the
entry of its own operation, and a connection with nothing to come has nothing in flight. -/
structure Pipe.Matched (len : ℕ → ℕ) (w : Pipe) : Prop where
  fault : w.fault = false
  names : w.sent.filterMap Cmd.op = w.table.asked
  once : w.table.asked.Nodup
  account : w.table.asked.Perm (w.table.calls.map Call.op ++ w.table.dropped ++ w.table.pending)
  right : ∀ call ∈ w.table.calls, w.Right len call
  inflight : w.table.inflight = w.table.queue.length
  stale : ∀ o a, w.table.armed o = some a →
    a ∈ w.table.queue ∧ ∀ o', (w.table.cells a).op = some o' → o' = o
  read : w.up = true → w.unread ++ w.stream = [] → w.table.queue = []
  down : w.mode = .down → w.table.queue = []

theorem Pipe.Inv.matched {len : ℕ → ℕ} {inSize : ℕ} {w : Pipe} {owed : List Cmd}
    (h : w.Inv len inSize owed) : w.Matched len := by
  have hempty : owed = [] → w.table.queue = [] := by
    rintro rfl
    exact List.forall₂_nil_right_iff.1 h.table.owed
  refine ⟨h.fault, h.names, h.table.once, h.table.account, h.right, h.table.count,
    fun o a harmed => ?_, fun hup hrest => hempty ((h.owes hup).nil hrest),
    fun hdown => hempty (h.down hdown).1⟩
  obtain ⟨ha, hcln⟩ := (h.table.armed o a).1 harmed
  refine ⟨ha, fun o' ho' => ?_⟩
  have hheld := h.table.held a o' ho'
  rw [hcln] at hheld
  exact (Option.some.inj hheld).symm

/-- **Every operation is answered once at most, and by its own reply.**  However the replies are cut
into reads, whatever times out, goes away or is asked for in between, and however often the link is
lost. -/
theorem replies_matched (len : ℕ → ℕ) (inSize : ℕ) (es : List Event) (hsize : 0 < inSize)
    (hfits : ∀ e ∈ es, e.Fits inSize) :
    (Run.runFrom (Pipe.step len inSize) Pipe.start es).Matched len := by
  obtain ⟨owed, h⟩ := (Pipe.inv_start len inSize).run hsize hfits
  exact h.matched

/-- Two gets; the first operation goes away while its reply is on the way. -/
def lateRun : List Event :=
  [.ask 1 true ⟨true, true, true⟩ (.bulk (ascii "ab")),
    .ask 2 true ⟨true, true, true⟩ (.bulk (ascii "cd")),
    .recv 6, .parse true, .parse true, .poolGone 1, .recv 64, .parse true, .parse true, .parse true,
    .parse true]

theorem replies_matched_late :
    (∀ e ∈ lateRun, e.Fits 64) ∧
      (Run.runFrom (Pipe.step (fun _ => 16) 64) Pipe.start lateRun).table.calls =
        [⟨2, .ok (some (ascii "cd")), .reply⟩] ∧
      (Run.runFrom (Pipe.step (fun _ => 16) 64) Pipe.start lateRun).Matched fun _ => 16 := by
  have hfits : ∀ e ∈ lateRun, e.Fits 64 := by
    intro e he
    simp only [lateRun, List.mem_cons, List.not_mem_nil, or_false] at he
    have hab : (Reply.bulk (ascii "ab")).Fits 64 :=
      ⟨by decide, by decide, fun data hdata => by cases hdata; decide⟩
    have hcd : (Reply.bulk (ascii "cd")).Fits 64 :=
      ⟨by decide, by decide, fun data hdata => by cases hdata; decide⟩
    rcases he with rfl | rfl | rfl | rfl | rfl | rfl | rfl | rfl | rfl | rfl | rfl
    · exact hab
    · exact hcd
    all_goals trivial
  exact ⟨hfits, by decide +kernel, replies_matched _ 64 lateRun (by norm_num) hfits⟩

end Replies
