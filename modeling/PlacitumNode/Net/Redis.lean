import PlacitumNode.Lib.Numerals
import PlacitumNode.Lib.Run
import PlacitumNode.Net.Link

/-!
# Commands to Redis (`body/drv_redis.c`)

A command is measured, room for all of it is reserved, and only then it is written piece by piece with
the answers of the writes ignored. Redis answers in order, so the entry of a command in flight has to
stand for bytes that are queued whole.

* `redisCommand`, `redisQueue`: the two functions, with the ignored answers recorded;
* `respArray`: the encoding that the protocol asks for;
* `redisCommand_spec`: the two passes agree and no ignored write fails;
* `Run.step`, `whole_run`: a connection over its whole life;
* `command_whole`: a command is queued whole or not at all.
-/

namespace Net

open Octets Numerals

/-! ### The encoding -/

def crlf : Bytes := [13, 10]

/-- A bulk string of the protocol. -/
def respBulk (arg : Bytes) : Bytes :=
  ascii "$" ++ decimal arg.length ++ crlf ++ arg ++ crlf

/-- An array of bulk strings, which is how a command is sent. -/
def respArray (argv : List Bytes) : Bytes :=
  ascii "*" ++ decimal argv.length ++ crlf ++ argv.flatMap respBulk

/-! ### The two passes -/

/-- Arithmetic in a `size_t` -/
def sizeT (n : ℕ) : ℕ := n % 2 ^ 64

/-- What `ngx_sprintf` leaves in `head`. -/
def head (mark : UInt8) (n : ℕ) : Bytes := [mark] ++ decimal n ++ crlf

/-- `size` of `ngx_http_waf_redis_command` -/
def commandSize (argv : List Bytes) : ℕ :=
  argv.foldl (fun size arg => sizeT (size + sizeT ((head 36 arg.length).length + arg.length + 2)))
    (head 42 argv.length).length

/-- The writes for one argument; an empty one has no data to write. -/
def bulkPieces (arg : Bytes) : List Bytes :=
  [head 36 arg.length] ++ (if arg.length ≠ 0 then [arg] else []) ++ [crlf]

/-- The writes of `ngx_http_waf_redis_command` in order. -/
def commandPieces (argv : List Bytes) : List Bytes :=
  head 42 argv.length :: argv.flatMap bulkPieces

/-- Calls of `ngx_http_waf_link_out` in a row with what they answer. The `n`-th call meets the `n`-th
mood of the allocator. -/
def outAll (palloc : ℕ → Palloc) (n : ℕ) (l : Link) : List Bytes → Link × List Bool
  | [] => (l, [])
  | piece :: pieces =>
    let first := l.linkOut (palloc n) piece
    let rest := outAll palloc (n + 1) first.1 pieces
    (rest.1, first.2 :: rest.2)

/-- What `ngx_http_waf_redis_command` leaves: the link, the answers it casts to `void`, and its own. -/
structure Commanded where
  link : Link
  ignored : List Bool
  ok : Bool

/-- `ngx_http_waf_redis_command` -/
def redisCommand (palloc : ℕ → Palloc) (l : Link) (argv : List Bytes) : Commanded :=
  let reserved := l.reserve (palloc 0) (commandSize argv)
  if reserved.2 then
    let written := outAll palloc 1 reserved.1 (commandPieces argv)
    ⟨written.1, written.2, true⟩
  else ⟨reserved.1, [], false⟩

theorem flatten_commandPieces (argv : List Bytes) :
    (commandPieces argv).flatten = respArray argv := by
  have hbulk : ∀ arg : Bytes, (bulkPieces arg).flatten = respBulk arg := by
    intro arg
    rw [bulkPieces, respBulk]
    by_cases hlen : arg.length = 0
    · obtain rfl := List.length_eq_zero_iff.1 hlen
      rfl
    · rw [if_pos hlen]
      simp [head, ascii]
  have hall : (argv.flatMap bulkPieces).flatten = argv.flatMap respBulk := by
    induction argv with
    | nil => rfl
    | cons arg argv ih => simp only [List.flatMap_cons, List.flatten_append, ih, hbulk]
  rw [commandPieces, List.flatten_cons, hall]
  rfl

/-- The first pass counts the bytes of the second as long as a `size_t` can. -/
theorem commandSize_eq {argv : List Bytes} (h : (respArray argv).length < 2 ^ 64) :
    commandSize argv = (respArray argv).length := by
  have hfold : ∀ (argv : List Bytes) (s : ℕ), s + (argv.flatMap respBulk).length < 2 ^ 64 →
      argv.foldl (fun size arg =>
        sizeT (size + sizeT ((head 36 arg.length).length + arg.length + 2))) s =
        s + (argv.flatMap respBulk).length := by
    intro argv
    induction argv with
    | nil => exact fun s _ => rfl
    | cons arg argv ih =>
      intro s hs
      have hone : (respBulk arg).length = (head 36 arg.length).length + arg.length + 2 := by
        simp only [respBulk, head, crlf, List.length_append, List.length_cons, List.length_nil]
        rfl
      rw [List.flatMap_cons, List.length_append] at hs
      rw [List.foldl_cons, ← hone, sizeT, sizeT, Nat.mod_eq_of_lt (b := 2 ^ 64) (by omega),
        Nat.mod_eq_of_lt (by omega), ih _ (by omega), List.flatMap_cons, List.length_append]
      omega
  have hlen : (respArray argv).length =
      (head 42 argv.length).length + (argv.flatMap respBulk).length := by
    simp only [respArray, head, List.length_append]
    rfl
  rw [hlen] at h ⊢
  exact hfold argv _ h

/-- Writes for which there is room altogether all succeed. -/
theorem outAll_of_room (palloc : ℕ → Palloc) {pieces : List Bytes} {n : ℕ} {l : Link}
    (h : pieces.flatten.length ≤ l.room) :
    (∀ ok ∈ (outAll palloc n l pieces).2, ok = true) ∧
      (outAll palloc n l pieces).1.unsent = l.unsent ++ pieces.flatten := by
  induction pieces generalizing n l with
  | nil => exact ⟨by simp [outAll], by simp [outAll]⟩
  | cons piece pieces ih =>
    rw [List.flatten_cons, List.length_append] at h
    obtain ⟨hok, hunsent, hroom⟩ :=
      l.linkOut_of_room (palloc n) (show piece.length ≤ l.room by omega)
    obtain ⟨hall, hrest⟩ := @ih (n + 1) (l.linkOut (palloc n) piece).1 (by omega)
    refine ⟨?_, ?_⟩
    · intro ok hmem
      rcases List.mem_cons.1 hmem with rfl | hmem
      · exact hok
      · exact hall ok hmem
    · rw [outAll]
      show (outAll palloc (n + 1) (l.linkOut (palloc n) piece).1 pieces).1.unsent = _
      rw [hrest, hunsent, List.flatten_cons, List.append_assoc]

/-- The argument vector with its encoding lies in the address space. -/
def Fits (argv : List Bytes) : Prop := (respArray argv).length < 2 ^ 64

/-- A command is queued whole, without a failing write, or not at all. -/
theorem redisCommand_spec (palloc : ℕ → Palloc) (l : Link) {argv : List Bytes} (h : Fits argv) :
    (∀ ok ∈ (redisCommand palloc l argv).ignored, ok = true) ∧
      (redisCommand palloc l argv).link.unsent =
        if (redisCommand palloc l argv).ok then l.unsent ++ respArray argv else l.unsent := by
  have hsize : commandSize argv = (commandPieces argv).flatten.length := by
    rw [flatten_commandPieces, commandSize_eq h]
  have hkeep := l.unsent_reserve (palloc 0) (commandSize argv)
  rw [redisCommand]
  dsimp only
  by_cases hok : (l.reserve (palloc 0) (commandSize argv)).2 = true
  · have hroom := l.room_reserve (palloc 0) (commandSize argv) hok
    rw [hsize] at hroom hok hkeep ⊢
    obtain ⟨hall, hunsent⟩ := outAll_of_room palloc (n := 1) hroom
    rw [if_pos hok]
    exact ⟨hall, by rw [hunsent, hkeep, flatten_commandPieces]; rfl⟩
  · rw [if_neg hok]
    exact ⟨by simp, by rw [hkeep]; rfl⟩

/-! ### Entries -/

/-- The fields of `ngx_http_waf_redis_entry_t` that an answer looks at; `id` is its address. -/
structure Entry where
  id : ℕ
  op : Option ℕ
  bulk : Bool

/-- The fields of `ngx_http_waf_redis_conn_t` that queueing touches: `entries` runs from `head` to
`tail`. -/
structure Conn where
  link : Link
  entries : List Entry
  inflight : ℕ
  free : List Entry
  inflight_eq : inflight = entries.length

/-- `ngx_http_waf_redis_entry_get`; `pcalloc` is a new entry. -/
def entryGet (pcalloc : Option ℕ) (c : Conn) : Option (Entry × Conn) :=
  match c.free with
  | entry :: free => some ({ entry with op := none, bulk := false }, { c with free := free })
  | [] => pcalloc.map fun id => (⟨id, none, false⟩, c)

/-- `ngx_http_waf_redis_entry_push` -/
def entryPush (c : Conn) (entry : Entry) : Conn :=
  { c with
    entries := c.entries ++ [entry]
    inflight := c.inflight + 1
    inflight_eq := by rw [c.inflight_eq, List.length_append]; rfl }

/-- `ngx_http_waf_redis_entry_free` -/
def entryFree (c : Conn) (entry : Entry) : Conn :=
  { c with free := { entry with op := none } :: c.free }

/-- The part of `ngx_http_waf_redis_entry_done` that takes the first entry off. -/
def entryDone (c : Conn) : Conn :=
  match h : c.entries with
  | [] => c
  | entry :: entries =>
    entryFree { c with
      entries := entries
      inflight := c.inflight - 1
      inflight_eq := by rw [c.inflight_eq, h]; rfl } entry

/-- `ngx_http_waf_redis_queue`; `true` is `NGX_OK`. -/
def redisQueue (pcalloc : Option ℕ) (palloc : ℕ → Palloc) (c : Conn) (argv : List Bytes) :
    Conn × Bool :=
  match entryGet pcalloc c with
  | none => (c, false)
  | some (entry, c) =>
    let sent := redisCommand palloc c.link argv
    if sent.ok then (entryPush { c with link := sent.link } entry, true)
    else (entryFree { c with link := sent.link } entry, false)

theorem entryGet_keeps {pcalloc : Option ℕ} {c c' : Conn} {entry : Entry}
    (h : entryGet pcalloc c = some (entry, c')) : c'.link = c.link ∧ c'.entries = c.entries := by
  rw [entryGet] at h
  split at h
  · cases h
    exact ⟨rfl, rfl⟩
  · obtain ⟨id, -, hpair⟩ := Option.map_eq_some_iff.1 h
    cases hpair
    exact ⟨rfl, rfl⟩

/-- An entry joins the queue exactly with the bytes of its command. -/
theorem redisQueue_spec (pcalloc : Option ℕ) (palloc : ℕ → Palloc) (c : Conn) {argv : List Bytes}
    (h : Fits argv) :
    ((redisQueue pcalloc palloc c argv).2 = true ∧
        (∃ entry, (redisQueue pcalloc palloc c argv).1.entries = c.entries ++ [entry]) ∧
        (redisQueue pcalloc palloc c argv).1.link.unsent = c.link.unsent ++ respArray argv) ∨
      ((redisQueue pcalloc palloc c argv).2 = false ∧
        (redisQueue pcalloc palloc c argv).1.entries = c.entries ∧
        (redisQueue pcalloc palloc c argv).1.link.unsent = c.link.unsent) := by
  rw [redisQueue]
  cases hget : entryGet pcalloc c with
  | none => exact Or.inr ⟨rfl, rfl, rfl⟩
  | some got =>
    obtain ⟨entry, c'⟩ := got
    obtain ⟨hlink, hentries⟩ := entryGet_keeps hget
    have hspec := (redisCommand_spec palloc c'.link h).2
    dsimp only
    cases hok : (redisCommand palloc c'.link argv).ok with
    | true =>
      rw [hok, if_pos rfl, hlink] at hspec
      exact Or.inl ⟨rfl, ⟨entry, by rw [if_pos rfl, ← hentries]; rfl⟩,
        by rw [if_pos rfl, ← hspec, ← hlink]; rfl⟩
    | false =>
      rw [hok, if_neg Bool.false_ne_true, hlink] at hspec
      exact Or.inr ⟨rfl, hentries, by rw [← hspec, ← hlink]; rfl⟩

/-! ### A connection over its life -/

/-- A connection with what an observer of it counts: the bytes the socket took, the commands queued
and the entries taken off since it was opened. -/
structure Session where
  conn : Conn
  up : Bool
  wire : Bytes
  queued : List (List Bytes)
  settled : ℕ

inductive Op
  | queue (pcalloc : Option ℕ) (palloc : ℕ → Palloc) (argv : List Bytes)
  | flush (answers : List Link.Sent) (armed : Bool)
  | reply
  | connect

/-- `ngx_http_waf_redis_drain`: every entry in flight fails. -/
def drain (c : Conn) : Conn :=
  { c with
    entries := []
    inflight := 0
    free := (c.entries.map fun entry => { entry with op := none }).reverse ++ c.free
    inflight_eq := rfl }

/-- One event of a session. Only links that are up are picked for a command, and only one that is down
is connected. -/
def Session.step (s : Session) : Op → Session
  | .queue pcalloc palloc argv =>
    if s.up then
      let r := redisQueue pcalloc palloc s.conn argv
      { s with conn := r.1, queued := if r.2 then s.queued ++ [argv] else s.queued }
    else s
  | .flush answers armed =>
    if s.up then
      let r := s.conn.link.flush answers armed
      let sent := { s with conn := { s.conn with link := r.2.1 }, wire := s.wire ++ r.1 }
      if r.2.2 then sent
      else { sent with
        conn := drain sent.conn, up := false, settled := s.settled + s.conn.entries.length }
    else s
  | .reply =>
    if s.up ∧ s.conn.entries ≠ [] then
      { s with conn := entryDone s.conn, settled := s.settled + 1 }
    else s
  | .connect =>
    if s.up then s
    else
      { conn := { s.conn with link := s.conn.link.restart }
        up := true, wire := [], queued := [], settled := 0 }

/-- The socket has got and will get whole commands only, one for each entry in flight or settled. -/
structure Session.Whole (s : Session) : Prop where
  stream : s.wire ++ s.conn.link.unsent = s.queued.flatMap respArray
  entries : s.conn.entries.length + s.settled = s.queued.length
  down : s.up = false → s.conn.entries = []

/-- The commands that an event asks for lie in the address space. -/
def Op.Fits : Op → Prop
  | .queue _ _ argv => Net.Fits argv
  | _ => True

theorem entryDone_keeps {c : Conn} (h : c.entries ≠ []) :
    (entryDone c).link = c.link ∧ (entryDone c).entries.length + 1 = c.entries.length := by
  rw [entryDone]
  split
  · contradiction
  · next entry entries heq => exact ⟨rfl, (congrArg List.length heq).symm⟩

/-- A connection that has just been opened. -/
theorem whole_connect {s : Session} (hdown : s.up = false) (hentries : s.conn.entries = []) :
    (s.step .connect).Whole := by
  refine ⟨?_, ?_, ?_⟩
  · simp [Session.step, hdown, Link.restart, Link.unsent]
  · simp [Session.step, hdown, hentries]
  · simp [Session.step, hdown]

theorem whole_step {s : Session} {op : Op} (h : s.Whole) (hfits : op.Fits) : (s.step op).Whole := by
  cases hup : s.up with
  | false =>
    cases op with
    | connect => exact whole_connect hup (h.down hup)
    | _ => simpa only [Session.step, hup, Bool.false_eq_true, if_false, false_and] using h
  | true =>
    cases op with
    | queue pcalloc palloc argv =>
      simp only [Session.step, hup, if_true]
      rcases redisQueue_spec pcalloc palloc s.conn hfits with
        ⟨hok, ⟨entry, hentries⟩, hunsent⟩ | ⟨hok, hentries, hunsent⟩
      · refine ⟨?_, ?_, by simp⟩
        · simp only [hok, if_true, hunsent, List.flatMap_append, List.flatMap_singleton]
          rw [← List.append_assoc, h.stream]
        · have hlen := h.entries
          simp only [hok, if_true, hentries, List.length_append, List.length_singleton]
          omega
      · refine ⟨?_, ?_, by simp⟩
        · simpa only [hok, Bool.false_eq_true, if_false, hunsent] using h.stream
        · simpa only [hok, Bool.false_eq_true, if_false, hentries] using h.entries
    | flush answers armed =>
      have hsent := s.conn.link.sent_flush answers armed
      have hstream : s.wire ++ (s.conn.link.flush answers armed).1 ++
          (s.conn.link.flush answers armed).2.1.unsent = s.queued.flatMap respArray := by
        rw [List.append_assoc, hsent, h.stream]
      have hlen := h.entries
      simp only [Session.step, hup, if_true]
      cases (s.conn.link.flush answers armed).2.2 with
      | true => exact ⟨hstream, hlen, by simp⟩
      | false => exact ⟨hstream, by simpa [drain, Nat.add_comm] using hlen, fun _ => rfl⟩
    | reply =>
      simp only [Session.step, hup, true_and]
      split
      · next hne =>
        obtain ⟨hlink, hlen⟩ := entryDone_keeps hne
        have hcount := h.entries
        exact ⟨by rw [hlink]; exact h.stream, by dsimp only; omega, by simp⟩
      · exact h
    | connect => simpa only [Session.step, hup, if_true] using h

/-- Whatever is queued, sent and answered in between, the stream consists of whole commands. -/
theorem whole_run {s : Session} {ops : List Op} (h : s.Whole) (hfits : ∀ op ∈ ops, op.Fits) :
    (Run.runFrom Session.step s ops).Whole := by
  induction ops generalizing s with
  | nil => exact h
  | cons op ops ih =>
    exact ih (whole_step h (hfits op List.mem_cons_self))
      fun later hmem => hfits later (List.mem_cons_of_mem op hmem)

/-! ### Whole or not at all -/

/-- **A command is queued whole or not at all.** No ignored write fails, the unsent bytes grow by the
encoding or stay, an entry joins the queue exactly with its command, and partial writes in between
leave a stream of whole commands. -/
theorem command_whole (palloc : ℕ → Palloc) (l : Link) (argv : List Bytes) (hfits : Fits argv) :
    (∀ ok ∈ (redisCommand palloc l argv).ignored, ok = true) ∧
      (((redisCommand palloc l argv).ok = true ∧
          (redisCommand palloc l argv).link.unsent = l.unsent ++ respArray argv) ∨
        ((redisCommand palloc l argv).ok = false ∧
          (redisCommand palloc l argv).link.unsent = l.unsent)) ∧
      (∀ (pcalloc : Option ℕ) (c : Conn),
        ((redisQueue pcalloc palloc c argv).2 = true ∧
            (∃ entry, (redisQueue pcalloc palloc c argv).1.entries = c.entries ++ [entry]) ∧
            (redisQueue pcalloc palloc c argv).1.link.unsent =
              c.link.unsent ++ respArray argv) ∨
          ((redisQueue pcalloc palloc c argv).2 = false ∧
            (redisQueue pcalloc palloc c argv).1.entries = c.entries ∧
            (redisQueue pcalloc palloc c argv).1.link.unsent = c.link.unsent)) ∧
      ∀ (s : Session) (ops : List Op), s.Whole → (∀ op ∈ ops, op.Fits) →
        (Run.runFrom Session.step s ops).Whole := by
  obtain ⟨hignored, hunsent⟩ := redisCommand_spec palloc l hfits
  refine ⟨hignored, ?_, fun pcalloc c => redisQueue_spec pcalloc palloc c hfits,
    fun s ops => whole_run⟩
  cases hok : (redisCommand palloc l argv).ok with
  | true => exact Or.inl ⟨rfl, by simpa only [hok, if_true] using hunsent⟩
  | false => exact Or.inr ⟨rfl, by simpa only [hok, Bool.false_eq_true, if_false] using hunsent⟩

/-- A link with an empty buffer of 64 bytes. -/
def smallLink : Link :=
  Link.init 64 528 (List.replicate 64 0) rfl (by decide) (by norm_num)

theorem command_whole_get :
    Fits [ascii "GET", []] ∧
      (redisCommand (fun _ _ => none) smallLink [ascii "GET", []]).ok = true ∧
      (redisCommand (fun _ _ => none) smallLink [ascii "GET", []]).link.unsent =
        respArray [ascii "GET", []] := by
  have hfits : Fits [ascii "GET", []] := by rw [Fits]; decide
  have hok : (redisCommand (fun _ _ => none) smallLink [ascii "GET", []]).ok = true := by decide
  obtain ⟨-, ⟨-, hunsent⟩ | ⟨hno, -⟩, -⟩ :=
    command_whole (fun _ _ => none) smallLink [ascii "GET", []] hfits
  · exact ⟨hfits, hok, hunsent⟩
  · rw [hok] at hno
    cases hno

end Net
