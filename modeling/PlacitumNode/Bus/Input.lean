import PlacitumNode.Lib.Run
import PlacitumNode.Lib.Feed
import PlacitumNode.Bus.Route

/-!
# The stream from the bus (`bus/ngx_http_waf_bus_nats.c`, `net/ngx_http_waf_link.c`)

The bus sends lines and, behind the line of a message, its payload.  A payload that fits the input
buffer is waited for there; a larger one of a dataset is collected in a buffer of its own, and any
other is skipped.  The read handler reads what the socket has, in pieces of any size, and moves the
unread bytes to the front when the buffer is full.

* `Nats.step`: one turn of `ngx_http_waf_nats_parse`, and `Nats.parser` its laws;
* `Nats.stream`: the parser behind a buffer of limited size, where a line that fills it is an error;
* `Conn.turn`: one turn of `ngx_http_waf_link_read_handler`;
* `input_cut_free`: what a connection does depends on the stream only, if no send of the parser fails;
* `failed_send_cut`: a send that fails makes the cuts count.
-/

namespace Bus

open Octets Numerals Feed Run

/-! ### The state -/

/-- What the parser does for the rest of the node; `pong` says whether the answer was queued. -/
inductive Action
  | pong (queued : Bool)
  | up
  | hello
  | absent (rid index : ℕ)
  | dispatch (rid index : ℕ) (payload : Bytes)
  | dataset (index : ℕ) (payload : Bytes)
  | jsReply (index : ℕ) (payload : Bytes)
  deriving DecidableEq

/-- `ngx_http_waf_nats_state_e` -/
inductive NatsState
  | line
  | payload
  deriving DecidableEq

/-- The fields of `ngx_http_waf_nats_t` that the parser uses: `big` is what has been collected so far,
`acts` what has been done, and `dropped` says that the connection was closed in the middle. -/
structure Nats where
  state : NatsState
  ready : Bool
  pings : ℕ
  big : Bytes
  bigSize : ℕ
  skip : ℕ
  collect : Bool
  msg : NatsMsg
  acts : List Action
  dropped : Bool
  deriving DecidableEq

/-- The sizes of the configuration, and the answers of the allocator and of the output queue, which
may depend on all that was done before.  `sendFails` says whether a send fails that the last of these
actions makes: the flush behind a PONG or the greeting, or behind what is published for a message. -/
structure Env where
  inSize : ℕ
  payloadMax : ℕ
  palloc : List Action → ℕ → Bool
  helloFits : List Action → Bool
  pongFits : List Action → Bool
  sendFails : List Action → Bool

/-- `ngx_http_waf_link_drop` with `ngx_http_waf_nats_on_close`. -/
def Nats.drop (s : Nats) : Nats :=
  { s with ready := false, big := [], skip := 0, collect := false, dropped := true }

/-- An action that sends: a send that fails drops the connection, and on a closed one nothing is
sent. -/
def Nats.act (env : Env) (s : Nats) (a : Action) : Nats :=
  let s := { s with acts := s.acts ++ [a] }
  if s.dropped = false ∧ env.sendFails s.acts = true then s.drop else s

/-- The actions of a message, of which there is at most one. -/
def Nats.actAll (env : Env) (s : Nats) (as : List Action) : Nats := as.foldl (Nats.act env) s

/-! ### Lines -/

/-- `ngx_http_waf_nats_deliver` -/
def deliver (msg : NatsMsg) (payload : Bytes) : List Action :=
  match msg.routed with
  | none => []
  | some routed =>
    if msg.hdr ≠ 0 ∧ payload.length < msg.hdr then []
    else
      match routed with
      | .verdict rid index =>
        if 12 ≤ msg.hdr ∧ payload.take 12 = ascii "NATS/1.0 503" then [.absent rid index]
        else [.dispatch rid index (payload.drop msg.hdr)]
      | .dataset index => [.dataset index (payload.drop msg.hdr)]
      | .jsReply index => [.jsReply index (payload.drop msg.hdr)]

/-- The size that a message line says. -/
def natsTotal (line : Bytes) : ℕ :=
  let tokens := natsTokens 5 line
  (atoi (tokens.getD (tokens.length - 1) [])).getD 0

/-- `ngx_http_waf_nats_msg_line` with `ngx_http_waf_nats_collect`. -/
def Nats.msgLine (env : Env) (s : Nats) (line : Bytes) (withHeaders : Bool) : Option Nats :=
  let need := natsTotal line + 2
  let collects := decide (need ≤ s.bigSize) || env.palloc s.acts need
  (natsMsgLine env.inSize env.payloadMax collects line withHeaders).map fun msg =>
    let collect := msg.valid && decide (env.inSize < msg.total + 2)
    { s with
      state := .payload
      msg := msg
      skip := msg.skip
      collect := collect
      big := if collect then [] else s.big
      bigSize := if collect then max s.bigSize (msg.total + 2) else s.bigSize }

/-- `ngx_http_waf_nats_line`; `none` is `NGX_ERROR`. -/
def Nats.line (env : Env) (s : Nats) (line : Bytes) : Option Nats :=
  if line.take 4 = ascii "MSG " then s.msgLine env (line.drop 4) false
  else if line.take 5 = ascii "HMSG " then s.msgLine env (line.drop 5) true
  else if line.take 4 = ascii "PING" then some (s.act env (.pong (env.pongFits s.acts)))
  else if line.take 4 = ascii "PONG" then some { s with pings := 0, acts := s.acts ++ [.up] }
  else if line.take 4 = ascii "INFO" then
    if s.ready then some s
    else if env.helloFits s.acts then some (Nats.act env { s with ready := true, pings := 1 } .hello)
    else none
  else if line.take 4 = ascii "-ERR" then none
  else if line.take 3 = ascii "+OK" then some s
  else if line = [] then some s
  else none

/-- A line without the CR at its end. -/
def dropCr (line : Bytes) : Bytes := if line.getLast? = some 13 then line.dropLast else line

/-! ### One turn of the loop -/

/-- A payload that is skipped. -/
def Nats.skipping (s : Nats) (b : Bytes) : Out Nats :=
  if b.length < s.skip then .wait { s with skip := s.skip - b.length } [] false
  else .go { s with skip := 0, state := .line } (b.drop s.skip)

/-- A payload that is collected outside the input buffer. -/
def Nats.collecting (env : Env) (s : Nats) (b : Bytes) : Out Nats :=
  let take := s.msg.total + 2 - s.big.length
  if b.length < take then .wait { s with big := s.big ++ b } [] false
  else
    .go (Nats.actAll env { s with collect := false, big := [], state := .line }
      (deliver s.msg ((s.big ++ b.take take).take s.msg.total))) (b.drop take)

/-- A payload that is taken from the input buffer. -/
def Nats.buffered (env : Env) (s : Nats) (b : Bytes) : Out Nats :=
  if b.length < s.msg.total + 2 then .wait s b false
  else
    .go (Nats.actAll env { s with state := .line }
      (if s.msg.valid then deliver s.msg (b.take s.msg.total) else [])) (b.drop (s.msg.total + 2))

/-- A line. -/
def Nats.oneLine (env : Env) (s : Nats) (b : Bytes) : Out Nats :=
  match b.dropWhile (· ≠ 10) with
  | [] => .wait s b false
  | _ :: rest =>
    match s.line env (dropCr (b.takeWhile (· ≠ 10))) with
    | none => .fail s
    | some s' => .go s' rest

/-- One turn of the loop of `ngx_http_waf_nats_parse` on the unread bytes. -/
def Nats.step (env : Env) (s : Nats) (b : Bytes) : Out Nats :=
  if b = [] then .wait s [] true
  else
    match s.state with
    | .payload =>
      if s.skip ≠ 0 then s.skipping b
      else if s.collect then s.collecting env b
      else s.buffered env b
    | .line => s.oneLine env b

section Act

variable {env : Env} {s : Nats}

@[simp] theorem Nats.act_state (env : Env) (s : Nats) (a : Action) :
    (s.act env a).state = s.state := by
  unfold Nats.act Nats.drop
  dsimp only
  split <;> rfl

theorem Nats.act_collect (a : Action) (h : s.collect = false) : (s.act env a).collect = false := by
  unfold Nats.act Nats.drop
  dsimp only
  split
  · rfl
  · exact h

@[simp] theorem Nats.actAll_state (env : Env) (s : Nats) (as : List Action) :
    (s.actAll env as).state = s.state := by
  induction as generalizing s with
  | nil => rfl
  | cons a as ih => exact (ih (s.act env a)).trans (act_state env s a)

theorem Nats.actAll_collect (as : List Action) (h : s.collect = false) :
    (s.actAll env as).collect = false := by
  induction as generalizing s with
  | nil => exact h
  | cons a as ih => exact ih (act_collect a h)

/-- Where no send fails, an action is noted and nothing else. -/
theorem Nats.act_eq (hsends : ∀ acts, env.sendFails acts = false) (s : Nats) (a : Action) :
    s.act env a = { s with acts := s.acts ++ [a] } :=
  if_neg fun h => Bool.false_ne_true ((hsends _).symm.trans h.2)

theorem Nats.actAll_eq (hsends : ∀ acts, env.sendFails acts = false) (s : Nats)
    (as : List Action) : s.actAll env as = { s with acts := s.acts ++ as } := by
  induction as generalizing s with
  | nil => rw [List.append_nil]; rfl
  | cons a as ih =>
    have hone : s.actAll env (a :: as) = (s.act env a).actAll env as := rfl
    rw [hone, ih, act_eq hsends, List.append_assoc, List.singleton_append]

end Act

theorem dropWhile_eq_nil {b : Bytes} : b.dropWhile (· ≠ 10) = [] ↔ 10 ∉ b := by
  rw [List.dropWhile_eq_nil_iff]
  constructor
  · intro h hmem
    simpa using h 10 hmem
  · intro h c hc
    simp only [ne_eq, decide_eq_true_eq]
    rintro rfl
    exact h hc

section Step

variable {env : Env} {s s' : Nats} {b b' x : Bytes}

theorem Nats.step_line (hb : b ≠ []) (h : s.state = .line) : s.step env b = s.oneLine env b := by
  rw [Nats.step, if_neg hb, h]

theorem Nats.step_skip (hb : b ≠ []) (h : s.state = .payload) (hskip : s.skip ≠ 0) :
    s.step env b = s.skipping b := by
  rw [Nats.step, if_neg hb, h]
  exact if_pos hskip

theorem Nats.step_collect (hb : b ≠ []) (h : s.state = .payload) (hskip : s.skip = 0)
    (hcollect : s.collect = true) : s.step env b = s.collecting env b := by
  rw [Nats.step, if_neg hb, h]
  exact (if_neg (not_not.2 hskip)).trans (if_pos hcollect)

theorem Nats.step_buffer (hb : b ≠ []) (h : s.state = .payload) (hskip : s.skip = 0)
    (hcollect : s.collect = false) : s.step env b = s.buffered env b := by
  rw [Nats.step, if_neg hb, h]
  exact (if_neg (not_not.2 hskip)).trans (if_neg (by rw [hcollect]; exact Bool.false_ne_true))

/-- The four ways of a turn. -/
theorem Nats.modes (s : Nats) : s.state = .line ∨ s.state = .payload ∧ (s.skip ≠ 0 ∨
    s.skip = 0 ∧ (s.collect = true ∨ s.collect = false)) := by
  cases s.state
  · exact .inl rfl
  · exact .inr ⟨rfl, (ne_or_eq s.skip 0).imp_right fun h => ⟨h, Bool.eq_false_or_eq_true s.collect⟩⟩

theorem Nats.oneLine_of_mem {line rest : Bytes} (h : 10 ∉ line) :
    s.oneLine env (line ++ 10 :: rest) =
      match s.line env (dropCr line) with
      | none => .fail s
      | some s' => .go s' rest := by
  have hall : ∀ c ∈ line, decide (c ≠ 10) = true := by
    intro c hc
    rw [decide_eq_true_eq]
    rintro rfl
    exact h hc
  rw [Nats.oneLine, List.dropWhile_append_of_pos hall, List.takeWhile_append_of_pos hall,
    List.dropWhile_cons_of_neg (by simp), List.takeWhile_cons_of_neg (by simp), List.append_nil]

theorem Nats.oneLine_wait (h : 10 ∉ b) : s.oneLine env b = .wait s b false := by
  rw [Nats.oneLine, dropWhile_eq_nil.2 h]

/-- A text with an end of line, cut there. -/
theorem exists_line (h : 10 ∈ b) : ∃ line rest, b = line ++ 10 :: rest ∧ 10 ∉ line := by
  obtain ⟨line, rest, heq, hout⟩ := List.eq_append_cons_of_mem h
  exact ⟨line, rest, heq, hout⟩

/-- A part of a skipped payload, and the rest of it. -/
theorem Nats.skipping_append (h : b.length < s.skip) :
    s.skipping (b ++ x) = Nats.skipping { s with skip := s.skip - b.length } x := by
  have hlen : (b ++ x).length = b.length + x.length := List.length_append
  unfold Nats.skipping
  by_cases hfew : (b ++ x).length < s.skip
  · rw [if_pos hfew, if_pos (show x.length < s.skip - b.length by omega), hlen, Nat.sub_add_eq]
  · rw [if_neg hfew, if_neg (show ¬ x.length < s.skip - b.length by omega)]
    rw [List.drop_append, List.drop_eq_nil_of_le h.le, List.nil_append]

/-- A part of a collected payload, and the rest of it. -/
theorem Nats.collecting_append (h : b.length < s.msg.total + 2 - s.big.length) :
    s.collecting env (b ++ x) = Nats.collecting env { s with big := s.big ++ b } x := by
  have hlen : (b ++ x).length = b.length + x.length := List.length_append
  have htake : s.msg.total + 2 - (s.big ++ b).length =
      s.msg.total + 2 - s.big.length - b.length := by
    rw [List.length_append, Nat.sub_add_eq]
  unfold Nats.collecting
  dsimp only
  rw [htake]
  by_cases hfew : (b ++ x).length < s.msg.total + 2 - s.big.length
  · rw [if_pos hfew, if_pos (by omega), List.append_assoc]
  · have hbig : (b ++ x).take (s.msg.total + 2 - s.big.length) =
        b ++ x.take (s.msg.total + 2 - s.big.length - b.length) := by
      rw [List.take_append, List.take_of_length_le h.le]
    rw [if_neg hfew, if_neg (by omega), hbig, List.drop_append, List.drop_eq_nil_of_le h.le,
      List.nil_append, List.append_assoc]

theorem Nats.buffered_go (h : ¬ b.length < s.msg.total + 2) : s.buffered env b =
    .go (Nats.actAll env { s with state := .line }
      (if s.msg.valid then deliver s.msg (b.take s.msg.total) else [])) (b.drop (s.msg.total + 2)) :=
  if_neg h

/-- **What a turn does is not changed by the bytes that follow.** -/
theorem Nats.step_append (env : Env) (s : Nats) (b : Bytes) (hx : x ≠ []) :
    match s.step env b with
    | .go s' b' => s.step env (b ++ x) = .go s' (b' ++ x)
    | .wait s' b' _ => s.step env (b ++ x) = s'.step env (b' ++ x)
    | .fail s' => s.step env (b ++ x) = .fail s' := by
  rcases eq_or_ne b [] with rfl | hb
  · rfl
  have hbx : b ++ x ≠ [] := List.append_ne_nil_of_left_ne_nil hb x
  rcases s.modes with h | ⟨h, hskip | ⟨hskip, hcollect | hcollect⟩⟩
  · rw [step_line hb h, step_line hbx h]
    by_cases hmem : 10 ∈ b
    · obtain ⟨line, rest, rfl, hout⟩ := exists_line hmem
      rw [List.append_assoc, List.cons_append, oneLine_of_mem hout, oneLine_of_mem hout]
      cases s.line env (dropCr line) <;> rfl
    · rw [oneLine_wait hmem]
      exact (step_line hbx h).symm
  · rw [step_skip hb h hskip, step_skip hbx h hskip]
    by_cases hfew : b.length < s.skip
    · rw [skipping_append hfew, skipping, if_pos hfew]
      have hskip' : s.skip - b.length ≠ 0 := Nat.sub_ne_zero_of_lt hfew
      exact (step_skip (s := { s with skip := s.skip - b.length }) hx h hskip').symm
    · rw [skipping, if_neg hfew, skipping, if_neg (by rw [List.length_append]; omega),
        List.drop_append_of_le_length (Nat.le_of_not_lt hfew)]
  · rw [step_collect hb h hskip hcollect, step_collect hbx h hskip hcollect]
    by_cases hfew : b.length < s.msg.total + 2 - s.big.length
    · rw [collecting_append hfew, collecting, if_pos hfew]
      exact (step_collect (s := { s with big := s.big ++ b }) hx h hskip hcollect).symm
    · have hle := Nat.le_of_not_lt hfew
      rw [collecting, if_neg hfew, collecting, if_neg (by rw [List.length_append]; omega),
        List.drop_append_of_le_length hle, List.take_append_of_le_length hle]
  · rw [step_buffer hb h hskip hcollect, step_buffer hbx h hskip hcollect]
    by_cases hfew : b.length < s.msg.total + 2
    · rw [buffered, if_pos hfew]
      exact (step_buffer hbx h hskip hcollect).symm
    · have hle := Nat.le_of_not_lt hfew
      have hle' : ¬ (b ++ x).length < s.msg.total + 2 := by
        rw [List.length_append]
        omega
      rw [buffered_go hfew, buffered_go hle', List.drop_append_of_le_length hle,
        List.take_append_of_le_length (by omega)]

/-- The unread bytes, counted twice, and once more for a payload that is being collected. -/
def Nats.size (s : Nats) (b : Bytes) : ℕ := 2 * b.length + if s.collect then 1 else 0

theorem Nats.step_shrinks (h : s.step env b = .go s' b') :
    s'.size b' < s.size b ∧ b'.length ≤ b.length := by
  -- A collected payload may need no more bytes; then it is the flag that goes down.
  have hcases : b'.length < b.length ∨
      (b'.length ≤ b.length ∧ s.collect = true ∧ s'.collect = false) := by
    rcases eq_or_ne b [] with rfl | hb
    · cases h
    have hpos := List.length_pos_iff_ne_nil.2 hb
    rcases s.modes with hs | ⟨hs, hskip | ⟨hskip, hcollect | hcollect⟩⟩
    · rw [step_line hb hs] at h
      by_cases hmem : 10 ∈ b
      · obtain ⟨line, rest, rfl, hout⟩ := exists_line hmem
        rw [oneLine_of_mem hout] at h
        cases hl : s.line env (dropCr line) with
        | none =>
          rw [hl] at h
          cases h
        | some t =>
          rw [hl] at h
          cases h
          left
          rw [List.length_append, List.length_cons]
          omega
      · rw [oneLine_wait hmem] at h
        cases h
    · rw [step_skip hb hs hskip, skipping] at h
      split_ifs at h
      cases h
      left
      rw [List.length_drop]
      omega
    · rw [step_collect hb hs hskip hcollect, collecting] at h
      split_ifs at h
      cases h
      right
      exact ⟨by rw [List.length_drop]; omega, hcollect, Nats.actAll_collect _ rfl⟩
    · rw [step_buffer hb hs hskip hcollect] at h
      by_cases hfew : b.length < s.msg.total + 2
      · rw [buffered, if_pos hfew] at h
        cases h
      · rw [buffered_go hfew] at h
        cases h
        left
        rw [List.length_drop]
        omega
  unfold Nats.size
  rcases hcases with hlt | ⟨hle, hc, hc'⟩
  · refine ⟨?_, hlt.le⟩
    split <;> split <;> omega
  · rw [hc, hc']
    refine ⟨?_, hle⟩
    simp only [if_true, Bool.false_eq_true, if_false]
    omega

end Step

/-- The parser of the bus. -/
def Nats.parser (env : Env) : Parser Nats where
  step := Nats.step env
  size := Nats.size
  shrinks h := (Nats.step_shrinks h).1
  go_append := by
    intro s b s' b' x h
    rcases eq_or_ne x [] with rfl | hx
    · rw [List.append_nil, List.append_nil, h]
    · have happ := Nats.step_append env s b hx
      rwa [h] at happ
  fail_append := by
    intro s b s' x h
    rcases eq_or_ne x [] with rfl | hx
    · rw [List.append_nil, h]
    · have happ := Nats.step_append env s b hx
      rwa [h] at happ
  wait_append := by
    intro s b s' b' d x hx h
    have happ := Nats.step_append env s b hx
    rwa [h] at happ

/-! ### A buffer of limited size -/

/-- A line that fills the buffer and has not ended. -/
def Nats.full (env : Env) (s : Nats) (b : Bytes) : Bool :=
  decide (s.state = .line ∧ env.inSize ≤ b.length ∧ 10 ∉ b.take env.inSize)

section Full

variable {env : Env} {s s' : Nats} {b b' rest : Bytes} {d : Bool}

theorem Nats.full_payload (h : s.state = .payload) : s.full env b = false := by
  simp [Nats.full, h]

/-- A line that has ended does not fill the buffer. -/
theorem Nats.full_append (hmem : 10 ∈ b) (h : s.full env b = false) (x : Bytes) :
    s.full env (b ++ x) = false := by
  cases hstate : s.state with
  | payload => exact full_payload hstate
  | line =>
    simp only [Nats.full, hstate, true_and, decide_eq_false_iff_not, not_and, not_not] at h ⊢
    intro _
    rw [List.take_append]
    rcases Nat.lt_or_ge b.length env.inSize with hlt | hge
    · rw [List.take_of_length_le hlt.le]
      exact List.mem_append_left _ hmem
    · exact List.mem_append_left _ (h hge)

/-- A turn that waits on a line has taken nothing. -/
theorem Nats.wait_line (hs : s.state = .line) (h : s.step env b = .wait s' b' d) :
    s' = s ∧ b' = b ∧ (d = true → b = []) ∧ 10 ∉ b := by
  rcases eq_or_ne b [] with rfl | hb
  · cases h
    exact ⟨rfl, rfl, fun _ => rfl, List.not_mem_nil⟩
  · rw [step_line hb hs] at h
    by_cases hmem : 10 ∈ b
    · obtain ⟨line, rest, rfl, hout⟩ := exists_line hmem
      rw [oneLine_of_mem hout] at h
      cases hl : s.line env (dropCr line) <;> rw [hl] at h <;> cases h
    · rw [oneLine_wait hmem] at h
      cases h
      exact ⟨rfl, rfl, fun hd => absurd hd Bool.false_ne_true, hmem⟩

/-- A turn that waits on a payload has taken all, or waits for a payload that fits the buffer. -/
theorem Nats.wait_payload (hs : s.state = .payload) (h : s.step env b = .wait s' b' d) :
    s'.state = .payload ∧ ((b' = [] ∧ (s'.skip = 0 → s.skip = 0) ∧ s'.collect = s.collect ∧
        s'.msg = s.msg) ∨
      (s' = s ∧ b' = b ∧ d = false ∧ s.skip = 0 ∧ s.collect = false ∧
        b.length < s.msg.total + 2)) := by
  rcases eq_or_ne b [] with rfl | hb
  · cases h
    exact ⟨hs, .inl ⟨rfl, id, rfl, rfl⟩⟩
  rcases s.modes with hs' | ⟨-, hskip | ⟨hskip, hcollect | hcollect⟩⟩
  · rw [hs] at hs'
    cases hs'
  · rw [step_skip hb hs hskip, skipping] at h
    split_ifs at h with hfew
    cases h
    exact ⟨hs, .inl ⟨rfl, fun hzero => absurd hzero (Nat.sub_ne_zero_of_lt hfew), rfl, rfl⟩⟩
  · rw [step_collect hb hs hskip hcollect, collecting] at h
    split_ifs at h
    cases h
    exact ⟨hs, .inl ⟨rfl, id, rfl, rfl⟩⟩
  · rw [step_buffer hb hs hskip hcollect] at h
    by_cases hfew : b.length < s.msg.total + 2
    · rw [buffered, if_pos hfew] at h
      cases h
      exact ⟨hs, .inr ⟨rfl, rfl, rfl, hskip, hcollect, hfew⟩⟩
    · rw [buffered_go hfew] at h
      cases h

/-- A turn that does not wait on a line has an end of line. -/
theorem Nats.mem_of_line (env : Env) (hs : s.state = .line)
    (h : ∀ d, s.step env b ≠ .wait s b d) : 10 ∈ b := by
  by_contra hmem
  rcases eq_or_ne b [] with rfl | hb
  · exact h true rfl
  · exact h false ((step_line hb hs).trans (oneLine_wait hmem))

end Full

/-- Full buffers are given up. -/
def Nats.guard (env : Env) : Guard (Nats.parser env) where
  bad := Nats.full env
  bad_append := by
    intro s b x h
    simp only [Nats.full, decide_eq_true_eq] at h ⊢
    obtain ⟨hs, hlen, hout⟩ := h
    refine ⟨hs, by rw [List.length_append]; omega, ?_⟩
    rwa [List.take_append_of_le_length hlen]
  go_good := by
    intro s b s' b' x h hgood
    cases hs : s.state with
    | payload => exact full_payload hs
    | line =>
      refine full_append (mem_of_line env hs fun d hd => ?_) hgood x
      have hstep : s.step env b = .go s' b' := h
      rw [hstep] at hd
      cases hd
  fail_good := by
    intro s b s' x h hgood
    cases hs : s.state with
    | payload => exact full_payload hs
    | line =>
      refine full_append (mem_of_line env hs fun d hd => ?_) hgood x
      have hstep : s.step env b = .fail s' := h
      rw [hstep] at hd
      cases hd
  wait_good := by
    intro s b s' b' d h hgood
    cases hs : s.state with
    | payload => exact .inr fun x => ⟨full_payload hs, full_payload (wait_payload hs h).1⟩
    | line =>
      obtain ⟨rfl, rfl, -, -⟩ := wait_line hs h
      exact .inl ⟨rfl, rfl⟩

/-- The parser behind a buffer of limited size. -/
def Nats.stream (env : Env) : Parser Nats := (Nats.guard env).parser

/-! ### What is left in the buffer -/

/-- A payload that is neither skipped nor collected fits the buffer. -/
def Nats.Fits (env : Env) (s : Nats) : Prop :=
  s.state = .payload → s.skip = 0 → s.collect = false → s.msg.total + 2 ≤ env.inSize

/-- The parser has stopped on `rest` for want of bytes. -/
def Nats.Waits (env : Env) (s : Nats) (rest : Bytes) : Prop :=
  rest = [] ∨ (s.state = .line ∧ 10 ∉ rest) ∨ rest.length < env.inSize

/-- The three ways that a message line takes its payload. -/
theorem natsMsgLine_cases {inSize payloadMax : ℕ} {collects withHeaders : Bool} {line : Bytes}
    {msg : NatsMsg} (h : natsMsgLine inSize payloadMax collects line withHeaders = some msg) :
    msg.total = natsTotal line ∧ msg.hdr ≤ msg.total ∧
      ((msg.total + 2 ≤ inSize ∧ msg.skip = 0 ∧ msg.valid = msg.routed.isSome) ∨
        (inSize < msg.total + 2 ∧ msg.skip = 0 ∧ msg.valid = true ∧
          ∃ i, msg.routed = some (.dataset i) ∧ msg.total ≤ payloadMax ∧ collects = true) ∨
        (inSize < msg.total + 2 ∧ msg.skip = msg.total + 2 ∧ msg.valid = false ∧
          ∀ i, msg.routed = some (.dataset i) → ¬ (msg.total ≤ payloadMax ∧ collects = true))) := by
  unfold natsMsgLine at h
  unfold natsTotal
  generalize natsTokens 5 line = tokens at h ⊢
  dsimp only at h ⊢
  by_cases hfew : tokens.length < if withHeaders then 4 else 3
  · rw [if_pos hfew] at h
    cases h
  rw [if_neg hfew] at h
  cases hn : atoi (tokens.getD (tokens.length - 1) []) with
  | none =>
    rw [hn] at h
    cases h
  | some n =>
    rw [hn] at h
    cases hhead : if withHeaders = true then atoi (tokens.getD (tokens.length - 2) [])
        else some 0 with
    | none =>
      rw [hhead] at h
      cases h
    | some hdr =>
      rw [hhead] at h
      dsimp only at h
      by_cases hover : withHeaders = true ∧ hdr > n
      · rw [if_pos hover] at h
        cases h
      rw [if_neg hover] at h
      have hle : hdr ≤ n := by
        cases withHeaders with
        | true => exact Nat.le_of_not_lt fun hlt => hover ⟨rfl, hlt⟩
        | false =>
          cases hhead
          exact Nat.zero_le n
      by_cases hsize : n + 2 ≤ inSize
      · rw [if_pos hsize] at h
        cases h
        exact ⟨rfl, hle, .inl ⟨hsize, rfl, rfl⟩⟩
      rw [if_neg hsize] at h
      have hbig := Nat.lt_of_not_le hsize
      -- Only a message of a dataset is collected when it does not fit the buffer.
      generalize natsRoute (tokens.getD 1 []) (tokens.getD 0 []) = routed at h
      rcases routed with _ | ⟨rid, i⟩ | i | i
      · cases h
        exact ⟨rfl, hle, .inr (.inr ⟨hbig, rfl, rfl, fun i hi => by cases hi⟩)⟩
      · cases h
        exact ⟨rfl, hle, .inr (.inr ⟨hbig, rfl, rfl, fun i hi => by cases hi⟩)⟩
      · dsimp only at h
        by_cases hcollect : n ≤ payloadMax ∧ collects = true
        · rw [if_pos hcollect] at h
          cases h
          exact ⟨rfl, hle, .inr (.inl ⟨hbig, rfl, rfl, i, rfl, hcollect⟩)⟩
        · rw [if_neg hcollect] at h
          cases h
          exact ⟨rfl, hle, .inr (.inr ⟨hbig, rfl, rfl, fun _ _ => hcollect⟩)⟩
      · cases h
        exact ⟨rfl, hle, .inr (.inr ⟨hbig, rfl, rfl, fun i hi => by cases hi⟩)⟩

section Kept

variable {env : Env} {s s' : Nats} {b b' rest line : Bytes} {d : Bool}

theorem Nats.msgLine_fits {withHeaders : Bool} (h : s.msgLine env line withHeaders = some s') :
    s'.Fits env := by
  obtain ⟨msg, hmsg, rfl⟩ := Option.map_eq_some_iff.1 h
  intro _ hskip hcollect
  dsimp only at hskip hcollect ⊢
  obtain ⟨-, -, ⟨hfits, -⟩ | ⟨hbig, -, hvalid, -⟩ | ⟨-, hskip', -⟩⟩ := natsMsgLine_cases hmsg
  · exact hfits
  · rw [hvalid, decide_eq_true hbig] at hcollect
    cases hcollect
  · omega

theorem Nats.line_fits (hs : s.state = .line) (h : s.line env line = some s') : s'.Fits env := by
  unfold Nats.line at h
  by_cases hmsg : line.take 4 = ascii "MSG "
  · rw [if_pos hmsg] at h
    exact msgLine_fits h
  rw [if_neg hmsg] at h
  by_cases hhmsg : line.take 5 = ascii "HMSG "
  · rw [if_pos hhmsg] at h
    exact msgLine_fits h
  rw [if_neg hhmsg] at h
  have hstate : s'.state = .line := by
    split_ifs at h
    all_goals cases h
    · exact (Nats.act_state env _ _).trans hs
    · exact hs
    · exact hs
    · exact (Nats.act_state env _ _).trans hs
    · exact hs
    · exact hs
  intro hs'
  rw [hstate] at hs'
  cases hs'

theorem Nats.go_fits (h : s.step env b = .go s' b') : s'.Fits env ∧ b' <:+ b := by
  rcases eq_or_ne b [] with rfl | hb
  · cases h
  have hline : ∀ {t : Nats}, t.state = .line → t.Fits env := fun ht hp => by
    rw [ht] at hp
    cases hp
  rcases s.modes with hs | ⟨hs, hskip | ⟨hskip, hcollect | hcollect⟩⟩
  · rw [step_line hb hs] at h
    by_cases hmem : 10 ∈ b
    · obtain ⟨line, rest, rfl, hout⟩ := exists_line hmem
      rw [oneLine_of_mem hout] at h
      cases hl : s.line env (dropCr line) with
      | none =>
        rw [hl] at h
        cases h
      | some t =>
        rw [hl] at h
        cases h
        refine ⟨line_fits hs hl, line ++ [10], ?_⟩
        rw [List.append_assoc, List.singleton_append]
    · rw [oneLine_wait hmem] at h
      cases h
  · rw [step_skip hb hs hskip, skipping] at h
    split_ifs at h
    cases h
    exact ⟨hline rfl, List.drop_suffix _ _⟩
  · rw [step_collect hb hs hskip hcollect, collecting] at h
    split_ifs at h
    cases h
    exact ⟨hline (Nats.actAll_state env _ _), List.drop_suffix _ _⟩
  · rw [step_buffer hb hs hskip hcollect] at h
    by_cases hfew : b.length < s.msg.total + 2
    · rw [buffered, if_pos hfew] at h
      cases h
    · rw [buffered_go hfew] at h
      cases h
      exact ⟨hline (Nats.actAll_state env _ _), List.drop_suffix _ _⟩

theorem Nats.wait_fits (hfits : s.Fits env) (h : s.step env b = .wait s' b' d) :
    s'.Fits env ∧ b' <:+ b ∧ (d = true → b' = []) ∧ s'.Waits env b' := by
  cases hs : s.state with
  | line =>
    obtain ⟨rfl, rfl, hd, hout⟩ := wait_line hs h
    exact ⟨hfits, List.suffix_refl _, hd, .inr (.inl ⟨hs, hout⟩)⟩
  | payload =>
    obtain ⟨-, ⟨rfl, hskip, hcollect, hmsg⟩ | ⟨rfl, rfl, rfl, hskip, hcollect, hfew⟩⟩ :=
      wait_payload hs h
    · refine ⟨fun _ hzero hno => ?_, List.nil_suffix, fun _ => rfl, .inl rfl⟩
      rw [hmsg]
      exact hfits hs (hskip hzero) (hcollect ▸ hno)
    · exact ⟨hfits, List.suffix_refl _, fun hd => absurd hd Bool.false_ne_true,
        .inr (.inr (lt_of_lt_of_le hfew (hfits hs hskip hcollect)))⟩

/-- **What the parser leaves in the buffer.** -/
theorem Nats.feed_waits (hfits : s.Fits env)
    (h : (Nats.parser env).feed s b = .wait s' rest d) :
    s'.Fits env ∧ rest <:+ b ∧ (d = true → rest = []) ∧ s'.Waits env rest := by
  refine feed_induct (Nats.parser env) (P := fun s b r => s.Fits env → r = .wait s' rest d →
    s'.Fits env ∧ rest <:+ b ∧ (d = true → rest = []) ∧ s'.Waits env rest) ?_ ?_ ?_ s b hfits h
  · intro s b t c e hstep hfits heq
    cases heq
    exact wait_fits hfits hstep
  · intro s b t _ _ heq
    cases heq
  · intro s b t c hstep ih _ heq
    obtain ⟨ht, hsuffix⟩ := go_fits hstep
    obtain ⟨h₁, h₂, h₃, h₄⟩ := ih ht heq
    exact ⟨h₁, h₂.trans hsuffix, h₃, h₄⟩

/-- A line and a turn leave the connection up where no send fails. -/
theorem Nats.line_dropped (hsends : ∀ acts, env.sendFails acts = false)
    (h : s.line env line = some s') : s'.dropped = s.dropped := by
  have hmsg : ∀ {rest withHeaders}, s.msgLine env rest withHeaders = some s' →
      s'.dropped = s.dropped := by
    intro rest withHeaders h
    obtain ⟨msg, -, rfl⟩ := Option.map_eq_some_iff.1 h
    rfl
  unfold Nats.line at h
  simp only [Nats.act_eq hsends] at h
  split_ifs at h
  · exact hmsg h
  · exact hmsg h
  all_goals
    cases h
    rfl

theorem Nats.step_dropped (hsends : ∀ acts, env.sendFails acts = false) :
    match s.step env b with
    | .go s' _ => s'.dropped = s.dropped
    | .wait s' _ _ => s'.dropped = s.dropped
    | .fail _ => True := by
  rcases eq_or_ne b [] with rfl | hb
  · rfl
  rcases s.modes with hs | ⟨hs, hskip | ⟨hskip, hcollect | hcollect⟩⟩
  · rw [step_line hb hs]
    by_cases hmem : 10 ∈ b
    · obtain ⟨text, rest, rfl, hout⟩ := exists_line hmem
      rw [oneLine_of_mem hout]
      cases hl : s.line env (dropCr text) with
      | none => trivial
      | some t => exact line_dropped hsends hl
    · rw [oneLine_wait hmem]
  · rw [step_skip hb hs hskip, skipping]
    split_ifs <;> rfl
  · rw [step_collect hb hs hskip hcollect, collecting]
    simp only [Nats.actAll_eq hsends]
    split_ifs <;> rfl
  · rw [step_buffer hb hs hskip hcollect, buffered]
    simp only [Nats.actAll_eq hsends]
    split_ifs <;> rfl

theorem Nats.feed_dropped (hsends : ∀ acts, env.sendFails acts = false)
    (h : (Nats.parser env).feed s b = .wait s' rest d) : s'.dropped = s.dropped := by
  refine feed_induct (Nats.parser env) (P := fun s _ r => r = .wait s' rest d →
    s'.dropped = s.dropped) ?_ ?_ ?_ s b h
  · intro s b t c e hstep heq
    cases heq
    have hone := step_dropped (s := s) (b := b) hsends
    rwa [show s.step env b = .wait s' rest d from hstep] at hone
  · intro s b t _ heq
    cases heq
  · intro s b t c hstep ih heq
    have hone := step_dropped (s := s) (b := b) hsends
    rw [show s.step env b = .go t c from hstep] at hone
    exact (ih heq).trans hone

/-- The parser behind a buffer of limited size, on what the buffer can hold. -/
theorem Nats.stream_feed (hb : b.length ≤ env.inSize) :
    (Nats.stream env).feed s b = (Nats.guard env).judge ((Nats.parser env).feed s b) := by
  refine guard_feed (Nats.guard env) ?_ (fun h => (step_shrinks h).2) hb
  intro s b hb hfull
  have hfull' : s.state = .line ∧ env.inSize ≤ b.length ∧ 10 ∉ b.take env.inSize :=
    of_decide_eq_true hfull
  obtain ⟨hs, -, hout⟩ := hfull'
  rw [List.take_of_length_le hb] at hout
  rcases eq_or_ne b [] with rfl | hne
  · exact ⟨true, rfl⟩
  · exact ⟨false, (step_line hne hs).trans (oneLine_wait hout)⟩

end Kept

/-! ### The read handler -/

/-- The input side of `ngx_http_waf_link_t` with the parser: `buf` is the buffer up to `in_last`,
`stream` what the socket has yet to give, and `seen` what it has given. -/
structure Conn where
  nats : Nats
  buf : Bytes
  pos : ℕ
  stream : Bytes
  seen : Bytes
  alive : Bool

/-- A new connection. -/
def Conn.start (s : Nats) (stream : Bytes) : Conn := ⟨s, [], 0, stream, [], true⟩

/-- The bytes from `in_pos` on. -/
def Conn.unread (c : Conn) : Bytes := c.buf.drop c.pos

/-- The `ngx_memmove` of the unread bytes to the front of a full buffer. -/
def Conn.compact (env : Env) (c : Conn) : Conn :=
  if c.buf.length = env.inSize then { c with buf := c.unread, pos := 0 } else c

/-- Bytes from the socket, and `on_read` on them.  A connection that was closed in the middle is left
alone. -/
def Conn.onRead (env : Env) (c : Conn) (got : Bytes) : Conn :=
  let buf := c.buf ++ got
  let stream := c.stream.drop got.length
  let seen := c.seen ++ got
  match (Nats.parser env).feed c.nats (buf.drop c.pos) with
  | .wait s rest drained =>
    if drained then ⟨s, [], 0, stream, seen, !s.dropped⟩
    else ⟨s, buf, buf.length - rest.length, stream, seen, !s.dropped⟩
  | .fail s => ⟨s, buf, c.pos, stream, seen, false⟩

/-- One turn of `ngx_http_waf_link_read_handler`, where the socket gives at most `n` bytes, and at
least one when it has any. -/
def Conn.turn (env : Env) (c : Conn) (n : ℕ) : Conn :=
  if c.alive = false then c
  else if c.buf.length = env.inSize ∧ c.pos = 0 then { c with alive := false }
  else
    let c := c.compact env
    let got := c.stream.take (min (max n 1) (env.inSize - c.buf.length))
    if got = [] then c else c.onRead env got

/-- What the read handler has reached: what the parser reaches on the bytes that were read. -/
structure Conn.Kept (env : Env) (s : Nats) (stream : Bytes) (c : Conn) : Prop where
  seen : c.seen ++ c.stream = stream
  pos : c.pos ≤ c.buf.length
  room : c.buf.length ≤ env.inSize
  dead : c.alive = false → (Nats.stream env).feed s c.seen = .fail c.nats
  live : c.alive = true → c.nats.dropped = false ∧ c.nats.Fits env ∧ c.nats.Waits env c.unread ∧
    ∃ d, (Nats.stream env).feed s c.seen = (Nats.guard env).judge (.wait c.nats c.unread d)

section Handler

variable {env : Env} {s : Nats} {stream got : Bytes} {c : Conn}

theorem Conn.length_unread (c : Conn) : c.unread.length = c.buf.length - c.pos := List.length_drop

theorem Conn.kept_start (hup : s.dropped = false) (hfits : s.Fits env) :
    (Conn.start s stream).Kept env s stream := by
  refine ⟨List.nil_append _, le_rfl, Nat.zero_le _, (fun h => by cases h), fun _ => ?_⟩
  refine ⟨hup, hfits, .inl rfl, true, ?_⟩
  have hempty : (Nats.parser env).feed s [] = .wait s [] true := feed_wait (Nats.parser env) rfl
  change (Nats.stream env).feed s [] = _
  rw [Nats.stream_feed (Nat.zero_le _), hempty]
  rfl

/-- The buffer is full to the front exactly when the parser gives it up. -/
theorem Conn.Kept.full_iff (hk : c.Kept env s stream) (hsize : 0 < env.inSize)
    (halive : c.alive = true) :
    (c.buf.length = env.inSize ∧ c.pos = 0) ↔ c.nats.full env c.unread = true := by
  have hlen := c.length_unread
  have hpos := hk.pos
  have hroom := hk.room
  constructor
  · rintro ⟨hbuf, hzero⟩
    have hfull : c.unread.length = env.inSize := by omega
    obtain ⟨-, -, hwaits, -⟩ := hk.live halive
    rcases hwaits with hnil | ⟨hline, hout⟩ | hfew
    · rw [hnil, List.length_nil] at hfull
      omega
    · refine decide_eq_true ⟨hline, hfull.ge, ?_⟩
      rwa [List.take_of_length_le hfull.le]
    · omega
  · intro hfull
    obtain ⟨-, hge, -⟩ := of_decide_eq_true hfull
    omega

theorem Conn.compact_eq (env : Env) (c : Conn) : (c.compact env).unread = c.unread ∧
    (c.compact env).nats = c.nats ∧ (c.compact env).stream = c.stream ∧
    (c.compact env).seen = c.seen ∧ (c.compact env).alive = c.alive := by
  unfold Conn.compact
  split <;> exact ⟨rfl, rfl, rfl, rfl, rfl⟩

theorem Conn.Kept.compact (hk : c.Kept env s stream) : (c.compact env).Kept env s stream := by
  obtain ⟨hunread, hnats, hstream, hseen, halive⟩ := c.compact_eq env
  have hpos := hk.pos
  have hroom := hk.room
  refine ⟨by rw [hseen, hstream]; exact hk.seen, ?_, ?_, ?_, ?_⟩
  · unfold Conn.compact
    split
    · exact Nat.zero_le _
    · exact hpos
  · unfold Conn.compact
    split
    · rw [c.length_unread]
      omega
    · exact hroom
  · rw [halive, hseen, hnats]
    exact hk.dead
  · rw [halive, hseen, hnats, hunread]
    exact hk.live

/-- There is room behind the bytes of a buffer that is not full to the front. -/
theorem Conn.Kept.room_compact (hk : c.Kept env s stream)
    (hnot : ¬ (c.buf.length = env.inSize ∧ c.pos = 0)) :
    (c.compact env).buf.length < env.inSize := by
  have hpos := hk.pos
  have hroom := hk.room
  unfold Conn.compact
  split
  · next hfull =>
    have hlen : c.unread.length < env.inSize := by
      rw [c.length_unread]
      omega
    exact hlen
  · omega

theorem Conn.Kept.onRead (hsends : ∀ acts, env.sendFails acts = false) (hk : c.Kept env s stream)
    (halive : c.alive = true) (hgood : c.nats.full env c.unread = false) (hne : got ≠ [])
    (hgot : got <+: c.stream) (hroom : c.buf.length + got.length ≤ env.inSize) :
    (c.onRead env got).Kept env s stream := by
  obtain ⟨hup, hfits, -, d, hfeed⟩ := hk.live halive
  -- The buffer was not full before the read, so that the stream has not failed there.
  have hjudge : (Nats.guard env).judge (.wait c.nats c.unread d) = .wait c.nats c.unread d :=
    if_neg fun hbad => Bool.false_ne_true (hgood.symm.trans hbad)
  have hbytes : (c.buf ++ got).drop c.pos = c.unread ++ got :=
    List.drop_append_of_le_length hk.pos
  have hlen : (c.unread ++ got).length ≤ env.inSize := by
    have hunread := c.length_unread
    rw [List.length_append]
    omega
  -- Feeding what came before and then the rest is feeding both at once.
  have hmore : (Nats.stream env).feed s (c.seen ++ got) =
      (Nats.guard env).judge ((Nats.parser env).feed c.nats (c.unread ++ got)) := by
    rw [feed_append _ hne, hfeed, hjudge]
    exact Nats.stream_feed hlen
  have hseen : (c.seen ++ got) ++ c.stream.drop got.length = stream := by
    obtain ⟨t, ht⟩ := hgot
    rw [← ht, List.drop_left, List.append_assoc, ht]
    exact hk.seen
  have hroom' : (c.buf ++ got).length ≤ env.inSize := by
    rw [List.length_append]
    exact hroom
  unfold Conn.onRead
  dsimp only
  rw [hbytes]
  cases hres : (Nats.parser env).feed c.nats (c.unread ++ got) with
  | fail t =>
    rw [hres] at hmore
    have hpos : c.pos ≤ (c.buf ++ got).length := by
      have hle := hk.pos
      rw [List.length_append]
      omega
    exact ⟨hseen, hpos, hroom', fun _ => hmore, (fun h => by cases h)⟩
  | wait t rest e =>
    rw [hres] at hmore
    obtain ⟨hfits', hsuffix, hdrained, hwaits⟩ := Nats.feed_waits hfits hres
    have hup' : t.dropped = false := (Nats.feed_dropped hsends hres).trans hup
    have hstays : (!t.dropped) = true := by rw [hup', Bool.not_false]
    cases e with
    -- All is read, and the next read starts at the front of the buffer.
    | true =>
      obtain rfl := hdrained rfl
      exact ⟨hseen, le_rfl, Nat.zero_le _, (fun h => absurd (hstays.symm.trans h) (by simp)),
        fun _ => ⟨hup', hfits', .inl rfl, true, hmore⟩⟩
    | false =>
      -- What the parser has not taken is the end of the buffer, and `in_pos` is moved to its start.
      have hsuffix' : rest <:+ c.buf ++ got :=
        hsuffix.trans (hbytes ▸ List.drop_suffix c.pos (c.buf ++ got))
      have hrest : (c.buf ++ got).drop ((c.buf ++ got).length - rest.length) = rest :=
        (List.suffix_iff_eq_drop.1 hsuffix').symm
      dsimp only
      rw [if_neg Bool.false_ne_true]
      refine ⟨hseen, Nat.sub_le _ _, hroom', (fun h => absurd (hstays.symm.trans h) (by simp)),
        fun _ => ⟨hup', hfits', ?_, false, ?_⟩⟩
      · rw [Conn.unread, hrest]
        exact hwaits
      · rw [Conn.unread, hrest]
        exact hmore

/-- **One turn of the read handler.** -/
theorem Conn.Kept.turn (hsize : 0 < env.inSize) (hsends : ∀ acts, env.sendFails acts = false)
    (c : Conn) (n : ℕ) (hk : c.Kept env s stream) : (c.turn env n).Kept env s stream := by
  unfold Conn.turn
  split
  · exact hk
  next halive =>
  have halive := Bool.eq_true_of_not_eq_false halive
  split
  -- A full buffer is given up, and the parser behind a buffer of that size gives up as well.
  · next hfull =>
    have hbad := (hk.full_iff hsize halive).1 hfull
    obtain ⟨-, -, -, d, hfeed⟩ := hk.live halive
    refine ⟨hk.seen, hk.pos, hk.room, fun _ => ?_, (fun h => by cases h)⟩
    exact hfeed.trans (if_pos hbad)
  · next hnot =>
    have hgood : c.nats.full env c.unread = false :=
      Bool.eq_false_of_not_eq_true fun hbad => hnot ((hk.full_iff hsize halive).2 hbad)
    obtain ⟨hunread, hnats, hstream, -, halive'⟩ := c.compact_eq env
    dsimp only
    split
    · exact hk.compact
    · next hne =>
      refine hk.compact.onRead hsends (halive'.trans halive) ?_ hne (List.take_prefix _ _) ?_
      · rw [hnats, hunread]
        exact hgood
      · have hroom := hk.room_compact hnot
        rw [List.length_take]
        omega

theorem Conn.kept_run (hsize : 0 < env.inSize) (hsends : ∀ acts, env.sendFails acts = false)
    (hup : s.dropped = false) (hfits : s.Fits env) (stream : Bytes) (ns : List ℕ) :
    (runFrom (Conn.turn env) (Conn.start s stream) ns).Kept env s stream :=
  invariant_always (fun c n => Conn.Kept.turn hsize hsends c n) ns (kept_start hup hfits)

/-! ### Enough turns -/

theorem Conn.turn_dead {n : ℕ} (h : c.alive = false) : c.turn env n = c := if_pos h

theorem Conn.seen_onRead (env : Env) (c : Conn) (got : Bytes) :
    (c.onRead env got).seen = c.seen ++ got ∧
      (c.onRead env got).stream = c.stream.drop got.length := by
  unfold Conn.onRead
  dsimp only
  split
  · split <;> exact ⟨rfl, rfl⟩
  · exact ⟨rfl, rfl⟩

/-- A turn of a connection that stays alive reads something, or there is nothing to read, and then
the buffer has room. -/
theorem Conn.Kept.turn_reads (hk : c.Kept env s stream) (halive : c.alive = true) {n : ℕ}
    (hafter : (c.turn env n).alive = true) :
    ((c.turn env n).stream.length < c.stream.length) ∨
      (c.stream = [] ∧ (c.turn env n).stream = [] ∧
        ¬ ((c.turn env n).buf.length = env.inSize ∧ (c.turn env n).pos = 0)) := by
  unfold Conn.turn at hafter ⊢
  rw [if_neg (by rw [halive]; exact Bool.noConfusion)] at hafter ⊢
  by_cases hfull : c.buf.length = env.inSize ∧ c.pos = 0
  · rw [if_pos hfull] at hafter
    cases hafter
  rw [if_neg hfull] at hafter ⊢
  obtain ⟨-, -, hstream, -, -⟩ := c.compact_eq env
  have hroom := hk.room_compact hfull
  dsimp only at hafter ⊢
  rw [hstream] at hafter ⊢
  rcases eq_or_ne c.stream [] with hnil | hne
  · right
    rw [if_pos (by rw [hnil, List.take_nil])]
    exact ⟨hnil, hstream.trans hnil, fun h => absurd h.1 hroom.ne⟩
  · left
    have hpos := List.length_pos_iff_ne_nil.2 hne
    have hlen : 0 <
        (c.stream.take (min (max n 1) (env.inSize - (c.compact env).buf.length))).length := by
      rw [List.length_take]
      omega
    rw [if_neg (List.length_pos_iff_ne_nil.1 hlen), (seen_onRead env _ _).2, hstream,
      List.length_drop]
    omega

/-- After more turns than the stream has bytes, a connection is closed, or it has read all and waits
for more. -/
theorem Conn.run_done (hsize : 0 < env.inSize) (hsends : ∀ acts, env.sendFails acts = false)
    (hup : s.dropped = false) (hfits : s.Fits env) (stream : Bytes) (ns : List ℕ)
    (h : (runFrom (Conn.turn env) (Conn.start s stream) ns).alive = true) :
    (runFrom (Conn.turn env) (Conn.start s stream) ns).stream.length + ns.length ≤ stream.length ∨
      ((runFrom (Conn.turn env) (Conn.start s stream) ns).stream = [] ∧
        (stream.length < ns.length →
          ¬ ((runFrom (Conn.turn env) (Conn.start s stream) ns).buf.length = env.inSize ∧
            (runFrom (Conn.turn env) (Conn.start s stream) ns).pos = 0))) := by
  induction ns using List.reverseRecOn with
  | nil => exact .inl (by simp [Conn.start])
  | append_singleton ns n ih =>
    have hk := kept_run hsize hsends hup hfits stream ns
    rw [runFrom_append, runFrom_cons, runFrom_nil] at h ⊢
    generalize runFrom (Conn.turn env) (Conn.start s stream) ns = c at hk ih h ⊢
    have halive : c.alive = true := by
      by_contra hdead
      rw [turn_dead (Bool.eq_false_of_not_eq_true hdead)] at h
      exact hdead h
    rw [List.length_append, List.length_singleton]
    rcases hk.turn_reads halive h with hless | ⟨hnil, hnil', hroom⟩
    · rcases ih halive with hleft | ⟨hnil, -⟩
      · left
        omega
      · rw [hnil] at hless
        exact absurd hless (Nat.not_lt_zero _)
    · exact .inr ⟨hnil', fun _ => hroom⟩

end Handler

/-- What a stream makes of a parser. -/
def Outcome (env : Env) (s : Nats) (stream : Bytes) (c : Conn) : Prop :=
  match (Nats.stream env).feed s stream with
  | .wait t rest _ => c.alive = true ∧ c.nats = t ∧ c.unread = rest
  | .fail t => c.alive = false ∧ c.nats = t

/-- Enough turns come to the outcome. -/
theorem Conn.run_outcome {env : Env} {s : Nats} {stream : Bytes} {ns : List ℕ}
    (hsize : 0 < env.inSize) (hsends : ∀ acts, env.sendFails acts = false) (hup : s.dropped = false)
    (hfits : s.Fits env) (hn : stream.length < ns.length) :
    Outcome env s stream (runFrom (Conn.turn env) (Conn.start s stream) ns) := by
  have hk := kept_run hsize hsends hup hfits stream ns
  have hdone := run_done hsize hsends hup hfits stream ns
  generalize runFrom (Conn.turn env) (Conn.start s stream) ns = c at hk hdone ⊢
  unfold Outcome
  cases halive : c.alive with
  | false =>
    have hseen : stream = c.seen ++ c.stream := hk.seen.symm
    have hfail : (Nats.stream env).feed s stream = .fail c.nats := by
      rcases eq_or_ne c.stream [] with hnil | hne
      · rw [hseen, hnil, List.append_nil]
        exact hk.dead halive
      · rw [hseen, feed_append _ hne, hk.dead halive]
        rfl
    rw [hfail]
    exact ⟨rfl, rfl⟩
  | true =>
    obtain ⟨hnil, hroom⟩ : c.stream = [] ∧ ¬ (c.buf.length = env.inSize ∧ c.pos = 0) := by
      rcases hdone halive with hleft | ⟨hnil, hroom⟩
      · omega
      · exact ⟨hnil, hroom hn⟩
    have hseen : c.seen = stream := by
      have heq := hk.seen
      rwa [hnil, List.append_nil] at heq
    obtain ⟨-, -, -, d, hfeed⟩ := hk.live halive
    have hgood : ¬ (Nats.guard env).bad c.nats c.unread = true := fun hbad =>
      hroom ((hk.full_iff hsize halive).2 hbad)
    have hwait : (Nats.stream env).feed s stream = .wait c.nats c.unread d := by
      rw [← hseen, hfeed]
      exact if_neg hgood
    rw [hwait]
    exact ⟨rfl, rfl, rfl⟩

/-- **How the stream is cut does not matter** where no send of the parser fails.  Whatever pieces the
socket gives, and however the buffer is compacted, the read handler comes to an end, and what the
parser has done by then, its state, the bytes it waits on and whether the connection was dropped
depend on the stream only. -/
theorem input_cut_free (env : Env) (s : Nats) (stream : Bytes) (ns ms : List ℕ)
    (hsize : 0 < env.inSize) (hsends : ∀ acts, env.sendFails acts = false) (hup : s.dropped = false)
    (hfits : s.Fits env) (hn : stream.length < ns.length)
    (hm : stream.length < ms.length) :
    Outcome env s stream (runFrom (Conn.turn env) (Conn.start s stream) ns) ∧
      (runFrom (Conn.turn env) (Conn.start s stream) ms).alive =
        (runFrom (Conn.turn env) (Conn.start s stream) ns).alive ∧
      (runFrom (Conn.turn env) (Conn.start s stream) ms).nats =
        (runFrom (Conn.turn env) (Conn.start s stream) ns).nats ∧
      ((runFrom (Conn.turn env) (Conn.start s stream) ns).alive = true →
        (runFrom (Conn.turn env) (Conn.start s stream) ms).unread =
          (runFrom (Conn.turn env) (Conn.start s stream) ns).unread) := by
  have h₁ := Conn.run_outcome hsize hsends hup hfits hn
  have h₂ := Conn.run_outcome hsize hsends hup hfits hm
  refine ⟨h₁, ?_⟩
  unfold Outcome at h₁ h₂
  cases hfeed : (Nats.stream env).feed s stream with
  | wait t rest d =>
    rw [hfeed] at h₁ h₂
    exact ⟨h₂.1.trans h₁.1.symm, h₂.2.1.trans h₁.2.1.symm, fun _ => h₂.2.2.trans h₁.2.2.symm⟩
  | fail t =>
    rw [hfeed] at h₁ h₂
    refine ⟨h₂.1.trans h₁.1.symm, h₂.2.trans h₁.2.symm, fun halive => ?_⟩
    rw [h₁.1] at halive
    cases halive

/-- A parser at the start of a connection, which has not sent its greeting. -/
def fresh : Nats := ⟨.line, false, 0, [], 0, 0, false, ⟨0, 0, none, false, 0⟩, [], false⟩

/-- A buffer of 32 bytes. -/
def narrow : Env := ⟨32, 64, fun _ _ => true, fun _ => true, fun _ => true, fun _ => false⟩

/-- The greeting and a ping, byte by byte and in one piece. -/
theorem greeting_cut_free :
    (runFrom (Conn.turn narrow) (Conn.start fresh (ascii "INFO \x7b\x7d\r\nPING\r\n"))
        (List.replicate 32 1)).nats =
      (runFrom (Conn.turn narrow) (Conn.start fresh (ascii "INFO \x7b\x7d\r\nPING\r\n"))
        (List.replicate 16 32)).nats :=
  (input_cut_free narrow fresh (ascii "INFO \x7b\x7d\r\nPING\r\n") (List.replicate 16 32)
    (List.replicate 32 1) (by decide) (fun _ => rfl) rfl (fun h => by cases h) (by decide)
    (by decide)).2.2.1

/-- Where the answer to a ping cannot be sent, a message behind it is handed over if both come in one
piece, and lost if the ping comes alone. -/
theorem failed_send_cut :
    (runFrom (Conn.turn { narrow with sendFails := fun _ => true })
        (Conn.start fresh (ascii "PING\r\nMSG a d3 1\r\nx\r\n")) [32]).nats.acts =
      [.pong true, .dataset 3 (ascii "x")] ∧
    (runFrom (Conn.turn { narrow with sendFails := fun _ => true })
        (Conn.start fresh (ascii "PING\r\nMSG a d3 1\r\nx\r\n")) [6, 32]).nats.acts =
      [.pong true] := by
  decide +kernel

end Bus
