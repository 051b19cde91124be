import PlacitumNode.Bus.Input

/-!
# The messages of the bus (`bus/ngx_http_waf_bus_nats.c`)

The bus writes a line that names a subject, a subscription and the size of what follows, and behind it
the header block and the payload.

* `Message.text`, `Item.encode`: what the bus writes;
* `receive`: what the node makes of an item, on the actions and on the buffer for large messages;
* `natsTokens_words`: the words of a line are read back;
* `Item.stream_item`, `stream_items`: the parser on one item and on all;
* `messages_delivered`: messages are handed over in order, whole, and once.
-/

namespace Bus

open Octets Numerals Feed Run

/-! ### What the bus sends -/

/-- A message of the bus: `head` is its header block, empty where it has none. -/
structure Message where
  subject : Bytes
  sid : Bytes
  reply : Option Bytes
  head : Bytes
  payload : Bytes

/-- What follows the line of the message. -/
def Message.body (m : Message) : Bytes := m.head ++ m.payload

/-- The words of the line behind its name. -/
def Message.words (m : Message) : List Bytes :=
  [m.subject, m.sid] ++ m.reply.toList ++ (if m.head ≠ [] then [decimal m.head.length] else []) ++
    [decimal m.body.length]

/-- The line of the message. -/
def Message.text (m : Message) : Bytes :=
  (if m.head ≠ [] then ascii "HMSG" else ascii "MSG") ++ m.words.flatMap (32 :: ·)

/-- What the bus sends to the node. -/
inductive Item
  | message (m : Message)
  | ping
  | pong
  | ok

/-- An item as it stands in the stream. -/
def Item.encode : Item → Bytes
  | .message m => m.text ++ [13, 10] ++ m.body ++ [13, 10]
  | .ping => ascii "PING" ++ [13, 10]
  | .pong => ascii "PONG" ++ [13, 10]
  | .ok => ascii "+OK" ++ [13, 10]

/-- A word of a line. -/
def Word (w : Bytes) : Prop := w ≠ [] ∧ ∀ c ∈ w, isBlank c = false ∧ c ≠ 10

/-- The words of the message are words, its line fits the buffer, and its size is an integer. -/
structure Message.Ok (env : Env) (m : Message) : Prop where
  subject : Word m.subject
  sid : Word m.sid
  reply : ∀ r, m.reply = some r → Word r
  line : m.text.length + 2 ≤ env.inSize
  size : m.body.length ≤ maxInt

/-- The whole message is handed to the one that its subject and subscription name. -/
def Message.result (m : Message) : List Action :=
  match natsRoute m.sid m.subject with
  | none => []
  | some (.verdict rid index) =>
    if m.head.take 12 = ascii "NATS/1.0 503" then [.absent rid index]
    else [.dispatch rid index m.payload]
  | some (.dataset index) => [.dataset index m.payload]
  | some (.jsReply index) => [.jsReply index m.payload]

/-- A message that does not fit the buffer is collected. -/
def Message.collected (env : Env) (acts : List Action) (bigSize : ℕ) (m : Message) : Bool :=
  match natsRoute m.sid m.subject with
  | some (.dataset _) =>
    decide (m.body.length ≤ env.payloadMax) &&
      (decide (m.body.length + 2 ≤ bigSize) || env.palloc acts (m.body.length + 2))
  | _ => false

/-- What is done of an item, and the size of the buffer for large messages. -/
def receive (env : Env) (d : List Action × ℕ) : Item → List Action × ℕ
  | .message m =>
    if m.body.length + 2 ≤ env.inSize then (d.1 ++ m.result, d.2)
    else if m.collected env d.1 d.2 then (d.1 ++ m.result, max d.2 (m.body.length + 2))
    else d
  | .ping => (d.1 ++ [.pong (env.pongFits d.1)], d.2)
  | .pong => (d.1 ++ [.up], d.2)
  | .ok => d

/-! ### Words -/

theorem natsTokens_blank (n : ℕ) (line : Bytes) : natsTokens n (32 :: line) = natsTokens n line := by
  cases n with
  | zero => rfl
  | succ n => rw [natsTokens, natsTokens, List.dropWhile_cons_of_pos (by decide)]

theorem natsTokens_word {n : ℕ} {w rest : Bytes} (hw : Word w)
    (hrest : rest = [] ∨ ∃ t, rest = 32 :: t) :
    natsTokens (n + 1) (w ++ rest) = w :: natsTokens n rest := by
  obtain ⟨hne, hall⟩ := hw
  obtain ⟨c, t, rfl⟩ := List.exists_cons_of_ne_nil hne
  have hc := (hall c List.mem_cons_self).1
  have hword : ∀ x ∈ c :: t, (!isBlank x) = true := by
    intro x hx
    rw [(hall x hx).1]
    rfl
  have hstop : rest.takeWhile (fun c => !isBlank c) = [] ∧
      rest.dropWhile (fun c => !isBlank c) = rest := by
    rcases hrest with rfl | ⟨t, rfl⟩
    · exact ⟨rfl, rfl⟩
    · exact ⟨List.takeWhile_cons_of_neg (by decide), List.dropWhile_cons_of_neg (by decide)⟩
  have hstart : (c :: t ++ rest).dropWhile isBlank = c :: t ++ rest := by
    rw [List.cons_append, List.dropWhile_cons_of_neg (by rw [hc]; exact Bool.false_ne_true)]
  rw [natsTokens, hstart, if_neg (by simp), List.takeWhile_append_of_pos hword,
    List.dropWhile_append_of_pos hword, hstop.1, hstop.2, List.append_nil]

/-- **The words of a line are read back.** -/
theorem natsTokens_words {n : ℕ} {ws : List Bytes} (hws : ∀ w ∈ ws, Word w) (hn : ws.length ≤ n) :
    natsTokens n (ws.flatMap (32 :: ·)) = ws := by
  induction ws generalizing n with
  | nil => cases n <;> rfl
  | cons w ws ih =>
    obtain ⟨n, rfl⟩ : ∃ k, n = k + 1 := ⟨n - 1, by rw [List.length_cons] at hn; omega⟩
    rw [List.length_cons, Nat.add_le_add_iff_right] at hn
    have hrest : ws.flatMap (32 :: ·) = [] ∨ ∃ t, ws.flatMap (32 :: ·) = 32 :: t := by
      cases ws with
      | nil => exact .inl rfl
      | cons v vs => exact .inr ⟨_, rfl⟩
    rw [List.flatMap_cons, List.cons_append, natsTokens_blank,
      natsTokens_word (hws w List.mem_cons_self) hrest,
      ih (fun v hv => hws v (List.mem_cons_of_mem w hv)) hn]

theorem word_decimal (n : ℕ) : Word (decimal n) := by
  refine ⟨decimal_ne_nil n, fun c hc => ?_⟩
  have hne : ∀ b : UInt8, b < 48 → c ≠ b := by
    rintro b hb rfl
    exact absurd (digit_of_mem_decimal hc).1 (UInt8.not_le.2 hb)
  exact ⟨by simp [isBlank, hne 32 (by decide), hne 9 (by decide)], hne 10 (by decide)⟩

section Message

variable {env : Env} {s : Nats} {m : Message} {rest : Bytes}

theorem Message.Ok.words (h : m.Ok env) : ∀ w ∈ m.words, Word w := by
  intro w hw
  simp only [Message.words, List.mem_append, List.mem_cons, List.not_mem_nil, or_false,
    Option.mem_toList] at hw
  rcases hw with (((rfl | rfl) | hr) | hw) | rfl
  · exact h.subject
  · exact h.sid
  · exact h.reply w hr
  · split_ifs at hw
    · rw [List.mem_singleton.1 hw]
      exact word_decimal _
    · cases hw
  · exact word_decimal _

theorem Message.length_words (m : Message) : m.words.length ≤ 5 ∧
    (if m.head ≠ [] then 4 else 3) ≤ m.words.length := by
  have hreply : m.reply.toList.length ≤ 1 := by cases m.reply <;> simp
  simp only [Message.words, List.length_append, List.length_cons, List.length_nil]
  split_ifs
  · simp only [List.length_cons, List.length_nil]
    omega
  · simp only [List.length_nil]
    omega

/-- The line of a message is read as what it says. -/
theorem Message.Ok.natsMsgLine (h : m.Ok env) (collects : Bool) :
    ∃ msg, Bus.natsMsgLine env.inSize env.payloadMax collects ((m.words.flatMap (32 :: ·)).tail)
        (decide (m.head ≠ [])) = some msg ∧
      msg.total = m.body.length ∧ msg.hdr = m.head.length ∧
      msg.routed = natsRoute m.sid m.subject := by
  obtain ⟨hlong, hshort⟩ := m.length_words
  have htokens : natsTokens 5 ((m.words.flatMap (32 :: ·)).tail) = m.words :=
    (natsTokens_blank 5 _).symm.trans (natsTokens_words h.words hlong)
  have hlast : m.words.getD (m.words.length - 1) [] = decimal m.body.length := by
    rw [Message.words, List.length_append, List.length_singleton, Nat.add_sub_cancel,
      List.getD_append_right _ _ _ _ le_rfl, Nat.sub_self]
    rfl
  have hhead : (if decide (m.head ≠ []) = true then atoi (m.words.getD (m.words.length - 2) [])
      else some 0) = some m.head.length := by
    by_cases hnil : m.head = []
    · simp [hnil]
    · have hwords : m.words.getD (m.words.length - 2) [] = decimal m.head.length := by
        cases hr : m.reply <;> simp [Message.words, hr, hnil]
      have hle : m.head.length ≤ maxInt := by
        have hsize := h.size
        rw [Message.body, List.length_append] at hsize
        omega
      rw [if_pos (decide_eq_true hnil), hwords, atoi_decimal hle]
  have hover : ¬ (decide (m.head ≠ []) = true ∧ m.head.length > m.body.length) := by
    rw [Message.body, List.length_append]
    omega
  unfold Bus.natsMsgLine
  rw [htokens]
  dsimp only
  rw [if_neg (by simpa using hshort), hlast, atoi_decimal h.size, hhead]
  dsimp only
  rw [if_neg hover]
  have hroute : natsRoute (m.words.getD 1 []) (m.words.getD 0 []) = natsRoute m.sid m.subject := rfl
  rw [hroute]
  split
  · exact ⟨_, rfl, rfl, rfl, rfl⟩
  · split
    · next hdata => split <;> exact ⟨_, rfl, rfl, rfl, hdata.symm⟩
    · exact ⟨_, rfl, rfl, rfl, rfl⟩

theorem Message.collected_iff {acts : List Action} {bigSize : ℕ} :
    m.collected env acts bigSize = true ↔ (∃ i, natsRoute m.sid m.subject = some (.dataset i)) ∧
      m.body.length ≤ env.payloadMax ∧
      (decide (m.body.length + 2 ≤ bigSize) || env.palloc acts (m.body.length + 2)) = true := by
  unfold Message.collected
  cases natsRoute m.sid m.subject with
  | none => simp
  | some routed => cases routed <;> simp

/-- What the line of a message makes of the parser. -/
structure Message.Announced (env : Env) (m : Message) (s s' : Nats) : Prop where
  state : s'.state = .payload
  acts : s'.acts = s.acts
  big : s'.collect = true → s'.big = []
  total : s'.msg.total = m.body.length
  hdr : s'.msg.hdr = m.head.length
  routed : s'.msg.routed = natsRoute m.sid m.subject
  way : (m.body.length + 2 ≤ env.inSize ∧ s'.skip = 0 ∧ s'.collect = false ∧
      s'.msg.valid = s'.msg.routed.isSome ∧ s'.bigSize = s.bigSize) ∨
    (env.inSize < m.body.length + 2 ∧ s'.skip = 0 ∧ s'.collect = true ∧
      m.collected env s.acts s.bigSize = true ∧ s'.bigSize = max s.bigSize (m.body.length + 2)) ∨
    (env.inSize < m.body.length + 2 ∧ s'.skip = m.body.length + 2 ∧
      m.collected env s.acts s.bigSize = false ∧ s'.bigSize = s.bigSize)

theorem Message.Ok.msgLine (h : m.Ok env) (s : Nats) :
    ∃ s', s.msgLine env ((m.words.flatMap (32 :: ·)).tail) (decide (m.head ≠ [])) = some s' ∧
      m.Announced env s s' := by
  unfold Nats.msgLine
  dsimp only
  generalize hneed : natsTotal (m.words.flatMap (32 :: ·)).tail + 2 = need
  obtain ⟨msg, hmsg, htotal, hhdr, hrouted⟩ :=
    h.natsMsgLine (decide (need ≤ s.bigSize) || env.palloc s.acts need)
  obtain ⟨hsaid, -, hway⟩ := natsMsgLine_cases hmsg
  obtain rfl : need = m.body.length + 2 := by omega
  refine ⟨_, Option.map_eq_some_iff.2 ⟨msg, hmsg, rfl⟩, ?_⟩
  rw [htotal] at hway
  refine ⟨rfl, rfl, fun hc => if_pos hc, htotal, hhdr, hrouted, ?_⟩
  dsimp only
  rw [htotal]
  rcases hway with ⟨hfits, hskip, hvalid⟩ | ⟨hbig, hskip, hvalid, i, hi, hmax, hcollects⟩ |
    ⟨hbig, hskip, hvalid, hnot⟩
  · left
    have hsmall : decide (env.inSize < m.body.length + 2) = false := decide_eq_false (by omega)
    rw [hsmall, Bool.and_false]
    exact ⟨hfits, hskip, rfl, hvalid, rfl⟩
  · right
    left
    rw [hvalid, decide_eq_true hbig]
    exact ⟨hbig, hskip, rfl, collected_iff.2 ⟨⟨i, hrouted ▸ hi⟩, hmax, hcollects⟩, rfl⟩
  · right
    right
    rw [hvalid, Bool.false_and]
    refine ⟨hbig, hskip, ?_, rfl⟩
    by_contra hc
    obtain ⟨⟨i, hi⟩, hmax, hcollects⟩ := collected_iff.1 (Bool.eq_true_of_not_eq_false hc)
    exact hnot i (hrouted.trans hi) ⟨hmax, hcollects⟩

/-- The line of a message is its name and its words. -/
theorem Message.Ok.line_text (h : m.Ok env) (s : Nats) :
    ∃ s', s.line env m.text = some s' ∧ m.Announced env s s' := by
  obtain ⟨s', hs', hsaid⟩ := h.msgLine s
  refine ⟨s', ?_, hsaid⟩
  have hcons : m.words.flatMap (32 :: ·) = 32 :: (m.words.flatMap (32 :: ·)).tail := rfl
  generalize (m.words.flatMap (32 :: ·)).tail = t at hs' hcons
  rw [← hs']
  unfold Message.text Nats.line
  rw [hcons]
  by_cases hnil : m.head = []
  · have hname : ascii "MSG" ++ 32 :: t = ascii "MSG " ++ t := rfl
    have htake : (ascii "MSG " ++ t).take 4 = ascii "MSG " := List.take_left' rfl
    have hdrop : (ascii "MSG " ++ t).drop 4 = t := List.drop_left' rfl
    rw [if_neg (not_not.2 hnil), hname, if_pos htake, hdrop, decide_eq_false (not_not.2 hnil)]
  · have hname : ascii "HMSG" ++ 32 :: t = ascii "HMSG " ++ t := rfl
    have hother : (ascii "HMSG " ++ t).take 4 ≠ ascii "MSG " := by
      rw [List.take_append_of_le_length (by decide)]
      decide
    have htake : (ascii "HMSG " ++ t).take 5 = ascii "HMSG " := List.take_left' rfl
    have hdrop : (ascii "HMSG " ++ t).drop 5 = t := List.drop_left' rfl
    rw [if_pos hnil, hname, if_neg hother, if_pos htake, hdrop, decide_eq_true hnil]

/-- What is handed over of a payload. -/
theorem Message.deliver_eq {msg : NatsMsg} (hhdr : msg.hdr = m.head.length)
    (hrouted : msg.routed = natsRoute m.sid m.subject) : deliver msg m.body = m.result := by
  have hlen : ¬ (msg.hdr ≠ 0 ∧ m.body.length < msg.hdr) := by
    rw [hhdr, Message.body, List.length_append]
    omega
  have hdrop : m.body.drop msg.hdr = m.payload := by
    rw [hhdr, Message.body, List.drop_left]
  have habsent : (12 ≤ msg.hdr ∧ m.body.take 12 = ascii "NATS/1.0 503") ↔
      m.head.take 12 = ascii "NATS/1.0 503" := by
    have htwelve : (ascii "NATS/1.0 503").length = 12 := by decide
    constructor
    · rintro ⟨hle, htake⟩
      rwa [Message.body, List.take_append_of_le_length (hhdr ▸ hle)] at htake
    · intro htake
      have hle : 12 ≤ m.head.length := by
        have hmin := congrArg List.length htake
        rw [List.length_take, htwelve] at hmin
        omega
      exact ⟨hhdr ▸ hle, by rwa [Message.body, List.take_append_of_le_length hle]⟩
  unfold deliver Message.result
  rw [hrouted, hdrop]
  cases natsRoute m.sid m.subject with
  | none => rfl
  | some routed =>
    dsimp only
    rw [if_neg hlen]
    cases routed <;> simp only [habsent]

theorem Message.Ok.text_line (h : m.Ok env) : 10 ∉ m.text ∧ dropCr (m.text ++ [13]) = m.text := by
  constructor
  · intro hmem
    rcases List.mem_append.1 hmem with hname | hwords
    · split_ifs at hname
      · exact absurd hname (by decide)
      · exact absurd hname (by decide)
    · obtain ⟨w, hw, hc⟩ := List.mem_flatMap.1 hwords
      rcases List.mem_cons.1 hc with hc | hc
      · cases hc
      · exact ((h.words w hw).2 10 hc).2 rfl
  · rw [dropCr, List.getLast?_concat, if_pos rfl, List.dropLast_concat]

end Message

/-! ### One item -/

section Items

variable {env : Env} {s : Nats} {rest : Bytes}

/-- A line that fits the buffer is taken. -/
theorem Nats.stream_line {line : Bytes} {s' : Nats} (hs : s.state = .line) (hout : 10 ∉ line)
    (hlen : line.length + 2 ≤ env.inSize) (hline : s.line env (dropCr (line ++ [13])) = some s') :
    (Nats.stream env).feed s (line ++ [13, 10] ++ rest) = (Nats.stream env).feed s' rest := by
  have heq : line ++ [13, 10] ++ rest = (line ++ [13]) ++ 10 :: rest := by simp
  have hout' : (10 : UInt8) ∉ line ++ [13] := by
    rw [List.mem_append, not_or]
    exact ⟨hout, by decide⟩
  have hgood : (Nats.guard env).bad s ((line ++ [13]) ++ 10 :: rest) = false := by
    refine decide_eq_false fun hfull => hfull.2.2 ?_
    have hmem : (10 : UInt8) ∈ ((line ++ [13]) ++ [10]).take env.inSize := by
      rw [List.take_of_length_le (by simp only [List.length_append, List.length_singleton]; omega)]
      exact List.mem_append_right _ (List.mem_singleton_self _)
    have hsplit : (line ++ [13]) ++ 10 :: rest = ((line ++ [13]) ++ [10]) ++ rest := by simp
    rw [hsplit, List.take_append]
    exact List.mem_append_left _ hmem
  have hstep : (Nats.parser env).step s ((line ++ [13]) ++ 10 :: rest) = .go s' rest := by
    have hone : s.oneLine env ((line ++ [13]) ++ 10 :: rest) = _ := oneLine_of_mem hout'
    rw [hline] at hone
    exact (step_line (by simp) hs).trans hone
  rw [heq]
  exact feed_go (Nats.stream env) (((Nats.guard env).step_good hgood).trans hstep)

/-- A payload is taken whole, whatever bytes it has. -/
theorem Message.stream_body (hsends : ∀ acts, env.sendFails acts = false) (rest : Bytes)
    {m : Message} {t : Nats} (h : m.Announced env s t) :
    ∃ s', (Nats.stream env).feed t (m.body ++ [13, 10] ++ rest) = (Nats.stream env).feed s' rest ∧
      s'.state = .line ∧ (s'.acts, s'.bigSize) = receive env (s.acts, s.bigSize) (.message m) := by
  have hb : m.body ++ [13, 10] ++ rest ≠ [] := by simp
  have hlen : (m.body ++ [13, 10]).length = m.body.length + 2 := by simp
  have hdrop : (m.body ++ [13, 10] ++ rest).drop (m.body.length + 2) = rest := List.drop_left' hlen
  have htake : (m.body ++ [13, 10] ++ rest).take m.body.length = m.body := by
    rw [List.append_assoc, List.take_left' rfl]
  have hbytes : ¬ (m.body ++ [13, 10] ++ rest).length < m.body.length + 2 := by
    rw [List.length_append, hlen]
    omega
  have hresult : deliver t.msg m.body = m.result := m.deliver_eq h.hdr h.routed
  have hgo : ∀ {s' : Nats}, t.step env (m.body ++ [13, 10] ++ rest) = .go s' rest →
      (Nats.stream env).feed t (m.body ++ [13, 10] ++ rest) = (Nats.stream env).feed s' rest :=
    fun hstep => feed_go (Nats.stream env)
      (((Nats.guard env).step_good (Nats.full_payload h.state)).trans hstep)
  -- In the buffer, collected beside it, or skipped.
  rcases h.way with ⟨hfits, hskip, hcollect, hvalid, hsize⟩ |
    ⟨hbig, hskip, hcollect, hyes, hsize⟩ | ⟨hbig, hskip, hno, hsize⟩
  · have hacts : (if t.msg.valid = true then deliver t.msg m.body else []) = m.result := by
      rw [hvalid, h.routed, hresult]
      cases hroute : natsRoute m.sid m.subject with
      | none => simp [Message.result, hroute]
      | some routed => rfl
    have hstep : t.step env (m.body ++ [13, 10] ++ rest) =
        .go { t with state := .line, acts := t.acts ++ m.result } rest := by
      rw [Nats.step_buffer hb h.state hskip hcollect,
        Nats.buffered_go (by rw [h.total]; exact hbytes), h.total, hdrop, htake, hacts,
        Nats.actAll_eq hsends]
    refine ⟨_, hgo hstep, rfl, ?_⟩
    dsimp only
    rw [h.acts, hsize, receive, if_pos hfits]
  · have hstep : t.step env (m.body ++ [13, 10] ++ rest) =
        .go { t with
          collect := false
          big := []
          state := .line
          acts := t.acts ++ m.result } rest := by
      have htake' : ((m.body ++ [13, 10] ++ rest).take (m.body.length + 2)).take m.body.length =
          m.body := by
        rw [List.take_left' hlen, List.take_left' rfl]
      rw [Nats.step_collect hb h.state hskip hcollect, Nats.collecting, h.big hcollect, h.total]
      dsimp only [List.length_nil, Nat.sub_zero]
      rw [if_neg hbytes, hdrop, List.nil_append, htake', hresult, Nats.actAll_eq hsends]
    refine ⟨_, hgo hstep, rfl, ?_⟩
    dsimp only
    rw [h.acts, hsize, receive, if_neg (Nat.not_le.2 hbig)]
    exact (if_pos hyes).symm
  · have hstep : t.step env (m.body ++ [13, 10] ++ rest) =
        .go { t with skip := 0, state := .line } rest := by
      have hskip' : t.skip ≠ 0 := by omega
      rw [Nats.step_skip hb h.state hskip', Nats.skipping, hskip, if_neg hbytes, hdrop]
    refine ⟨_, hgo hstep, rfl, ?_⟩
    dsimp only
    rw [h.acts, hsize, receive, if_neg (Nat.not_le.2 hbig)]
    exact (if_neg (by rw [hno]; exact Bool.false_ne_true)).symm

/-- A message is one that the bus can send, and the line of an item fits the buffer. -/
def Item.Ok (env : Env) : Item → Prop
  | .message m => m.Ok env
  | _ => 6 ≤ env.inSize

/-- A short line of the protocol. -/
theorem Nats.stream_short {name : Bytes} {s' : Nats} (hs : s.state = .line) (hsize : 6 ≤ env.inSize)
    (hname : 10 ∉ name ∧ name.length ≤ 4 ∧ dropCr (name ++ [13]) = name)
    (hline : s.line env name = some s') :
    (Nats.stream env).feed s (name ++ [13, 10] ++ rest) = (Nats.stream env).feed s' rest := by
  obtain ⟨hout, hlen, hcr⟩ := hname
  exact stream_line hs hout (by omega) (hcr.symm ▸ hline)

/-- **One item.** -/
theorem Item.stream_item (hsends : ∀ acts, env.sendFails acts = false) (rest : Bytes) {i : Item}
    (hi : i.Ok env) (hs : s.state = .line) :
    ∃ s', (Nats.stream env).feed s (i.encode ++ rest) = (Nats.stream env).feed s' rest ∧
      s'.state = .line ∧ (s'.acts, s'.bigSize) = receive env (s.acts, s.bigSize) i := by
  cases i with
  | message m =>
    obtain ⟨t, hline, hsaid⟩ := Message.Ok.line_text hi s
    obtain ⟨hout, hcr⟩ := Message.Ok.text_line hi
    obtain ⟨s', hbody, hs', hacts⟩ := Message.stream_body hsends rest hsaid
    refine ⟨s', ?_, hs', hacts⟩
    have hsplit : Item.encode (.message m) ++ rest =
        m.text ++ [13, 10] ++ (m.body ++ [13, 10] ++ rest) := by
      simp [Item.encode]
    rw [hsplit, Nats.stream_line hs hout hi.line (by rw [hcr]; exact hline), hbody]
  | ping =>
    have hline : s.line env (ascii "PING") =
        some { s with acts := s.acts ++ [.pong (env.pongFits s.acts)] } :=
      congrArg some (Nats.act_eq hsends s _)
    exact ⟨_, Nats.stream_short hs hi (by decide) hline, hs, rfl⟩
  | pong =>
    have hline : s.line env (ascii "PONG") =
        some { s with pings := 0, acts := s.acts ++ [.up] } := rfl
    exact ⟨_, Nats.stream_short hs hi (by decide) hline, hs, rfl⟩
  | ok =>
    have hline : s.line env (ascii "+OK") = some s := rfl
    exact ⟨_, Nats.stream_short hs hi (by decide) hline, hs, rfl⟩

/-- **All items.** -/
theorem stream_items (hsends : ∀ acts, env.sendFails acts = false) {is : List Item}
    (his : ∀ i ∈ is, i.Ok env) (hs : s.state = .line) :
    ∃ s', (Nats.stream env).feed s (is.flatMap Item.encode) = (Nats.stream env).feed s' [] ∧
      s'.state = .line ∧ (s'.acts, s'.bigSize) = is.foldl (receive env) (s.acts, s.bigSize) := by
  induction is generalizing s with
  | nil => exact ⟨s, rfl, hs, rfl⟩
  | cons i is ih =>
    obtain ⟨t, hone, ht, hacts⟩ :=
      Item.stream_item hsends (is.flatMap Item.encode) (his i List.mem_cons_self) hs
    obtain ⟨s', hall, hs', hacts'⟩ := ih (fun j hj => his j (List.mem_cons_of_mem i hj)) ht
    refine ⟨s', ?_, hs', ?_⟩
    · rw [List.flatMap_cons, hone, hall]
    · rw [hacts', hacts, List.foldl_cons]

end Items

/-- What is done of an item that is taken. -/
def Item.actions : Item → List Action
  | .message m => m.result
  | .ping => [.pong true]
  | .pong => [.up]
  | .ok => []

/-- A message fits the buffer, or is one of a dataset that may be collected. -/
def Item.Taken (env : Env) : Item → Prop
  | .message m => m.body.length + 2 ≤ env.inSize ∨
      (∃ i, natsRoute m.sid m.subject = some (.dataset i)) ∧ m.body.length ≤ env.payloadMax
  | _ => True

theorem foldl_receive {env : Env} {is : List Item} (hpalloc : ∀ acts n, env.palloc acts n = true)
    (hpong : ∀ acts, env.pongFits acts = true) (his : ∀ i ∈ is, i.Taken env)
    (d : List Action × ℕ) :
    (is.foldl (receive env) d).1 = d.1 ++ is.flatMap Item.actions := by
  induction is generalizing d with
  | nil => exact (List.append_nil _).symm
  | cons i is ih =>
    have hone : (receive env d i).1 = d.1 ++ i.actions := by
      cases i with
      | message m =>
        have htaken : m.body.length + 2 ≤ env.inSize ∨ _ := his (.message m) List.mem_cons_self
        rcases htaken with hfits | ⟨hdata, hmax⟩
        · rw [receive, if_pos hfits]
          rfl
        · have hcollected : m.collected env d.1 d.2 = true :=
            Message.collected_iff.2 ⟨hdata, hmax, by rw [hpalloc, Bool.or_true]⟩
          rw [receive, if_pos hcollected]
          split <;> rfl
      | ping =>
        rw [receive, hpong]
        rfl
      | pong => rfl
      | ok => exact (List.append_nil _).symm
    rw [List.foldl_cons, ih fun j hj => his j (List.mem_cons_of_mem i hj), hone, List.flatMap_cons,
      List.append_assoc]

/-- **Messages arrive in order, whole, and once** where no send of the parser fails.  However the stream
of the bus is cut, each message is handed over with exactly its payload, whether it is taken from the
buffer or collected outside it, and one that is too large is dropped without a trace; no byte of a
payload is read as a line. -/
theorem messages_delivered (env : Env) (s : Nats) (is : List Item) (ns : List ℕ)
    (hsize : 0 < env.inSize) (hsends : ∀ acts, env.sendFails acts = false) (hup : s.dropped = false)
    (hs : s.state = .line) (his : ∀ i ∈ is, i.Ok env)
    (hn : (is.flatMap Item.encode).length < ns.length) :
    ∃ c, runFrom (Conn.turn env) (Conn.start s (is.flatMap Item.encode)) ns = c ∧
      c.alive = true ∧ c.unread = [] ∧ c.nats.state = .line ∧
      (c.nats.acts, c.nats.bigSize) = is.foldl (receive env) (s.acts, s.bigSize) ∧
      ((∀ acts n, env.palloc acts n = true) → (∀ acts, env.pongFits acts = true) →
        (∀ i ∈ is, i.Taken env) → c.nats.acts = s.acts ++ is.flatMap Item.actions) := by
  have hfits : s.Fits env := fun hp => by
    rw [hs] at hp
    cases hp
  have houtcome := Conn.run_outcome hsize hsends hup hfits hn
  generalize runFrom (Conn.turn env) (Conn.start s (is.flatMap Item.encode)) ns = c at houtcome ⊢
  obtain ⟨t, hfeed, ht, hacts⟩ := stream_items hsends his hs
  have hwait : (Nats.stream env).feed t [] = .wait t [] true := by
    rw [Nats.stream_feed (Nat.zero_le _),
      show (Nats.parser env).feed t [] = .wait t [] true from feed_wait (Nats.parser env) rfl]
    have hgood : ¬ (Nats.guard env).bad t [] = true := fun hbad => by
      have hfull := of_decide_eq_true hbad
      exact absurd hfull.2.1 (Nat.not_le.2 hsize)
    exact if_neg hgood
  unfold Outcome at houtcome
  rw [hfeed, hwait] at houtcome
  obtain ⟨halive, rfl, hunread⟩ := houtcome
  refine ⟨c, rfl, halive, hunread, ht, hacts, fun hpalloc hpong htaken => ?_⟩
  rw [← foldl_receive hpalloc hpong htaken (s.acts, s.bigSize), ← hacts]

/-- A message of a dataset that is larger than the buffer and looks like lines. -/
def update : Message :=
  ⟨ascii "ds.x", ascii "d3", none, [], ascii "PING\r\nMSG a 1 5\r\n-ERR it\r\n0123456789"⟩

/-- It is collected, byte by byte, and the ping behind it is answered. -/
theorem update_delivered :
    (runFrom (Conn.turn narrow) (Conn.start fresh ([.message update, .ping].flatMap Item.encode))
      (List.replicate 99 1)).nats.acts = [.dataset 3 update.payload, .pong true] := by
  have hok : ∀ i ∈ [Item.message update, .ping], i.Ok narrow := by
    intro i hi
    simp only [List.mem_cons, List.not_mem_nil, or_false] at hi
    rcases hi with rfl | rfl
    · have hshape : (Word update.subject ∧ Word update.sid) ∧ update.text.length + 2 ≤ narrow.inSize ∧
          update.body.length ≤ maxInt := by
        unfold Word
        decide +kernel
      exact ⟨hshape.1.1, hshape.1.2, (fun r hr => by cases hr), hshape.2.1, hshape.2.2⟩
    · exact (show 6 ≤ 32 by norm_num)
  have hlen : ([Item.message update, .ping].flatMap Item.encode).length <
      (List.replicate 99 1).length := by
    decide +kernel
  have hdone : ([Item.message update, .ping].foldl (receive narrow) (fresh.acts, fresh.bigSize)).1 =
      [.dataset 3 update.payload, .pong true] := by
    decide +kernel
  obtain ⟨c, hc, -, -, -, hacts, -⟩ := messages_delivered narrow fresh [.message update, .ping]
    (List.replicate 99 1) (by decide) (fun _ => rfl) rfl rfl hok hlen
  rw [hc, ← hdone, ← hacts]

end Bus
