import PlacitumNode.Lib.Framing
import PlacitumNode.Lib.Machine
import PlacitumNode.Wave.State

/-!
# One direction of a framed connection (`stream/ngx_http_waf_frame.c`)

The buffer of a direction and the loop that takes frames out of it.

* `Conf`, `Dir`: the settings of a direction and its state;
* `ctrlAllowed`: the rate of control frames;
* `Dir.cut`, `Dir.hoist`, `Dir.msgAppend`, `Dir.msgSeal`: the edits made inside the buffer;
* `parseStep`, `parseLoop`: one turn of `ngx_http_waf_frame_parse`, and the loop.

The buffer is kept as its parts: `off` bytes in front of `pos`, `ready` from `pos` to `cleared`,
`rest` from `cleared` to `last`.  The counters that only feed the audit are left out.
-/

namespace Frames

open Octets Framing Waves

/-! ### Settings and state -/

/-- `NGX_HTTP_WAF_FRAME_INSPECT`, `_JOURNAL` and `_PASS` -/
inductive Mode
  | inspect
  | journal
  | pass
  deriving DecidableEq

/-- What the audit override of the connection says. -/
inductive AuditSet
  | unset
  | on
  | off
  deriving DecidableEq

/-- `close_code`, `close_reason` and `close_why` -/
structure Close where
  code : ℕ
  reason : Bytes
  why : String
  deriving DecidableEq

/-- `ngx_http_waf_frame_set_close` keeps at most `NGX_HTTP_WAF_WS_REASON_MAX` bytes. -/
def closeOf (code : ℕ) (reason : Bytes) (why : String) : Close := ⟨code, reason.take 123, why⟩

def closeProtocol (reason why : String) : Close := closeOf 1002 (ascii reason) why

def closeTooBig (reason why : String) : Close := closeOf 1009 (ascii reason) why

def closeInternal (reason why : String) : Close := closeOf 1011 (ascii reason) why

/-- The settings of the location that a direction reads.  No allocation gives 2^63 bytes, so
`waf_body_limit`, two headers and the slack stay below that; `rewriteClose` is what
`ngx_http_waf_frame_deny_close` sets when a rewrite fails. -/
structure Conf where
  frameReassemble : Bool
  bodyLimit : ℕ
  bodyLimit_lt : bodyLimit + 36 < 2 ^ 63
  bodyLimitPolicy : Policy
  exceptionBody : Policy
  rewriteClose : Close
  sendBodyStore : Bool
  frameControlRate : ℕ
  auditFramesAll : Bool
  auditFramesSample : ℕ

/-- How an inspection ended: the frame went on as it was, another went in its place, or it was
refused; `released` is what the direction had let through by then. -/
inductive Outcome
  | allowed (frame : Bytes)
  | replaced (frame new : Bytes)
  | refused (frame released : Bytes)
  deriving DecidableEq

/-- `ngx_http_waf_frame_dir_t`; the last four fields are the history of the direction, which
nothing in the code reads. -/
structure Dir where
  mode : Mode
  masked : Bool
  size : ℕ
  off : ℕ
  ready : Bytes
  rest : Bytes
  held : ℕ
  skip : ℤ
  drop : ℕ
  out : Bytes
  seq : ℕ
  opcode : Fin 16
  fin : Bool
  mask : Key
  msg : Bool
  msgSkip : Bool
  msgOpcode : Fin 16
  msgHlen : ℕ
  msgLen : ℕ
  msgKey : Key
  ctrlTokens : ℕ
  ctrlLast : ℕ
  ctrlDropped : ℕ
  received : Bytes
  sent : Bytes
  handed : List Bytes
  log : List Outcome

/-- `NGX_HTTP_WAF_WS_HEADER_MAX` -/
def headerMax : ℕ := 14

/-- `NGX_HTTP_WAF_FRAME_SLACK` -/
def slack : ℕ := 8

/-- `NGX_HTTP_WAF_FRAME_BUF_MIN` -/
def bufMin : ℕ := 4096

/-- `NGX_HTTP_WAF_FRAME_PASS_BUF` -/
def passBuf : ℕ := 16384

/-- The buffer that `ngx_http_waf_frame_dir_init` asks for. -/
def bufSize (cf : Conf) (mode : Mode) (rest : ℕ) : ℕ :=
  max bufMin (if mode = .pass then max passBuf (rest + slack)
    else cf.bodyLimit + 2 * headerMax + slack)

/-- `ngx_http_waf_frame_dir_init`: the bytes that came with the handshake have to fit. -/
def dirInit (cf : Conf) (mode : Mode) (masked : Bool) (seed : Bytes) : Option Dir :=
  if bufSize cf mode seed.length < seed.length then none
  else some
    { mode := mode, masked := masked, size := bufSize cf mode seed.length, off := 0, ready := []
      rest := seed, held := 0, skip := 0, drop := 0, out := [], seq := 0, opcode := 0, fin := false
      mask := fun _ => 0, msg := false, msgSkip := false, msgOpcode := 0, msgHlen := 0, msgLen := 0
      msgKey := fun _ => 0, ctrlTokens := 0, ctrlLast := 0, ctrlDropped := 0
      received := seed, sent := [], handed := [], log := [] }

/-! ### Control frames -/

/-- The tokens at `now`: a full bucket on the first frame, then what the time since the last refill
adds. -/
def ctrlRefill (rate now : ℕ) (d : Dir) : Dir :=
  if d.ctrlLast = 0 then { d with ctrlTokens := rate, ctrlLast := now }
  else
    let ms := Machine.signed (now - d.ctrlLast)
    let add := if 0 < ms then Machine.perMille rate ms.toNat else 0
    if add ≠ 0 then
      { d with ctrlTokens := min ((d.ctrlTokens + add) % 2 ^ 64) rate, ctrlLast := now }
    else d

/-- One frame takes a thousand tokens. -/
def ctrlTake (d : Dir) : Bool × Dir :=
  if 1000 ≤ d.ctrlTokens then (true, { d with ctrlTokens := d.ctrlTokens - 1000 })
  else (false, { d with ctrlDropped := d.ctrlDropped + 1 })

/-- `ngx_http_waf_frame_ctrl_allowed` -/
def ctrlAllowed (cf : Conf) (now : ℕ) (d : Dir) : Bool × Dir :=
  if cf.frameControlRate = 0 then (true, d) else ctrlTake (ctrlRefill cf.frameControlRate now d)

/-! ### The buffer -/

/-- The bytes of the message that waits for its last fragment. -/
def Dir.hold (d : Dir) : ℕ := if d.msg then d.msgHlen + d.msgLen else 0

/-- The bytes from `p` to `last`. -/
def Dir.view (d : Dir) : Bytes := d.rest.drop d.hold

/-- `d->cleared += n` -/
def Dir.advance (d : Dir) (n : ℕ) : Dir :=
  { d with ready := d.ready ++ d.rest.take n, rest := d.rest.drop n }

/-- `ngx_http_waf_frame_cut`: the `n` bytes at `p` are removed. -/
def Dir.cut (d : Dir) (n : ℕ) : Dir :=
  { d with rest := d.rest.take d.hold ++ d.view.drop n }

/-- `ngx_http_waf_frame_hoist`: the `n` bytes at `p` go in front of the held message. -/
def Dir.hoist (d : Dir) (n : ℕ) : Dir :=
  { d with rest := d.view.take n ++ d.rest.take d.hold ++ d.view.drop n }

/-- `ngx_http_waf_frame_msg_append`: the payload of the continuation at `p` goes under the key of
the message, its header is taken out. -/
def Dir.msgAppend (d : Dir) (h : Header) : Dir :=
  let src := (d.view.drop h.hlen).take h.plen
  let dst :=
    if d.masked then maskAt d.msgKey d.msgLen (maskAt (readKey (d.view.drop (h.hlen - 4))) 0 src)
    else src
  { d with rest := d.rest.take d.hold ++ dst ++ d.view.drop h.size, msgLen := d.msgLen + h.plen }

/-- The header that `ngx_http_waf_frame_msg_seal` and `ngx_http_waf_frame_swap` write. -/
def leastHead (d : Dir) (fin : Bool) (opcode : Fin 16) (key : Key) (len : ℕ) : Bytes :=
  headBytes fin 0 opcode (Form.least len) (if d.masked then some key else none) len

/-- `ngx_http_waf_frame_msg_seal`: the held message becomes one frame; its header length comes
back. -/
def Dir.msgSeal (d : Dir) (fin : Bool) : Dir × ℕ :=
  let head := leastHead d fin d.msgOpcode d.msgKey d.msgLen
  ({ d with rest := head ++ d.rest.drop d.msgHlen, msg := false }, head.length)

/-! ### The parser -/

/-- What one turn of the loop ends with: `NGX_AGAIN`, another turn, or `NGX_OK` after a close, a
journal entry or an inspection of the payload under the key. -/
inductive Scan
  | again (d : Dir)
  | next (d : Dir)
  | close (d : Dir) (why : Close)
  | journal (d : Dir) (payload : Bytes) (key : Option Key)
  | inspect (d : Dir) (payload : Bytes) (key : Option Key)

/-- Whether fragments are put together. -/
def Conf.assembles (cf : Conf) (d : Dir) : Bool := cf.frameReassemble && d.mode == .inspect

def Dir.counted (d : Dir) : Dir := { d with seq := d.seq + 1 }

/-- The whole frame is passed on, whenever its bytes come: `d->skip = (off_t) (hlen + plen)`. -/
def Dir.passOn (d : Dir) (h : Header) : Dir :=
  { d with seq := d.seq + 1, skip := Machine.signed h.size }

/-- The rest of a message that cannot be inspected goes on as it comes, after the fragments already
held. -/
def Dir.giveUp (d : Dir) (assemble : Bool) (h : Header) : Dir :=
  if d.msg then
    let (d, hlen) := d.msgSeal false
    { d.advance (hlen + d.msgLen) with msgSkip := !h.fin }
  else if assemble && !h.fin && h.opcode != 0 then { d with msgSkip := true }
  else d

/-- `ngx_http_waf_frame_journal_wanted` -/
def journalWanted (cf : Conf) (set : AuditSet) (d : Dir) : Bool :=
  match set with
  | .on => true
  | .off => false
  | .unset =>
    cf.auditFramesAll &&
      (decide (cf.auditFramesSample ≤ 1) || decide (d.seq % cf.auditFramesSample = 0))

/-- The control frame is let through, in front of a held message. -/
def Dir.letControl (d : Dir) (n : ℕ) : Dir :=
  (if d.hold ≠ 0 then d.hoist n else d).advance n

/-- The branch for opcodes from 8 on. -/
def parseControl (cf : Conf) (now : ℕ) (h : Header) (d : Dir) : Scan :=
  if !h.fin ∨ 125 < h.plen ∨ (h.opcode ≠ 8 ∧ h.opcode ≠ 9 ∧ h.opcode ≠ 10) then
    .close d (closeProtocol "bad control frame" "malformed control frame")
  else if d.view.length < h.size then .again d
  else if h.opcode = 8 then .next (d.counted.letControl h.size)
  else
    match ctrlAllowed cf now d.counted with
    | (true, d) => .next (d.letControl h.size)
    | (false, d) => .next (d.cut h.size)

/-- The key of the frame at `p`. -/
def Dir.keyAt (d : Dir) (h : Header) : Option Key :=
  if h.masked then some (readKey (d.view.drop (h.hlen - 4))) else none

/-- The payload of the frame at `p`, as it came. -/
def Dir.payloadAt (d : Dir) (h : Header) : Bytes := (d.view.drop h.hlen).take h.plen

/-- The first `n` bytes are held while they are inspected as one frame. -/
def Dir.holding (d : Dir) (n : ℕ) (opcode : Fin 16) (fin : Bool) : Dir :=
  { d with held := n, opcode := opcode, fin := fin }

/-- The first fragment of a message waits for the others. -/
def Dir.msgStart (d : Dir) (h : Header) : Dir :=
  { d with
    msg := true, msgOpcode := h.opcode, msgHlen := h.hlen, msgLen := h.plen
    msgKey := (d.keyAt h).getD d.msgKey }

/-- The message has all its fragments: it becomes one frame and is inspected. -/
def Dir.msgWhole (d : Dir) (masked : Bool) : Scan :=
  let (d, hlen) := d.msgSeal true
  .inspect (d.holding (hlen + d.msgLen) d.msgOpcode true) ((d.rest.drop hlen).take d.msgLen)
    (if masked then some d.msgKey else none)

/-- A whole data frame at `p` that is to be looked at. -/
def parseWhole (cf : Conf) (set : AuditSet) (h : Header) (d : Dir) : Scan :=
  if d.mode = .journal then
    if !journalWanted cf set d then .next (d.advance h.size)
    else .journal (d.holding h.size h.opcode h.fin) (d.payloadAt h) (d.keyAt h)
  else if cf.assembles d ∧ !h.fin ∧ h.opcode ≠ 0 then .next (d.msgStart h)
  else if d.msg then
    if !h.fin then .next (d.msgAppend h) else (d.msgAppend h).msgWhole h.masked
  else .inspect (d.holding h.size h.opcode h.fin) (d.payloadAt h) (d.keyAt h)

/-- The length that is compared with the limit. -/
def Dir.total (d : Dir) (h : Header) : ℕ := h.plen + if d.msg then d.msgLen else 0

/-- The branch for the data opcodes, in the modes that look at frames. -/
def parseData (cf : Conf) (set : AuditSet) (h : Header) (d : Dir) : Scan :=
  if cf.assembles d ∧ h.opcode = 0 ∧ d.msgSkip then
    .next ({ d with msgSkip := !h.fin }.passOn h)
  else if cf.assembles d ∧ h.opcode = 0 ∧ !d.msg then
    .close d (closeProtocol "unexpected continuation" "continuation frame without a message")
  else if cf.assembles d ∧ h.opcode ≠ 0 ∧ (d.msg ∨ d.msgSkip) then
    .close d (closeProtocol "message interrupted" "data frame inside a fragmented message")
  else if cf.bodyLimit < d.total h then
    if cf.bodyLimitPolicy = .block ∧ d.mode = .inspect then
      .close d (if d.msg then closeTooBig "message too big" "message exceeds waf_body_limit"
        else closeTooBig "frame too big" "frame exceeds waf_body_limit")
    else .next ((d.giveUp (cf.assembles d) h).passOn h)
  else if h.rsv ≠ 0 then .next ((d.giveUp (cf.assembles d) h).passOn h)
  else if d.view.length < h.size then .again d
  else parseWhole cf set h d.counted

/-- The frame whose header stands at `p`. -/
def parseFrame (cf : Conf) (now : ℕ) (set : AuditSet) (h : Header) (d : Dir) : Scan :=
  if 2 ^ 63 ≤ h.plen then
    .close d (closeProtocol "invalid length" "frame length has the top bit set")
  else if h.masked ≠ d.masked then
    .close d (if d.masked then closeProtocol "unmasked frame" "client frame is not masked"
      else closeProtocol "masked frame" "upstream frame is masked")
  else if 8 ≤ h.opcode then parseControl cf now h d
  else if 2 < h.opcode then .close d (closeProtocol "reserved opcode" "reserved data opcode")
  else if d.mode = .pass then .next (d.passOn h)
  else parseData cf set h d

/-- The bytes of a frame that is passed on. -/
def Dir.skipOver (d : Dir) : Dir :=
  let take := min d.skip d.view.length
  { d.advance take.toNat with skip := d.skip - take }

/-- One turn of the loop of `ngx_http_waf_frame_parse`. -/
def parseStep (cf : Conf) (now : ℕ) (set : AuditSet) (d : Dir) : Scan :=
  if 0 < d.skip then
    let d := d.skipOver
    if 0 < d.skip then .again d else .next d
  else
    match readHeader d.view with
    | none => .again d
    | some h => parseFrame cf now set h d

/-- The loop, for at most `n` turns. -/
def parseLoop (cf : Conf) (now : ℕ) (set : AuditSet) : ℕ → Dir → Option Scan
  | 0, _ => none
  | n + 1, d =>
    match parseStep cf now set d with
    | .next d => parseLoop cf now set n d
    | scan => some scan

/-- Enough turns for every loop that returns, as each pair of turns takes a byte. -/
def Dir.turns (d : Dir) : ℕ := 2 * d.rest.length + 2

end Frames
