import PlacitumNode.Frame.Room
import PlacitumNode.Frame.Termination

/-!
# The bounds of the buffer

A header that `ngx_http_waf_frame_msg_seal` writes can be longer than the one it replaces.  The slack of
the buffer is as long as the longest growth, but nothing keeps it free: the bytes that came with the
handshake may fill the buffer to its end.

* `Dir.InBounds`: what a direction holds lies in its buffer;
* `Roomy`: the growth that may still come fits, in a direction that is `Balanced`;
* `roomy_moves`: this is kept by all that can happen to the direction;
* `never_overruns_iff`: the bounds hold in every state that is reached exactly when the direction is
  balanced;
* `overrun_of_limit`: otherwise there is a seed whose first message is written past the end.

Each part of a buffer has its own length here, so that the pointers are in order by construction; an
`advance` stands for the pointer arithmetic as long as it does not ask for more than there is, which is
what the first three bounds say of the message, of the frame under inspection and of the frame dropped.
-/

namespace Frames

open Octets Framing Waves

/-- What is held lies before `last`, and `last` in the buffer. -/
structure Dir.InBounds (d : Dir) (busy : Bool) : Prop where
  message : d.hold ≤ d.rest.length
  frame : busy = true → d.held ≤ d.rest.length
  dropped : d.drop ≤ d.rest.length
  last : d.last ≤ d.size

/-- The header of a sealed message of `n` bytes. -/
def leastLen (masked : Bool) (n : ℕ) : ℕ := 2 + (Form.least n).width + if masked then 4 else 0

/-- The headers a message swallows are as long as its own can grow: the direction is the client's, puts
no fragments together, or has no messages of more than 65535 bytes. -/
def Balanced (cf : Conf) (mode : Mode) (masked : Bool) : Prop :=
  masked = true ∨ ¬(cf.frameReassemble = true ∧ mode = .inspect) ∨ cf.bodyLimit ≤ 65535

/-! ### The growth of a header -/

theorem length_leastHead (d : Dir) (fin : Bool) (opcode : Fin 16) (key : Key) (n : ℕ) :
    (leastHead d fin opcode key n).length = leastLen d.masked n := by
  unfold leastHead leastLen
  rw [length_headBytes]
  cases d.masked <;> rfl

theorem least_width (n : ℕ) :
    (Form.least n).width = if n < 126 then 0 else if n ≤ 65535 then 2 else 8 := by
  unfold Form.least
  split_ifs <;> rfl

theorem leastLen_le (masked : Bool) (n : ℕ) :
    leastLen masked n ≤ (2 + if masked then 4 else 0) + slack := by
  have hw : (Form.least n).width ≤ 8 := by cases Form.least n <;> decide
  unfold leastLen slack
  omega

/-- The form of a header that was read holds its length. -/
theorem fits_of_readHeader {bs : Bytes} {h : Header} (hr : readHeader bs = some h)
    (hp : h.plen < 2 ^ 63) : h.form.Fits h.plen := by
  obtain ⟨b0, b1, t, -, rfl, -⟩ := readHeader_eq_some.1 hr
  exact fits_headerOf hp

/-- The least form of a length is no longer than one that holds it. -/
theorem least_width_le {f : Form} {n : ℕ} (h : f.Fits n) : (Form.least n).width ≤ f.width := by
  rw [least_width]
  cases f <;> simp only [Form.Fits] at h <;> split_ifs <;> simp only [Form.width] <;> omega

/-- What a message grows by is paid by the header of the fragment that is put to it. -/
theorem least_width_add {masked : Bool} {f : Form} {n m limit : ℕ} (h : f.Fits m)
    (hs : masked = true ∨ limit ≤ 65535) (hl : n + m ≤ limit) :
    (Form.least (n + m)).width ≤
      (Form.least n).width + (2 + f.width + if masked then 4 else 0) := by
  have hm := least_width_le h
  rw [least_width] at hm
  rw [least_width, least_width]
  rcases hs with rfl | hs
  · rw [if_pos rfl]
    split_ifs at hm ⊢ <;> omega
  · split_ifs at hm ⊢ <;> omega

/-! ### The invariant -/

/-- What the moves keep: the bounds, and room for the header that seals the message. -/
structure Roomy (cf : Conf) (d : Dir) (busy : Bool) : Prop where
  message : d.hold ≤ d.rest.length
  frame : busy = true → d.held ≤ d.rest.length ∧ d.msg = false ∧ d.mode ≠ .pass ∧ d.drop = 0
  dropped : d.drop ≤ d.rest.length ∧ (d.drop ≠ 0 → d.msg = false)
  last : d.last ≤ d.size
  growth : d.msg = true → d.last + leastLen d.masked d.msgLen ≤ d.size + d.msgHlen
  opened : d.msg = true → cf.assembles d = true ∧ d.skip ≤ 0 ∧ d.msgSkip = false ∧
    d.msgLen ≤ cf.bodyLimit ∧ (2 + if d.masked then 4 else 0) ≤ d.msgHlen

variable {cf : Conf} {d e : Dir} {h : Header} {busy : Bool}

theorem Roomy.inBounds (hr : Roomy cf d busy) : d.InBounds busy :=
  ⟨hr.message, fun hb => (hr.frame hb).1, hr.dropped.1, hr.last⟩

theorem hold_noMessage (hm : d.msg = false) : d.hold = 0 := by
  unfold Dir.hold
  rw [hm]
  rfl

/-- Without a message only the bounds are left. -/
theorem roomy_quiet (hd : d.drop ≤ d.rest.length) (hm : d.msg = false) (hl : d.last ≤ d.size) :
    Roomy cf d false where
  message := by
    rw [hold_noMessage hm]
    exact Nat.zero_le _
  frame hb := by cases hb
  dropped := ⟨hd, fun _ => hm⟩
  last := hl
  growth hmsg := by
    rw [hm] at hmsg
    cases hmsg
  opened hmsg := by
    rw [hm] at hmsg
    cases hmsg

theorem roomy_idle (hd : d.drop = 0) (hm : d.msg = false) (hl : d.last ≤ d.size) :
    Roomy cf d false :=
  roomy_quiet (hd.trans_le (Nat.zero_le _)) hm hl

theorem noMessage_of_mode (hr : Roomy cf d busy) (hm : d.mode ≠ .inspect) : d.msg = false := by
  by_contra hmsg
  have ha := (hr.opened (by simpa using hmsg)).1
  exact hm (inspect_of_assembles ha)

theorem last_advance (d : Dir) (n : ℕ) : (d.advance n).last = d.last := by
  simp only [Dir.last, Dir.advance, List.length_append, List.length_take, List.length_drop]
  omega

theorem length_view (d : Dir) : d.view.length = d.rest.length - d.hold := List.length_drop

/-! ### The turns of the parser -/

theorem roomy_skipOver (hr : Roomy cf d false) (hd : d.drop = 0) (hs : 0 < d.skip) :
    Roomy cf d.skipOver false := by
  have hm : d.msg = false := by
    by_contra hmsg
    have := (hr.opened (by simpa using hmsg)).2.1
    omega
  exact roomy_idle hd hm ((last_advance d _).trans_le hr.last)

theorem length_letControl (n : ℕ) (hn : n ≤ d.view.length) :
    (d.letControl n).rest.length = d.rest.length - n ∧ (d.letControl n).last = d.last := by
  have hv := length_view d
  unfold Dir.letControl
  split_ifs
  · have hlen : (d.hoist n).rest.length = d.rest.length := by
      simp only [Dir.hoist, List.length_append, List.length_take, List.length_drop]
      omega
    rw [last_advance]
    refine ⟨?_, ?_⟩
    · simp only [Dir.advance, List.length_drop, hlen]
    · rw [Dir.last, hlen]
      rfl
  · rw [last_advance]
    exact ⟨by simp only [Dir.advance, List.length_drop], rfl⟩

/-- A turn that changes no more than the bytes behind the message and the counters. -/
theorem Roomy.shrinks (hr : Roomy cf d false) (hd : d.drop = 0) (hk : Keeps d e)
    (hrest : d.hold ≤ e.rest.length) (hl : e.last ≤ d.last) (hmsg : e.msg = d.msg)
    (hlen : e.msgLen = d.msgLen) (hhlen : e.msgHlen = d.msgHlen) (hskip : e.skip = d.skip)
    (hms : e.msgSkip = d.msgSkip) : Roomy cf e false where
  message := by
    have hhold : e.hold = d.hold := by simp only [Dir.hold, hmsg, hlen, hhlen]
    rw [hhold]
    exact hrest
  frame hb := by cases hb
  dropped := by
    rw [hk.drop, hd]
    exact ⟨Nat.zero_le _, fun h => absurd rfl h⟩
  last := by
    rw [hk.size]
    exact hl.trans hr.last
  growth hm := by
    have := hr.growth (hmsg ▸ hm)
    rw [hk.masked, hk.size, hlen, hhlen]
    omega
  opened hm := by
    rw [assembles_congr hk.mode, hskip, hms, hlen, hhlen, hk.masked]
    exact hr.opened (hmsg ▸ hm)

/-- A message that is sealed has room for its header. -/
theorem length_msgSeal (hr : Roomy cf d false) (hm : d.msg = true) (fin : Bool) :
    (d.msgSeal fin).2 = leastLen d.masked d.msgLen ∧ (d.msgSeal fin).1.last ≤ d.size ∧
      leastLen d.masked d.msgLen + d.msgLen ≤ (d.msgSeal fin).1.rest.length := by
  have hhead := length_leastHead d fin d.msgOpcode d.msgKey d.msgLen
  have hhold : d.msgHlen + d.msgLen ≤ d.rest.length := by
    have := hr.message
    rwa [Dir.hold, hm] at this
  have hrest : (d.msgSeal fin).1.rest.length =
      leastLen d.masked d.msgLen + (d.rest.length - d.msgHlen) := by
    simp only [Dir.msgSeal, List.length_append, List.length_drop, hhead]
  have hgrowth := hr.growth hm
  refine ⟨hhead, ?_, by omega⟩
  have hlast : (d.msgSeal fin).1.last = d.off + d.ready.length + (d.msgSeal fin).1.rest.length := rfl
  simp only [Dir.last] at hgrowth
  omega

theorem giveUp_noMessage (assemble : Bool) (h : Header) (hm : d.msg = false) :
    (d.giveUp assemble h).msg = false ∧ (d.giveUp assemble h).last = d.last := by
  unfold Dir.giveUp
  rw [if_neg (by simp [hm])]
  split_ifs
  · exact ⟨hm, rfl⟩
  · exact ⟨hm, rfl⟩

theorem passOn_parts (d : Dir) (h : Header) : (d.passOn h).msg = d.msg ∧
    (d.passOn h).off = d.off ∧ (d.passOn h).ready = d.ready ∧ (d.passOn h).rest = d.rest := by
  unfold Dir.passOn
  generalize Machine.signed h.size = n
  exact ⟨rfl, rfl, rfl, rfl⟩

/-- A frame that is passed on has taken nothing yet. -/
theorem roomy_passOn (hd : d.drop = 0) (hm : d.msg = false) (hl : d.last ≤ d.size) (h : Header) :
    Roomy cf (d.passOn h) false := by
  have hk := keeps_passOn d h
  obtain ⟨hmsg, hoff, hready, hrest⟩ := passOn_parts d h
  generalize d.passOn h = e at hk hmsg hoff hready hrest ⊢
  refine roomy_idle (hk.drop.trans hd) (hmsg.trans hm) ?_
  rw [Dir.last, hoff, hready, hrest, hk.size]
  exact hl

theorem roomy_giveUp (hr : Roomy cf d false) (hd : d.drop = 0) (assemble : Bool) (h : Header) :
    Roomy cf ((d.giveUp assemble h).passOn h) false := by
  have hk := keeps_giveUp d assemble h
  have hgone : (d.giveUp assemble h).msg = false ∧ (d.giveUp assemble h).last ≤ d.size := by
    cases hm : d.msg with
    | false =>
      obtain ⟨h₁, h₂⟩ := giveUp_noMessage assemble h hm
      exact ⟨h₁, h₂.trans_le hr.last⟩
    | true =>
      unfold Dir.giveUp
      rw [if_pos hm]
      exact ⟨rfl, (last_advance (d.msgSeal false).1 _).trans_le (length_msgSeal hr hm false).2.1⟩
  exact roomy_passOn (hk.drop.trans hd) hgone.1 (hk.size ▸ hgone.2) h

/-- The first fragment of a message. -/
theorem roomy_start (hr : Roomy cf d false) (hd : d.drop = 0) (hh : At d h) (hp : Placed cf d h)
    (hl : d.total h ≤ cf.bodyLimit) (hv : h.size ≤ d.view.length) (ha : cf.assembles d = true)
    (hc : h.opcode ≠ 0) : Roomy cf (d.counted.msgStart h) false := by
  obtain ⟨hm, hms⟩ := (hp ha).2 hc
  have hview := length_view d
  rw [hold_noMessage hm] at hview
  have hleast : leastLen d.masked h.plen ≤ h.hlen := by
    have hw := least_width_le (fits_of_readHeader hh.read hh.short)
    unfold leastLen Header.hlen
    rw [hh.mask]
    omega
  have htotal : d.total h = h.plen := by
    unfold Dir.total
    rw [hm]
    rfl
  refine ⟨?_, fun hb => (by cases hb), ⟨?_, fun hne => absurd hd hne⟩, hr.last, fun _ => ?_, fun _ => ?_⟩
  · change h.hlen + h.plen ≤ d.rest.length
    have hsize : h.size = h.hlen + h.plen := rfl
    omega
  · change d.drop ≤ d.rest.length
    omega
  · have hlast := hr.last
    change d.last + leastLen d.masked h.plen ≤ d.size + h.hlen
    omega
  · refine ⟨ha, hh.skip, hms, ?_, ?_⟩
    · change h.plen ≤ cf.bodyLimit
      omega
    · change (2 + if d.masked then 4 else 0) ≤ h.hlen
      unfold Header.hlen
      rw [hh.mask]
      omega

/-- The header of a fragment is taken out. -/
theorem rest_msgAppend (hh : d.hold ≤ d.rest.length) (hv : h.size ≤ d.view.length) :
    (d.counted.msgAppend h).rest.length + h.hlen = d.rest.length := by
  have hview := length_view d
  have hsize : h.size = h.hlen + h.plen := rfl
  have hsrc : ((d.counted.view.drop h.hlen).take h.plen).length = h.plen := by
    rw [List.length_take, List.length_drop, show d.counted.view.length = d.view.length from rfl]
    omega
  have hheld : (d.rest.take d.hold).length = d.hold := by
    rw [List.length_take]
    omega
  change (d.rest.take d.hold ++ (if d.masked then _ else _) ++ d.view.drop h.size).length + _ = _
  rw [List.length_append, List.length_append, List.length_drop, hheld]
  split_ifs
  · rw [length_maskAt, length_maskAt, hsrc]
    omega
  · rw [hsrc]
    omega

/-- The next fragment of a message: its header makes room for what the header of the message grows
by. -/
theorem roomy_append (hs : Balanced cf d.mode d.masked) (hr : Roomy cf d false) (hd : d.drop = 0)
    (hh : At d h) (hl : d.total h ≤ cf.bodyLimit) (hv : h.size ≤ d.view.length) (hm : d.msg = true) :
    Roomy cf (d.counted.msgAppend h) false := by
  obtain ⟨ha, hskip, hms, -, hhlen⟩ := hr.opened hm
  have hview := length_view d
  have hmessage := hr.message
  have hhold : d.hold = d.msgHlen + d.msgLen := by
    unfold Dir.hold
    rw [hm]
    rfl
  have hsize : h.size = h.hlen + h.plen := rfl
  have htotal : d.msgLen + h.plen ≤ cf.bodyLimit := by
    unfold Dir.total at hl
    rw [hm] at hl
    simp only [if_true] at hl
    omega
  have hbalanced : d.masked = true ∨ cf.bodyLimit ≤ 65535 := by
    simp only [Conf.assembles, Bool.and_eq_true, beq_iff_eq] at ha
    rcases hs with hs | hs | hs
    · exact .inl hs
    · exact absurd ha hs
    · exact .inr hs
  have hgrow : leastLen d.masked (d.msgLen + h.plen) ≤ leastLen d.masked d.msgLen + h.hlen := by
    have hw := least_width_add (fits_of_readHeader hh.read hh.short) hbalanced htotal
    unfold leastLen Header.hlen
    rw [hh.mask]
    omega
  have hrest := rest_msgAppend hmessage hv
  have hlast : (d.counted.msgAppend h).last + h.hlen = d.last := by
    change d.off + d.ready.length + (d.counted.msgAppend h).rest.length + h.hlen
      = d.off + d.ready.length + d.rest.length
    omega
  have hgrowth := hr.growth hm
  have hlast' := hr.last
  refine ⟨?_, fun hb => (by cases hb), ⟨?_, fun hne => absurd hd hne⟩, ?_, fun _ => ?_, fun _ => ?_⟩
  · have hhold' : (d.counted.msgAppend h).hold = d.msgHlen + (d.msgLen + h.plen) := by
      unfold Dir.hold
      rw [show (d.counted.msgAppend h).msg = true from hm]
      rfl
    omega
  · change d.drop ≤ _
    omega
  · change _ ≤ d.size
    omega
  · change _ + leastLen d.masked (d.msgLen + h.plen) ≤ d.size + d.msgHlen
    omega
  · exact ⟨ha, hskip, hms, htotal, hhlen⟩

/-! ### All turns -/

/-- A frame that is to be inspected lies in the buffer. -/
theorem roomy_seal (hr : Roomy cf d false) (hd : d.drop = 0) (hm : d.msg = true)
    (n : ℕ) (o : Fin 16) : Roomy cf ((d.msgSeal true).1.holding n o true) false ∧
      (d.msgSeal true).2 + d.msgLen ≤ (d.msgSeal true).1.rest.length := by
  obtain ⟨hhead, hlast, hheld⟩ := length_msgSeal hr hm true
  exact ⟨roomy_idle hd rfl hlast, by omega⟩

theorem roomy_turn (hs : Balanced cf d.mode d.masked) (hr : Roomy cf d false) (hd : d.drop = 0)
    {sc : Scan} (ho : ParseOut cf d sc) : Roomy cf sc.dir false ∧
      ∀ e p k, sc = .inspect e p k → e.held ≤ e.rest.length ∧ e.msg = false := by
  -- One case for each way out of `parseStep`; only a frame to inspect is held.
  cases ho with
  | skipMore hskip => exact ⟨roomy_skipOver hr hd hskip, fun _ _ _ h => by cases h⟩
  | skipDone hskip => exact ⟨roomy_skipOver hr hd hskip, fun _ _ _ h => by cases h⟩
  | noHeader => exact ⟨hr, fun _ _ _ h => by cases h⟩
  | close => exact ⟨hr, fun _ _ _ h => by cases h⟩
  | controlShort => exact ⟨hr, fun _ _ _ h => by cases h⟩
  | dataShort => exact ⟨hr, fun _ _ _ h => by cases h⟩
  | @control h t l hh ho hp ha =>
    refine ⟨?_, fun _ _ _ h => by cases h⟩
    obtain ⟨hrest, hlast⟩ := @length_letControl (d.tally t l d.ctrlDropped) h.size ha
    have hview := length_view d
    have hpos := h.two_le_hlen
    have hsize : h.size = h.hlen + h.plen := rfl
    refine hr.shrinks hd ((keeps_tally d t l _).trans (keeps_letControl _ _)) ?_ hlast.le ?_ ?_ ?_ ?_ ?_
    · change d.hold ≤ ((d.tally t l d.ctrlDropped).letControl h.size).rest.length
      rw [hrest]
      change d.hold ≤ d.rest.length - h.size
      omega
    all_goals
      unfold Dir.letControl
      split_ifs <;> rfl
  | @controlCut h t l hh ho hp ha =>
    refine ⟨?_, fun _ _ _ h => by cases h⟩
    have hview := length_view d
    have hpos := h.two_le_hlen
    have hsize : h.size = h.hlen + h.plen := rfl
    have hrest : ((d.tally t l (d.ctrlDropped + 1)).cut h.size).rest.length =
        d.rest.length - h.size := by
      change (d.rest.take d.hold ++ d.view.drop h.size).length = _
      rw [List.length_append, List.length_take, List.length_drop]
      omega
    refine hr.shrinks hd ((keeps_tally d t l _).trans (keeps_cut _ _)) ?_ ?_ rfl rfl rfl rfl rfl
    · change d.hold ≤ ((d.tally t l (d.ctrlDropped + 1)).cut h.size).rest.length
      omega
    · change d.off + d.ready.length + ((d.tally t l (d.ctrlDropped + 1)).cut h.size).rest.length ≤
        d.off + d.ready.length + d.rest.length
      omega
  | pass hh ho hm =>
    have hmsg := noMessage_of_mode hr (by rw [hm]; decide)
    exact ⟨roomy_passOn hd hmsg hr.last _, fun _ _ _ h => by cases h⟩
  | @skipped h hh hm ha ho hk =>
    have hmsg : d.msg = false := by
      by_contra hmsg
      have := (hr.opened (by simpa using hmsg)).2.2.1
      rw [hk] at this
      cases this
    exact ⟨@roomy_passOn cf { d with msgSkip := !h.fin } hd hmsg hr.last h,
      fun _ _ _ h => by cases h⟩
  | tooBig => exact ⟨roomy_giveUp hr hd _ _, fun _ _ _ h => by cases h⟩
  | extension => exact ⟨roomy_giveUp hr hd _ _, fun _ _ _ h => by cases h⟩
  | unjournaled hm hh =>
    have hmsg := noMessage_of_mode hr (by rw [hm]; decide)
    exact ⟨roomy_idle hd hmsg ((last_advance d _).trans_le hr.last), fun _ _ _ h => by cases h⟩
  | journal p k hm =>
    have hmsg := noMessage_of_mode hr (by rw [hm]; decide)
    exact ⟨roomy_idle hd hmsg hr.last, fun _ _ _ h => by cases h⟩
  | start hh ho hm hp hl _ hv ha _ hc =>
    exact ⟨roomy_start hr hd hh hp hl hv ha hc, fun _ _ _ h => by cases h⟩
  | append hh ho hm hp hl _ hv _ hg =>
    exact ⟨roomy_append hs hr hd hh hl hv hg, fun _ _ _ h => by cases h⟩
  | @merged h hh ho hm hp hl _ hv _ hg =>
    have happ := roomy_append hs hr hd hh hl hv hg
    obtain ⟨hroomy, hheld⟩ := roomy_seal happ hd hg _ d.msgOpcode
    refine ⟨hroomy, fun e p k he => ?_⟩
    cases he
    exact ⟨hheld, rfl⟩
  | @single h hh ho hm hp hl _ hv hg =>
    refine ⟨roomy_idle hd hg hr.last, fun e p k he => ?_⟩
    cases he
    refine ⟨?_, hg⟩
    have hview := length_view d
    change h.size ≤ d.rest.length
    omega

/-! ### All moves -/

/-- A frame is being inspected. -/
theorem Roomy.begin (hr : Roomy cf d false) (hh : d.held ≤ d.rest.length) (hm : d.msg = false)
    (hp : d.mode ≠ .pass) (hd : d.drop = 0) : Roomy cf d true :=
  ⟨hr.message, fun _ => ⟨hh, hm, hp, hd⟩, hr.dropped, hr.last, hr.growth, hr.opened⟩

/-- A move that leaves the message where it is. -/
theorem Roomy.moved (hr : Roomy cf d busy) {off : ℕ} {ready rest out sent received : Bytes}
    (hrest : d.rest.length ≤ rest.length) (hl : off + ready.length + rest.length ≤ d.size)
    (hg : d.msg = true →
      off + ready.length + rest.length + leastLen d.masked d.msgLen ≤ d.size + d.msgHlen) :
    Roomy cf { d with off := off, ready := ready, rest := rest, out := out, sent := sent
                      received := received } busy where
  message := le_trans hr.message hrest
  frame hb := by
    obtain ⟨hh, hm⟩ := hr.frame hb
    exact ⟨hh.trans hrest, hm⟩
  dropped := ⟨hr.dropped.1.trans hrest, hr.dropped.2⟩
  last := hl
  growth := hg
  opened := hr.opened

theorem roomy_recv (hr : Roomy cf d busy) (bs : Bytes) : Roomy cf (d.recv bs) busy := by
  have hlast := hr.last
  have hroom : d.room = d.size - d.last - slack := rfl
  have hdl : d.last = d.off + d.ready.length + d.rest.length := rfl
  have hlen : (d.rest ++ bs.take d.room).length = d.rest.length + min d.room bs.length := by
    rw [List.length_append, List.length_take]
  refine hr.moved ?_ ?_ fun hm => ?_
  · omega
  · omega
  · have hgrowth := hr.growth hm
    have hleast := leastLen_le d.masked d.msgLen
    have hhlen := (hr.opened hm).2.2.2.2
    omega

theorem roomy_settleOk (hr : Roomy cf d true) : Roomy cf d.settleOk false := by
  obtain ⟨-, hm, -, hd⟩ := hr.frame rfl
  exact roomy_idle hd hm ((last_advance d _).trans_le hr.last)

theorem Move.roomy {l l' : Lane} (hs : Balanced cf l.dir.mode l.dir.masked) (h : Move cf l l')
    (hr : Roomy cf l.dir l.busy) : Roomy cf l'.dir l'.busy := by
  -- Parsing goes on only where no frame waits for its verdict.
  have hidle : ∀ {d : Dir} {b : Bool}, Roomy cf d b → Free d b → b = false := by
    intro d b hr hf
    cases b with
    | false => rfl
    | true => exact absurd (hf.1.resolve_left (by decide)) (hr.frame rfl).2.2.1
  have hturn : ∀ {d : Dir} {now : ℕ} {set : AuditSet} {sc : Scan}, Balanced cf d.mode d.masked →
      Roomy cf d false → d.drop = 0 → parseStep cf now set d = sc → Roomy cf sc.dir false ∧
        ∀ e p k, sc = .inspect e p k → e.held ≤ e.rest.length ∧ e.msg = false := by
    intro d now set sc hs hr hd hsc
    exact roomy_turn hs hr hd (hsc ▸ parseStep_out cf now set d)
  cases h with
  | next hf h =>
    obtain rfl := hidle hr hf
    exact (hturn hs hr hf.2.1 h).1
  | again hf h =>
    obtain rfl := hidle hr hf
    exact (hturn hs hr hf.2.1 h).1
  | close hf h =>
    obtain rfl := hidle hr hf
    exact (hturn hs hr hf.2.1 h).1
  | @journal d e k now set p key hf h =>
    have he : Roomy cf e false := (hturn hs hr hf.2.1 h).1
    have hk := keeps_of h
    have hmode : e.mode = .journal := hk.mode.trans (mode_of_journal h)
    have hm := noMessage_of_mode he (by rw [hmode]; decide)
    have hd : e.drop = 0 := hk.drop.trans hf.2.1
    have hj : Roomy cf (e.journaled key) false :=
      roomy_idle hd hm ((last_advance e _).trans_le he.last)
    refine hj.begin (Nat.zero_le _) hm ?_ hd
    change e.mode ≠ .pass
    rw [hmode]
    decide
  | @ask d e k now set p key hf h =>
    obtain ⟨he, hheld⟩ := hturn hs hr hf.2.1 h
    obtain ⟨hheld, hm⟩ := hheld e p key rfl
    have hk := keeps_of h
    have hmode : e.mode = .inspect := hk.mode.trans (mode_of_inspect h)
    have hd : e.drop = 0 := hk.drop.trans hf.2.1
    have hb : Roomy cf (e.begun p key) false := roomy_idle hd hm he.last
    refine hb.begin hheld hm ?_ hd
    change e.mode ≠ .pass
    rw [hmode]
    decide
  | allow => exact roomy_settleOk hr
  | refuse =>
    obtain ⟨-, hm, -, hd⟩ := hr.frame rfl
    exact roomy_idle hd hm hr.last
  | replace h =>
    rw [Dir.swap_eq h]
    obtain ⟨hh, hm, -⟩ := hr.frame rfl
    exact roomy_quiet hh hm ((last_advance _ _).trans_le hr.last)
  | @send d b k n =>
    have hdl : d.last = d.off + d.ready.length + d.rest.length := rfl
    have hlen : (d.ready.drop n).length = d.ready.length - n := List.length_drop
    refine hr.moved le_rfl ?_ fun hm => ?_
    · have hlast : d.last ≤ d.size := hr.last
      dsimp only
      omega
    · have hgrowth : d.last + leastLen d.masked d.msgLen ≤ d.size + d.msgHlen := hr.growth hm
      dsimp only
      omega
  | @dropFront d b k hd hready =>
    have hm : d.msg = false := hr.dropped.2 hd
    have hb : b = false := by
      by_contra hb
      exact hd (hr.frame (by simpa using hb)).2.2.2
    subst hb
    have hle : d.drop ≤ d.rest.length := hr.dropped.1
    have hlast : d.last ≤ d.size := hr.last
    have hdl : d.last = d.off + d.ready.length + d.rest.length := rfl
    refine roomy_idle rfl hm ?_
    change d.off + d.drop + d.ready.length + (d.rest.drop d.drop).length ≤ d.size
    rw [List.length_drop]
    omega
  | sendOut n hd => exact hr.moved le_rfl hr.last hr.growth
  | @compact d k hd hready =>
    have hdl : d.last = d.off + d.ready.length + d.rest.length := rfl
    refine hr.moved le_rfl ?_ fun hm => ?_
    · have hlast : d.last ≤ d.size := hr.last
      dsimp only
      omega
    · have hgrowth : d.last + leastLen d.masked d.msgLen ≤ d.size + d.msgHlen := hr.growth hm
      dsimp only
      omega
  | recv bs => exact roomy_recv hr bs
  | fail => exact hr

/-- What the moves keep. -/
theorem roomy_moves {l l' : Lane} (hs : Balanced cf l.dir.mode l.dir.masked) (h : Moves cf l l')
    (hr : Roomy cf l.dir l.busy) : Roomy cf l'.dir l'.busy := by
  induction h with
  | refl => exact hr
  | tail hm hmove ih =>
    obtain ⟨hmode, -, hmasked⟩ := Moves.fixed hm
    exact hmove.roomy (by rwa [hmode, hmasked]) ih

theorem End.inBounds {l l' : Lane} (hs : Balanced cf l.dir.mode l.dir.masked) (h : End cf l l')
    (hr : Roomy cf l.dir l.busy) : l'.dir.InBounds l'.busy := by
  cases h with
  | finish => exact ⟨hr.message, fun hb => (by cases hb), hr.dropped.1, hr.last⟩
  | noJournal hf h =>
    exact (roomy_turn hs hr hf.2.1 (h ▸ parseStep_out cf _ _ _)).1.inBounds
  | noMemory hf h =>
    exact (roomy_turn hs hr hf.2.1 (h ▸ parseStep_out cf _ _ _)).1.inBounds
  | noReplace h =>
    rw [Dir.swap_eq h]
    obtain ⟨hh, hm, -⟩ := hr.frame rfl
    exact ⟨(hold_noMessage hm).trans_le (Nat.zero_le _), fun hb => (by cases hb), hh, hr.last⟩

/-! ### Every state -/

/-- The states of a direction: between two events, where a list of turns may end early, after any turn of
the parser, and when the parser has returned. -/
inductive Reached (cf : Side → Conf) (mode : Side → Mode) (s : Side) : Dir → Bool → Prop
  | between {seed : Side → Bytes} {c c' : Conn} {es : List Ev} (h0 : attach cf mode seed = some c)
      (h : runs cf es c = some c') : Reached cf mode s (c'.dir s) (c'.busy s)
  | turn {seed : Side → Bytes} {c c' : Conn} {es : List Ev} {now : ℕ} {set : AuditSet} {d : Dir}
      (h0 : attach cf mode seed = some c) (h : runs cf es c = some c') (hk : c'.closing = false)
      (hp : c'.parses s) (ht : Turns (cf s) now set (c'.dir s) d) : Reached cf mode s d (c'.busy s)
  | parsed {seed : Side → Bytes} {c c' c'' : Conn} {es : List Ev} {io : Io} {rc : Rc}
      (h0 : attach cf mode seed = some c) (h : runs cf es c = some c') (hk : c'.closing = false)
      (hp : c'.parses s) (hc : parse cf io s c' = some (rc, c'')) :
      Reached cf mode s (c''.dir s) (c''.busy s)

theorem roomy_init {mode : Mode} {masked : Bool} {seed : Bytes}
    (h : dirInit cf mode masked seed = some d) :
    Roomy cf d false ∧ d.mode = mode ∧ d.masked = masked := by
  unfold dirInit at h
  split_ifs at h with hfit
  obtain rfl := Option.some.inj h
  refine ⟨roomy_idle rfl rfl ?_, rfl, rfl⟩
  change 0 + 0 + seed.length ≤ bufSize cf mode seed.length
  omega

theorem gets_inBounds {l l' : Lane} {o : Bool} (hs : Balanced cf l.dir.mode l.dir.masked)
    (hr : Roomy cf l.dir l.busy) (h : Gets cf l l' o) : l'.dir.InBounds l'.busy := by
  cases o with
  | false => exact (roomy_moves hs h hr).inBounds
  | true =>
    obtain ⟨m, hm, hend⟩ := h
    obtain ⟨hmode, -, hmasked⟩ := Moves.fixed hm
    exact hend.inBounds (by rwa [hmode, hmasked]) (roomy_moves hs hm hr)

/-- A balanced direction stays in its buffer. -/
theorem reached_inBounds {cf : Side → Conf} {mode : Side → Mode} {s : Side}
    (hs : Balanced (cf s) (mode s) (s == .c2s)) {d : Dir} {b : Bool} (h : Reached cf mode s d b) :
    d.InBounds b := by
  have hstart : ∀ {seed : Side → Bytes} {c : Conn}, attach cf mode seed = some c →
      Roomy (cf s) (c.dir s) false ∧ Balanced (cf s) (c.dir s).mode (c.dir s).masked := by
    intro seed c h0
    obtain ⟨hr, hmode, hmasked⟩ := roomy_init (attach_spec h0 s).1
    exact ⟨hr, by rwa [hmode, hmasked]⟩
  cases h with
  | between h0 h =>
    obtain ⟨hr, hst⟩ := hstart h0
    obtain ⟨o, hg, -⟩ := runs_gets h0 h s
    exact gets_inBounds hst hr hg
  | @turn seed c c' es now set d h0 h hk hp ht =>
    obtain ⟨hr, hst⟩ := hstart h0
    have hm := runs_moves h0 h hk s
    have hturns : Moves (cf s) (c'.lane s) ⟨d, c'.busy s, c'.closing⟩ ∧ Free d (c'.busy s) := by
      induction ht with
      | refl => exact ⟨.refl, free_of_parses hp⟩
      | tail _ hturn ih => exact ⟨ih.1.tail (.next ih.2 hturn), ih.2.keeps (keeps_of hturn)⟩
    exact (roomy_moves hst (hm.trans hturns.1) hr).inBounds
  | @parsed seed c c' c'' es io rc h0 h hk hp hc =>
    obtain ⟨hr, hst⟩ := hstart h0
    have hm := runs_moves h0 h hk s
    obtain ⟨hmode, -, hmasked⟩ := Moves.fixed hm
    obtain ⟨-, -, hk0, hcoded⟩ := attach_spec h0 s
    obtain ⟨o, hg, -⟩ := runs_comes (fun hk' => by rw [hk0] at hk'; cases hk') h hcoded
    obtain ⟨o', hg'⟩ := goes_parse hp hc
    obtain ⟨-, -, hl⟩ := hg' (hg hcoded).1
    exact gets_inBounds (by rwa [hmode, hmasked]) (roomy_moves hst hm hr) (hl s)

/-! ### A message that is written past the end -/

/-- The longest fragment with a short header, and the one byte that makes the message too long for it. -/
def wideFragment : Frame :=
  ⟨false, 0, 1, .medium, none, List.replicate 65535 0, by rw [List.length_replicate]; decide⟩

def oneByte : Frame := ⟨true, 0, 0, .short, none, [0], by decide⟩

/-- The two frames, and bytes that fill the buffer. -/
def fullSeed (cf : Conf) : Bytes :=
  wideFragment.encode ++ (oneByte.encode ++ List.replicate (cf.bodyLimit + 36 - 65542) 0)

theorem wideFragment_header : wideFragment.header = ⟨false, 0, 1, false, .medium, 65535⟩ := by
  simp only [Frame.header, wideFragment, List.length_replicate, Option.isSome_none]

theorem wideFragment_length : wideFragment.encode.length = 65539 := by
  rw [Frame.length_encode, wideFragment_header]
  decide

theorem oneByte_length : oneByte.encode.length = 3 := by
  rw [Frame.length_encode]
  decide

theorem bufSize_inspect (hl : 65536 ≤ cf.bodyLimit) (n : ℕ) :
    bufSize cf .inspect n = cf.bodyLimit + 36 := by
  simp only [bufSize, bufMin, headerMax, slack, reduceCtorEq, if_false]
  omega

theorem fullSeed_length (hl : 65536 ≤ cf.bodyLimit) : (fullSeed cf).length = cf.bodyLimit + 36 := by
  rw [fullSeed, List.length_append, List.length_append, wideFragment_length, oneByte_length,
    List.length_replicate]
  omega

/-- The direction with its buffer full, and after the first fragment. -/
def fullDir (cf : Conf) : Dir :=
  { mode := .inspect, masked := false, size := cf.bodyLimit + 36, off := 0, ready := []
    rest := fullSeed cf, held := 0, skip := 0, drop := 0, out := [], seq := 0, opcode := 0
    fin := false, mask := fun _ => 0, msg := false, msgSkip := false, msgOpcode := 0, msgHlen := 0
    msgLen := 0, msgKey := fun _ => 0, ctrlTokens := 0, ctrlLast := 0, ctrlDropped := 0
    received := fullSeed cf, sent := [], handed := [], log := [] }

def fullHeld (cf : Conf) : Dir :=
  (fullDir cf).counted.msgStart ⟨false, 0, 1, false, .medium, 65535⟩

theorem dirInit_full (hl : 65536 ≤ cf.bodyLimit) :
    dirInit cf .inspect false (fullSeed cf) = some (fullDir cf) := by
  unfold dirInit
  rw [bufSize_inspect hl, fullSeed_length hl, if_neg (lt_irrefl _)]
  rfl

theorem parseStep_fullDir (hl : 65536 ≤ cf.bodyLimit) (ha : cf.frameReassemble = true) (now : ℕ)
    (set : AuditSet) : parseStep cf now set (fullDir cf) = .next (fullHeld cf) := by
  have hread : readHeader (fullDir cf).view = some ⟨false, 0, 1, false, .medium, 65535⟩ := by
    rw [← wideFragment_header]
    exact wideFragment.readHeader_encode _
  have hview : (fullDir cf).view.length = cf.bodyLimit + 36 := fullSeed_length hl
  have hasm : cf.assembles (fullDir cf) = true := by
    unfold Conf.assembles
    rw [ha]
    rfl
  have hskip : ¬0 < (fullDir cf).skip := lt_irrefl 0
  have hsize : Header.size ⟨false, 0, 1, false, .medium, 65535⟩ = 65539 := by decide
  have htotal : ¬cf.bodyLimit < (fullDir cf).total ⟨false, 0, 1, false, .medium, 65535⟩ := by
    have : (fullDir cf).total ⟨false, 0, 1, false, .medium, 65535⟩ = 65535 := rfl
    omega
  rw [parseStep, if_neg hskip, hread]
  simp only [parseFrame]
  rw [if_neg (by decide), if_neg (fun h => h rfl), if_neg (by decide), if_neg (by decide),
    if_neg (fun h => by cases h)]
  simp only [parseData]
  rw [if_neg (fun h => absurd h.2.1 (by decide)), if_neg (fun h => absurd h.2.1 (by decide)),
    if_neg (fun h => by rcases h.2.2 with h | h <;> cases h), if_neg htotal, if_neg (by decide),
    if_neg (by rw [hview, hsize]; omega)]
  simp only [parseWhole]
  rw [if_neg (fun h => by cases h), if_pos ⟨hasm, rfl, by decide⟩]
  rfl

/-- The message as it is when its last fragment has been put to it. -/
def fullMessage (cf : Conf) : Dir :=
  (fullHeld cf).counted.msgAppend ⟨true, 0, 0, false, .short, 1⟩

theorem fullHeld_hold (cf : Conf) : (fullHeld cf).hold = 65539 := by
  have hmsg : (fullHeld cf).msg = true := rfl
  have hhlen : (fullHeld cf).msgHlen = 4 := rfl
  have hlen : (fullHeld cf).msgLen = 65535 := rfl
  rw [Dir.hold, hmsg, if_pos rfl, hhlen, hlen]

theorem fullHeld_view (cf : Conf) : (fullHeld cf).view =
    oneByte.encode ++ List.replicate (cf.bodyLimit + 36 - 65542) 0 := by
  have hrest : (fullHeld cf).rest = fullSeed cf := rfl
  rw [Dir.view, fullHeld_hold, hrest, fullSeed]
  exact List.drop_left' wideFragment_length

theorem fullHeld_view_length (hl : 65536 ≤ cf.bodyLimit) :
    (fullHeld cf).view.length = cf.bodyLimit + 36 - 65539 := by
  rw [fullHeld_view, List.length_append, oneByte_length, List.length_replicate]
  omega

theorem parseStep_fullHeld (hl : 65536 ≤ cf.bodyLimit) (now : ℕ) (set : AuditSet) :
    parseStep cf now set (fullHeld cf) = (fullMessage cf).msgWhole false := by
  have hread : readHeader (fullHeld cf).view = some ⟨true, 0, 0, false, .short, 1⟩ := by
    rw [fullHeld_view]
    exact oneByte.readHeader_encode _
  have hview := fullHeld_view_length hl
  have hskip : ¬0 < (fullHeld cf).skip := lt_irrefl 0
  have hsize : Header.size ⟨true, 0, 0, false, .short, 1⟩ = 3 := by decide
  have htotal : ¬cf.bodyLimit < (fullHeld cf).total ⟨true, 0, 0, false, .short, 1⟩ := by
    have : (fullHeld cf).total ⟨true, 0, 0, false, .short, 1⟩ = 1 + 65535 := rfl
    omega
  rw [parseStep, if_neg hskip, hread]
  simp only [parseFrame]
  rw [if_neg (by decide), if_neg (fun h => h rfl), if_neg (by decide), if_neg (by decide),
    if_neg (fun h => by cases h)]
  simp only [parseData]
  rw [if_neg (fun h => by cases h.2.2), if_neg (fun h => by cases h.2.2),
    if_neg (fun h => h.2.1 rfl), if_neg htotal, if_neg (by decide),
    if_neg (by rw [hview, hsize]; omega)]
  simp only [parseWhole]
  have hmsg : (fullHeld cf).counted.msg = true := rfl
  rw [if_neg (fun h => by cases h), if_neg (fun h => absurd h.2.1 (by decide)), if_pos hmsg,
    if_neg (by decide)]
  rfl

/-- The sealed message ends four bytes behind the end of the buffer. -/
theorem last_fullMessage (hl : 65536 ≤ cf.bodyLimit) :
    ((fullMessage cf).msgSeal true).1.last = cf.bodyLimit + 40 := by
  have hhold := fullHeld_hold cf
  have hrest : (fullHeld cf).rest.length = cf.bodyLimit + 36 := fullSeed_length hl
  have happend : (fullMessage cf).rest.length + 2 = (fullHeld cf).rest.length := by
    refine rest_msgAppend (by omega) ?_
    rw [fullHeld_view_length hl]
    change 3 ≤ _
    omega
  have hseal : ((fullMessage cf).msgSeal true).1.rest.length =
      10 + ((fullMessage cf).rest.length - 4) := by
    change (leastHead (fullMessage cf) true _ _ 65536 ++ (fullMessage cf).rest.drop 4).length = _
    rw [List.length_append, length_leastHead, List.length_drop]
    rfl
  change 0 + 0 + ((fullMessage cf).msgSeal true).1.rest.length = _
  omega

/-- The message is handed over, and its inspection waits. -/
theorem parse_whole {cf : Side → Conf} {s : Side} {c : Conn} {m : Dir}
    (h : parseLoop (cf s) idleIo.now idleIo.set (c.dir s).turns (c.dir s) =
      some (m.msgWhole false)) :
    ∃ c'', parse cf idleIo s c = some (.ok, c'') ∧
      (c''.dir s).last = (m.msgSeal true).1.last ∧ (c''.dir s).size = m.size := by
  unfold parse
  rw [h]
  refine ⟨_, rfl, ?_⟩
  unfold inspect Conn.begin
  simp only [idleIo, Conn.set, Function.update_self]
  exact ⟨rfl, rfl⟩

theorem parseLoop_full (hl : 65536 ≤ cf.bodyLimit) (ha : cf.frameReassemble = true) (now : ℕ)
    (set : AuditSet) (n : ℕ) :
    parseLoop cf now set (n + 2) (fullDir cf) = some ((fullMessage cf).msgWhole false) := by
  rw [parseLoop, parseStep_fullDir hl ha]
  simp only
  rw [parseLoop, parseStep_fullHeld hl]
  rfl

/-- The bytes that came with the handshake are enough for the overrun. -/
theorem overrun_of_limit {cf : Side → Conf} {mode : Side → Mode} (hm : mode .s2c = .inspect)
    (ha : (cf .s2c).frameReassemble = true) (hl : 65536 ≤ (cf .s2c).bodyLimit) :
    ∃ c c'', attach cf mode (Side.pick [] (fullSeed (cf .s2c))) = some c ∧ c.closing = false ∧
      c.parses .s2c ∧ parse cf idleIo .s2c c = some (.ok, c'') ∧
      (c''.dir .s2c).last = (cf .s2c).bodyLimit + 40 ∧
      (c''.dir .s2c).size = (cf .s2c).bodyLimit + 36 := by
  obtain ⟨e, he⟩ := dirInit_nil (cf .c2s) (mode .c2s) true
  have hfull : dirInit (cf .s2c) (mode .s2c) false (fullSeed (cf .s2c)) =
      some (fullDir (cf .s2c)) := by
    rw [hm]
    exact dirInit_full hl
  have hdir : (Conn.fresh e (fullDir (cf .s2c))).dir .s2c = fullDir (cf .s2c) := rfl
  have hloop := parseLoop_full hl ha idleIo.now idleIo.set (2 * (fullDir (cf .s2c)).rest.length)
  rw [← hdir] at hloop
  obtain ⟨c'', hc, hlast, hsize⟩ := parse_whole hloop
  exact ⟨_, c'', attach_of_dirs he hfull, rfl, ⟨.inl rfl, rfl, rfl⟩, hc,
    hlast.trans (last_fullMessage hl), hsize⟩

/-- **The buffer is never overrun** in a direction that is balanced, and in no other: for every seed that
is accepted and every run, what is held lies before `last` and `last` in the buffer. -/
theorem never_overruns_iff (cf : Side → Conf) (mode : Side → Mode) (s : Side) :
    (∀ d b, Reached cf mode s d b → d.InBounds b) ↔ Balanced (cf s) (mode s) (s == .c2s) := by
  constructor
  · intro hall
    by_contra hs
    simp only [Balanced, not_or, not_not] at hs
    obtain ⟨hmask, ⟨ha, hm⟩, hl⟩ := hs
    cases s with
    | c2s => exact hmask rfl
    | s2c =>
      obtain ⟨c, c'', h0, hk, hp, hc, hlast, hsize⟩ := overrun_of_limit hm ha (by omega)
      have hle := (hall _ _ (.parsed h0 (rfl : runs cf [] c = some c) hk hp hc)).last
      omega
  · exact fun hs d b h => reached_inBounds hs h

/-- Reassembly on, with the least limit for which a header of ten bytes is needed. -/
def wideConf : Conf := { sampleConf with bodyLimit := 65536, bodyLimit_lt := by norm_num }

/-- The message of 65536 bytes ends behind the buffer of 65572 bytes. -/
theorem sealed_past_end : ∃ c c'', attach (fun _ => wideConf) (fun _ => .inspect)
      (Side.pick [] (fullSeed wideConf)) = some c ∧
    parse (fun _ => wideConf) idleIo .s2c c = some (.ok, c'') ∧
    (c''.dir .s2c).size = 65572 ∧ (c''.dir .s2c).last = 65576 := by
  obtain ⟨c, c'', h0, -, -, hc, hlast, hsize⟩ :=
    @overrun_of_limit (fun _ => wideConf) (fun _ => .inspect) rfl rfl le_rfl
  exact ⟨c, c'', h0, hc, hsize, hlast⟩

end Frames
