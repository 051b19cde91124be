import PlacitumNode.Frame.Connection

/-!
# What can happen to one direction

* `ParseOut`, `parseStep_out`: every way a turn of the parser can end;
* `Lane`, `Move`, `Moves`: a direction, whether its frame is being inspected and whether the
  connection closes, and the changes the connection can make to them;
* `End`, `Gets`: the changes that only the end of the connection follows;
* `Grows`: what only grows along them;
* `Goes`, `Comes`, `step_comes`, `runs_gets`: each event, and so each run, is a sequence of moves in
  each of the two directions, and maybe an end.
-/

namespace Frames

open Octets Framing Waves

/-! ### The turns of the parser -/

/-- A counted control frame, with the new state of the rate. -/
def Dir.tally (d : Dir) (tokens last dropped : ℕ) : Dir :=
  { d with seq := d.seq + 1, ctrlTokens := tokens, ctrlLast := last, ctrlDropped := dropped }

/-- A data frame at `p` that belongs there: it continues a message exactly when one is open. -/
def Placed (cf : Conf) (d : Dir) (h : Header) : Prop :=
  cf.assembles d = true →
    (h.opcode = 0 → d.msg = true ∧ d.msgSkip = false) ∧
      (h.opcode ≠ 0 → d.msg = false ∧ d.msgSkip = false)

/-- A header at `p` that passed the first checks. -/
structure At (d : Dir) (h : Header) : Prop where
  skip : d.skip ≤ 0
  read : readHeader d.view = some h
  short : h.plen < 2 ^ 63
  mask : h.masked = d.masked

/-- The frames for which the parser closes the connection. -/
inductive Bad (cf : Conf) (d : Dir) (h : Header) : Prop
  | long (hl : 2 ^ 63 ≤ h.plen)
  | mask (hm : h.masked ≠ d.masked)
  | control (ho : 8 ≤ h.opcode) (hb : h.fin = false ∨ 125 < h.plen ∨ 10 < h.opcode)
  | reserved (ho : 2 < h.opcode) (ho' : h.opcode < 8)
  | alone (ha : cf.assembles d = true) (ho : h.opcode = 0) (hg : d.msg = false)
  | interrupts (ha : cf.assembles d = true) (ho : h.opcode ≤ 2) (ho' : h.opcode ≠ 0)
      (hg : d.msg = true ∨ d.msgSkip = true)
  | tooBig (ho : h.opcode ≤ 2) (hl : cf.bodyLimit < d.total h)

/-- The ways a turn of the parser ends. -/
inductive ParseOut (cf : Conf) (d : Dir) : Scan → Prop
  | skipMore (hs : 0 < d.skip) (ha : 0 < d.skipOver.skip) : ParseOut cf d (.again d.skipOver)
  | skipDone (hs : 0 < d.skip) (ha : d.skipOver.skip ≤ 0) : ParseOut cf d (.next d.skipOver)
  | noHeader (hs : d.skip ≤ 0) (hr : readHeader d.view = none) : ParseOut cf d (.again d)
  | close {h : Header} (k : Close) (hs : d.skip ≤ 0) (hr : readHeader d.view = some h)
      (hb : Bad cf d h) : ParseOut cf d (.close d k)
  | controlShort {h : Header} (hh : At d h) (ho : 8 ≤ h.opcode) (hp : h.plen ≤ 125)
      (ha : d.view.length < h.size) : ParseOut cf d (.again d)
  | control {h : Header} (t l : ℕ) (hh : At d h) (ho : 8 ≤ h.opcode) (hp : h.plen ≤ 125)
      (ha : h.size ≤ d.view.length) :
      ParseOut cf d (.next ((d.tally t l d.ctrlDropped).letControl h.size))
  | controlCut {h : Header} (t l : ℕ) (hh : At d h) (ho : 8 ≤ h.opcode) (hp : h.plen ≤ 125)
      (ha : h.size ≤ d.view.length) :
      ParseOut cf d (.next ((d.tally t l (d.ctrlDropped + 1)).cut h.size))
  | pass {h : Header} (hh : At d h) (ho : h.opcode ≤ 2) (hm : d.mode = .pass) :
      ParseOut cf d (.next (d.passOn h))
  | skipped {h : Header} (hh : At d h) (hm : d.mode ≠ .pass) (ha : cf.assembles d = true)
      (ho : h.opcode = 0) (hk : d.msgSkip = true) :
      ParseOut cf d (.next ({ d with msgSkip := !h.fin }.passOn h))
  | tooBig {h : Header} (hh : At d h) (ho : h.opcode ≤ 2) (hm : d.mode ≠ .pass)
      (hp : Placed cf d h) (hl : cf.bodyLimit < d.total h)
      (hb : ¬(cf.bodyLimitPolicy = .block ∧ d.mode = .inspect)) :
      ParseOut cf d (.next ((d.giveUp (cf.assembles d) h).passOn h))
  | extension {h : Header} (hh : At d h) (ho : h.opcode ≤ 2) (hm : d.mode ≠ .pass)
      (hp : Placed cf d h) (hl : d.total h ≤ cf.bodyLimit) (hr : h.rsv ≠ 0) :
      ParseOut cf d (.next ((d.giveUp (cf.assembles d) h).passOn h))
  | dataShort {h : Header} (hh : At d h) (ho : h.opcode ≤ 2) (hm : d.mode ≠ .pass)
      (hp : Placed cf d h) (hl : d.total h ≤ cf.bodyLimit) (hr : h.rsv = 0)
      (ha : d.view.length < h.size) : ParseOut cf d (.again d)
  | unjournaled {h : Header} (hm : d.mode = .journal) (hh : At d h) :
      ParseOut cf d (.next (d.counted.advance h.size))
  | journal {h : Header} (p : Bytes) (k : Option Key) (hm : d.mode = .journal) :
      ParseOut cf d (.journal (d.counted.holding h.size h.opcode h.fin) p k)
  | start {h : Header} (hh : At d h) (ho : h.opcode ≤ 2) (hm : d.mode = .inspect)
      (hp : Placed cf d h) (hl : d.total h ≤ cf.bodyLimit) (hr : h.rsv = 0)
      (hv : h.size ≤ d.view.length) (ha : cf.assembles d = true) (hf : h.fin = false)
      (hc : h.opcode ≠ 0) : ParseOut cf d (.next (d.counted.msgStart h))
  | append {h : Header} (hh : At d h) (ho : h.opcode ≤ 2) (hm : d.mode = .inspect)
      (hp : Placed cf d h) (hl : d.total h ≤ cf.bodyLimit) (hr : h.rsv = 0)
      (hv : h.size ≤ d.view.length) (hf : h.fin = false) (hg : d.msg = true) :
      ParseOut cf d (.next (d.counted.msgAppend h))
  | merged {h : Header} (hh : At d h) (ho : h.opcode ≤ 2) (hm : d.mode = .inspect)
      (hp : Placed cf d h) (hl : d.total h ≤ cf.bodyLimit) (hr : h.rsv = 0)
      (hv : h.size ≤ d.view.length) (hf : h.fin = true) (hg : d.msg = true) :
      ParseOut cf d ((d.counted.msgAppend h).msgWhole h.masked)
  | single {h : Header} (hh : At d h) (ho : h.opcode ≤ 2) (hm : d.mode = .inspect)
      (hp : Placed cf d h) (hl : d.total h ≤ cf.bodyLimit) (hr : h.rsv = 0)
      (hv : h.size ≤ d.view.length) (hg : d.msg = false)
      (hf : cf.assembles d = true → h.fin = true) :
      ParseOut cf d (.inspect (d.counted.holding h.size h.opcode h.fin) (d.payloadAt h) (d.keyAt h))

variable {cf : Conf} {now : ℕ} {set : AuditSet} {d : Dir} {h : Header}

/-- A refill touches the tokens and their clock and nothing else. -/
theorem ctrlRefill_eq (rate now : ℕ) (d : Dir) :
    ∃ t l, ctrlRefill rate now d = { d with ctrlTokens := t, ctrlLast := l } := by
  unfold ctrlRefill
  by_cases h0 : d.ctrlLast = 0
  · rw [if_pos h0]
    exact ⟨_, _, rfl⟩
  · rw [if_neg h0]
    dsimp only
    split
    · split
      · exact ⟨_, _, rfl⟩
      · exact ⟨d.ctrlTokens, d.ctrlLast, rfl⟩
    · exact ⟨d.ctrlTokens, d.ctrlLast, rfl⟩

/-- A control frame that has no token is counted as dropped. -/
theorem ctrlAllowed_cases (cf : Conf) (now : ℕ) (d : Dir) :
    (∃ t l, ctrlAllowed cf now d = (true, { d with ctrlTokens := t, ctrlLast := l })) ∨
      ∃ t l, ctrlAllowed cf now d =
        (false, { d with ctrlTokens := t, ctrlLast := l, ctrlDropped := d.ctrlDropped + 1 }) := by
  unfold ctrlAllowed
  by_cases hr : cf.frameControlRate = 0
  · rw [if_pos hr]
    exact .inl ⟨d.ctrlTokens, d.ctrlLast, rfl⟩
  · rw [if_neg hr]
    obtain ⟨t, l, he⟩ := ctrlRefill_eq cf.frameControlRate now d
    rw [he]
    unfold ctrlTake
    split
    · exact .inl ⟨_, _, rfl⟩
    · exact .inr ⟨_, _, rfl⟩

theorem control_opcodes : ∀ o : Fin 16, 8 ≤ o → o ≠ 8 → o ≠ 9 → o ≠ 10 → 10 < o := by decide

/-- Control frames, by the order of the checks of the source. -/
theorem parseControl_out (hh : At d h) (ho : 8 ≤ h.opcode) :
    ParseOut cf d (parseControl cf now h d) := by
  unfold parseControl
  by_cases hbad : !h.fin ∨ 125 < h.plen ∨ (h.opcode ≠ 8 ∧ h.opcode ≠ 9 ∧ h.opcode ≠ 10)
  · rw [if_pos hbad]
    refine .close _ hh.skip hh.read (.control ho ?_)
    rcases hbad with hf | hl | ⟨h8, h9, h10⟩
    · exact .inl (by simpa using hf)
    · exact .inr (.inl hl)
    · exact .inr (.inr (control_opcodes _ ho h8 h9 h10))
  · rw [if_neg hbad]
    have hp : h.plen ≤ 125 := by
      by_contra hlt
      exact hbad (.inr (.inl (by omega)))
    by_cases ha : d.view.length < h.size
    · rw [if_pos ha]
      exact .controlShort hh ho hp ha
    · rw [if_neg ha]
      by_cases h8 : h.opcode = 8
      · rw [if_pos h8]
        exact .control d.ctrlTokens d.ctrlLast hh ho hp (by omega)
      · rw [if_neg h8]
        obtain ⟨t, l, he⟩ | ⟨t, l, he⟩ := ctrlAllowed_cases cf now d.counted
        · simp only [he]
          exact .control t l hh ho hp (by omega)
        · simp only [he]
          exact .controlCut t l hh ho hp (by omega)

/-- A whole data frame within the limit is held, appended, or handed over. -/
theorem parseWhole_out (hh : At d h) (ho : h.opcode ≤ 2) (hm : d.mode ≠ .pass)
    (hp : Placed cf d h) (hl : d.total h ≤ cf.bodyLimit) (hr : h.rsv = 0)
    (hv : h.size ≤ d.view.length) :
    ParseOut cf d (parseWhole cf set h d.counted) := by
  unfold parseWhole
  by_cases hj : d.counted.mode = .journal
  · rw [if_pos hj]
    split
    · exact .unjournaled hj hh
    · exact .journal _ _ hj
  · rw [if_neg hj]
    have hi : d.mode = .inspect := by
      cases hmode : d.mode with
      | inspect => rfl
      | journal => exact absurd hmode hj
      | pass => exact absurd hmode hm
    by_cases hs : cf.assembles d.counted = true ∧ (!h.fin) = true ∧ h.opcode ≠ 0
    · rw [if_pos hs]
      obtain ⟨ha, hf, hc⟩ := hs
      exact .start hh ho hi hp hl hr hv ha (by simpa using hf) hc
    · rw [if_neg hs]
      by_cases hg : d.counted.msg = true
      · rw [if_pos hg]
        by_cases hf : (!h.fin) = true
        · rw [if_pos hf]
          exact .append hh ho hi hp hl hr hv (by simpa using hf) hg
        · rw [if_neg hf]
          exact .merged hh ho hi hp hl hr hv (by simpa using hf) hg
      · rw [if_neg hg]
        have hg' : d.msg = false := by simpa [Dir.counted] using hg
        refine .single hh ho hi hp hl hr hv hg' fun ha => ?_
        have hc : h.opcode ≠ 0 := fun h0 => by
          have := ((hp ha).1 h0).1
          exact hg this
        by_contra hf
        exact hs ⟨ha, by simpa using hf, hc⟩

/-- Data frames, by the order of the checks of the source. -/
theorem parseData_out (hh : At d h) (ho : h.opcode ≤ 2) (hm : d.mode ≠ .pass) :
    ParseOut cf d (parseData cf set h d) := by
  unfold parseData
  by_cases h₁ : cf.assembles d = true ∧ h.opcode = 0 ∧ d.msgSkip = true
  · rw [if_pos h₁]
    exact .skipped hh hm h₁.1 h₁.2.1 h₁.2.2
  · rw [if_neg h₁]
    by_cases h₂ : cf.assembles d = true ∧ h.opcode = 0 ∧ (!d.msg) = true
    · rw [if_pos h₂]
      exact .close _ hh.skip hh.read (.alone h₂.1 h₂.2.1 (by simpa using h₂.2.2))
    · rw [if_neg h₂]
      by_cases h₃ : cf.assembles d = true ∧ h.opcode ≠ 0 ∧ (d.msg = true ∨ d.msgSkip = true)
      · rw [if_pos h₃]
        exact .close _ hh.skip hh.read (.interrupts h₃.1 ho h₃.2.1 h₃.2.2)
      · rw [if_neg h₃]
        have hp : Placed cf d h := by
          intro ha
          constructor
          · intro h0
            constructor
            · by_contra hg
              exact h₂ ⟨ha, h0, by simpa using hg⟩
            · by_contra hk
              exact h₁ ⟨ha, h0, by simpa using hk⟩
          · intro h0
            constructor
            · by_contra hg
              exact h₃ ⟨ha, h0, .inl (by simpa using hg)⟩
            · by_contra hk
              exact h₃ ⟨ha, h0, .inr (by simpa using hk)⟩
        by_cases hl : cf.bodyLimit < d.total h
        · rw [if_pos hl]
          by_cases hb : cf.bodyLimitPolicy = .block ∧ d.mode = .inspect
          · rw [if_pos hb]
            exact .close _ hh.skip hh.read (.tooBig ho hl)
          · rw [if_neg hb]
            exact .tooBig hh ho hm hp hl hb
        · rw [if_neg hl]
          have hl' : d.total h ≤ cf.bodyLimit := Nat.le_of_not_lt hl
          by_cases hr : h.rsv ≠ 0
          · rw [if_pos hr]
            exact .extension hh ho hm hp hl' hr
          · rw [if_neg hr]
            have hr' : h.rsv = 0 := by simpa using hr
            by_cases hv : d.view.length < h.size
            · rw [if_pos hv]
              exact .dataShort hh ho hm hp hl' hr' hv
            · rw [if_neg hv]
              exact parseWhole_out hh ho hm hp hl' hr' (Nat.le_of_not_lt hv)

theorem parseFrame_out (hs : d.skip ≤ 0) (hr : readHeader d.view = some h) :
    ParseOut cf d (parseFrame cf now set h d) := by
  unfold parseFrame
  by_cases h63 : 2 ^ 63 ≤ h.plen
  · rw [if_pos h63]
    exact .close _ hs hr (.long h63)
  · rw [if_neg h63]
    by_cases hk : h.masked ≠ d.masked
    · rw [if_pos hk]
      exact .close _ hs hr (.mask hk)
    · rw [if_neg hk]
      have hh : At d h := ⟨hs, hr, by omega, by simpa using hk⟩
      by_cases h8 : 8 ≤ h.opcode
      · rw [if_pos h8]
        exact parseControl_out hh h8
      · rw [if_neg h8]
        by_cases h2 : 2 < h.opcode
        · rw [if_pos h2]
          exact .close _ hs hr (.reserved h2 (not_le.1 h8))
        · rw [if_neg h2]
          have ho : h.opcode ≤ 2 := not_lt.1 h2
          by_cases hm : d.mode = .pass
          · rw [if_pos hm]
            exact .pass hh ho hm
          · rw [if_neg hm]
            exact parseData_out hh ho hm

/-- **A turn of the parser** ends in one of these ways. -/
theorem parseStep_out (cf : Conf) (now : ℕ) (set : AuditSet) (d : Dir) :
    ParseOut cf d (parseStep cf now set d) := by
  unfold parseStep
  by_cases hs : 0 < d.skip
  · rw [if_pos hs]
    by_cases ha : 0 < d.skipOver.skip
    · simp only [if_pos ha]
      exact .skipMore hs ha
    · simp only [if_neg ha]
      exact .skipDone hs (by omega)
  · rw [if_neg hs]
    split
    · rename_i hr
      exact .noHeader (by omega) hr
    · rename_i h hr
      exact parseFrame_out (by omega) hr

/-! ### What the parser leaves alone -/

/-- The direction that a turn leaves. -/
def Scan.dir : Scan → Dir
  | again d | next d | close d _ | journal d _ _ | inspect d _ _ => d

/-- The parts of a direction that the parser does not touch. -/
structure Keeps (d e : Dir) : Prop where
  mode : e.mode = d.mode
  masked : e.masked = d.masked
  size : e.size = d.size
  off : e.off = d.off
  drop : e.drop = d.drop
  out : e.out = d.out
  received : e.received = d.received
  sent : e.sent = d.sent
  handed : e.handed = d.handed
  log : e.log = d.log

theorem Keeps.refl (d : Dir) : Keeps d d := ⟨rfl, rfl, rfl, rfl, rfl, rfl, rfl, rfl, rfl, rfl⟩

theorem Keeps.trans {d e f : Dir} (h : Keeps d e) (h' : Keeps e f) : Keeps d f :=
  ⟨h'.mode.trans h.mode, h'.masked.trans h.masked, h'.size.trans h.size, h'.off.trans h.off,
    h'.drop.trans h.drop, h'.out.trans h.out, h'.received.trans h.received, h'.sent.trans h.sent,
    h'.handed.trans h.handed, h'.log.trans h.log⟩

theorem keeps_tally (d : Dir) (t l n : ℕ) : Keeps d (d.tally t l n) :=
  ⟨rfl, rfl, rfl, rfl, rfl, rfl, rfl, rfl, rfl, rfl⟩

theorem keeps_advance (d : Dir) (n : ℕ) : Keeps d (d.advance n) :=
  ⟨rfl, rfl, rfl, rfl, rfl, rfl, rfl, rfl, rfl, rfl⟩

theorem keeps_cut (d : Dir) (n : ℕ) : Keeps d (d.cut n) :=
  ⟨rfl, rfl, rfl, rfl, rfl, rfl, rfl, rfl, rfl, rfl⟩

theorem keeps_hoist (d : Dir) (n : ℕ) : Keeps d (d.hoist n) :=
  ⟨rfl, rfl, rfl, rfl, rfl, rfl, rfl, rfl, rfl, rfl⟩

theorem keeps_skipOver (d : Dir) : Keeps d d.skipOver :=
  ⟨rfl, rfl, rfl, rfl, rfl, rfl, rfl, rfl, rfl, rfl⟩

theorem keeps_passOn (d : Dir) (h : Header) : Keeps d (d.passOn h) := by
  unfold Dir.passOn
  generalize Machine.signed h.size = n
  exact ⟨rfl, rfl, rfl, rfl, rfl, rfl, rfl, rfl, rfl, rfl⟩

theorem keeps_counted (d : Dir) : Keeps d d.counted :=
  ⟨rfl, rfl, rfl, rfl, rfl, rfl, rfl, rfl, rfl, rfl⟩

theorem keeps_holding (d : Dir) (n : ℕ) (opcode : Fin 16) (fin : Bool) :
    Keeps d (d.holding n opcode fin) :=
  ⟨rfl, rfl, rfl, rfl, rfl, rfl, rfl, rfl, rfl, rfl⟩

theorem keeps_msgStart (d : Dir) (h : Header) : Keeps d (d.msgStart h) :=
  ⟨rfl, rfl, rfl, rfl, rfl, rfl, rfl, rfl, rfl, rfl⟩

theorem keeps_msgAppend (d : Dir) (h : Header) : Keeps d (d.msgAppend h) :=
  ⟨rfl, rfl, rfl, rfl, rfl, rfl, rfl, rfl, rfl, rfl⟩

/-- Sealing a message rewrites its header in the buffer, not what the socket gave. -/
theorem keeps_msgSeal (d : Dir) (fin : Bool) : Keeps d (d.msgSeal fin).1 :=
  ⟨rfl, rfl, rfl, rfl, rfl, rfl, rfl, rfl, rfl, rfl⟩

theorem keeps_msgWhole (d : Dir) (masked : Bool) : Keeps d (d.msgWhole masked).dir :=
  (keeps_msgSeal d true).trans (keeps_holding _ _ _ _)

theorem keeps_msgSkip (d : Dir) (b : Bool) : Keeps d { d with msgSkip := b } :=
  ⟨rfl, rfl, rfl, rfl, rfl, rfl, rfl, rfl, rfl, rfl⟩

theorem keeps_letControl (d : Dir) (n : ℕ) : Keeps d (d.letControl n) := by
  unfold Dir.letControl
  split
  · exact (keeps_hoist d n).trans (keeps_advance _ n)
  · exact keeps_advance d n

theorem keeps_giveUp (d : Dir) (assemble : Bool) (h : Header) : Keeps d (d.giveUp assemble h) := by
  unfold Dir.giveUp
  split
  · exact (keeps_msgSeal d false).trans ((keeps_advance _ _).trans (keeps_msgSkip _ _))
  · split
    · exact keeps_msgSkip d true
    · exact .refl d

/-- No turn touches the socket, the output or the mode. -/
theorem ParseOut.keeps {sc : Scan} (ho : ParseOut cf d sc) : Keeps d sc.dir := by
  cases ho with
  | skipMore => exact keeps_skipOver d
  | skipDone => exact keeps_skipOver d
  | noHeader => exact .refl d
  | close => exact .refl d
  | controlShort => exact .refl d
  | control t l => exact (keeps_tally d t l _).trans (keeps_letControl _ _)
  | controlCut t l => exact (keeps_tally d t l _).trans (keeps_cut _ _)
  | pass => exact keeps_passOn d _
  | skipped => exact (keeps_msgSkip d _).trans (keeps_passOn _ _)
  | tooBig => exact (keeps_giveUp d _ _).trans (keeps_passOn _ _)
  | extension => exact (keeps_giveUp d _ _).trans (keeps_passOn _ _)
  | dataShort => exact .refl d
  | unjournaled => exact (keeps_counted d).trans (keeps_advance _ _)
  | journal => exact (keeps_counted d).trans (keeps_holding _ _ _ _)
  | start => exact (keeps_counted d).trans (keeps_msgStart _ _)
  | append => exact (keeps_counted d).trans (keeps_msgAppend _ _)
  | merged => exact ((keeps_counted d).trans (keeps_msgAppend _ _)).trans (keeps_msgWhole _ _)
  | single => exact (keeps_counted d).trans (keeps_holding _ _ _ _)

theorem keeps_parseStep (cf : Conf) (now : ℕ) (set : AuditSet) (d : Dir) :
    Keeps d (parseStep cf now set d).dir := (parseStep_out cf now set d).keeps

theorem keeps_of {sc : Scan} (h : parseStep cf now set d = sc) : Keeps d sc.dir :=
  h ▸ keeps_parseStep cf now set d

/-- Frames are handed over in the inspecting mode only. -/
theorem mode_of_inspect {e : Dir} {p : Bytes} {key : Option Key}
    (h : parseStep cf now set d = .inspect e p key) : d.mode = .inspect := by
  have ho := h ▸ parseStep_out cf now set d
  cases ho with
  | merged => assumption
  | single => assumption

/-- Frames are written down in the journal mode only. -/
theorem mode_of_journal {e : Dir} {p : Bytes} {key : Option Key}
    (h : parseStep cf now set d = .journal e p key) : d.mode = .journal := by
  have ho := h ▸ parseStep_out cf now set d
  cases ho with
  | journal => assumption

/-! ### Moves -/

/-- A direction, whether its frame is being inspected, and whether the connection closes. -/
structure Lane where
  dir : Dir
  busy : Bool
  closing : Bool

def Conn.busy (c : Conn) (s : Side) : Bool := c.cur == some s

/-- One direction of a connection. -/
def Conn.lane (c : Conn) (s : Side) : Lane := ⟨c.dir s, c.busy s, c.closing⟩

/-- When the parser may run. -/
def Free (d : Dir) (busy : Bool) : Prop := (busy = false ∨ d.mode = .pass) ∧ d.drop = 0 ∧ d.out = []

/-- The frame is handed over. -/
def Dir.begun (d : Dir) (payload : Bytes) (key : Option Key) : Dir :=
  { d with mask := key.getD d.mask, handed := d.handed ++ [maskBy key payload] }

/-- The frame is written down and goes on. -/
def Dir.journaled (d : Dir) (key : Option Key) : Dir :=
  { d.advance d.held with held := 0, mask := key.getD d.mask }

/-- The changes of one direction. -/
inductive Move (cf : Conf) : Lane → Lane → Prop
  | next {d e : Dir} {b k : Bool} {now : ℕ} {set : AuditSet} (hf : Free d b)
      (h : parseStep cf now set d = .next e) : Move cf ⟨d, b, k⟩ ⟨e, b, k⟩
  | again {d e : Dir} {b k : Bool} {now : ℕ} {set : AuditSet} (hf : Free d b)
      (h : parseStep cf now set d = .again e) : Move cf ⟨d, b, k⟩ ⟨e, b, k⟩
  | close {d e : Dir} {b k : Bool} {now : ℕ} {set : AuditSet} {w : Close} (hf : Free d b)
      (h : parseStep cf now set d = .close e w) : Move cf ⟨d, b, k⟩ ⟨e, b, true⟩
  | journal {d e : Dir} {k : Bool} {now : ℕ} {set : AuditSet} {p : Bytes} {key : Option Key}
      (hf : Free d false) (h : parseStep cf now set d = .journal e p key) :
      Move cf ⟨d, false, k⟩ ⟨e.journaled key, true, k⟩
  | ask {d e : Dir} {k : Bool} {now : ℕ} {set : AuditSet} {p : Bytes} {key : Option Key}
      (hf : Free d false) (h : parseStep cf now set d = .inspect e p key) :
      Move cf ⟨d, false, k⟩ ⟨e.begun p key, true, k⟩
  | allow {d : Dir} : Move cf ⟨d, true, false⟩ ⟨d.settleOk, false, false⟩
  | refuse {d : Dir} {k : Bool} : Move cf ⟨d, true, k⟩ ⟨d.settleErr, false, true⟩
  | replace {d e : Dir} {size : ℕ} {data : Bytes} {sha : Bool}
      (h : d.swap cf size data sha = some e) : Move cf ⟨d, true, false⟩ ⟨e.settleOk, false, false⟩
  | send {d : Dir} {b k : Bool} (n : ℕ) : Move cf ⟨d, b, k⟩ ⟨d.send n, b, k⟩
  | dropFront {d : Dir} {b k : Bool} (hd : d.drop ≠ 0) (hr : d.ready = []) :
      Move cf ⟨d, b, k⟩ ⟨d.dropFront, b, k⟩
  | sendOut {d : Dir} {b k : Bool} (n : ℕ) (hd : d.drop = 0) :
      Move cf ⟨d, b, k⟩ ⟨d.sendOut n, b, k⟩
  | compact {d : Dir} {k : Bool} (hd : d.drop = 0) (hr : d.ready = []) :
      Move cf ⟨d, false, k⟩ ⟨d.compact, false, k⟩
  | recv {d : Dir} {b k : Bool} (bs : Bytes) : Move cf ⟨d, b, k⟩ ⟨d.recv bs, b, k⟩
  | fail {d : Dir} {b k : Bool} : Move cf ⟨d, b, k⟩ ⟨d, b, true⟩

/-- The changes of one direction, one after the other. -/
def Moves (cf : Conf) : Lane → Lane → Prop := Relation.ReflTransGen (Move cf)

/-- The changes after which the connection only ends: the end itself, a frame for which there is no
memory, and a rewritten frame that comes when the connection closes already. -/
inductive End (cf : Conf) : Lane → Lane → Prop
  | finish {d : Dir} {b k : Bool} : End cf ⟨d, b, k⟩ ⟨d, false, true⟩
  | noJournal {d e : Dir} {k : Bool} {now : ℕ} {set : AuditSet} {p : Bytes} {key : Option Key}
      (hf : Free d false) (h : parseStep cf now set d = .journal e p key) :
      End cf ⟨d, false, k⟩ ⟨e, false, true⟩
  | noMemory {d e : Dir} {k : Bool} {now : ℕ} {set : AuditSet} {p : Bytes} {key : Option Key}
      (hf : Free d false) (h : parseStep cf now set d = .inspect e p key) :
      End cf ⟨d, false, k⟩ ⟨e, false, true⟩
  | noReplace {d e : Dir} {k : Bool} {size : ℕ} {data : Bytes} {sha : Bool}
      (h : d.swap cf size data sha = some e) : End cf ⟨d, true, k⟩ ⟨e.settleErr, false, true⟩

/-- What a run makes of a lane; `true` means that the connection can only end. -/
def Gets (cf : Conf) (l l' : Lane) : Bool → Prop
  | false => Moves cf l l'
  | true => ∃ m, Moves cf l m ∧ End cf m l'

theorem Dir.swap_eq {cf : Conf} {size : ℕ} {data : Bytes} {sha : Bool} {d e : Dir}
    (h : d.swap cf size data sha = some e) : e = d.swapped (d.newFrame data) := by
  unfold Dir.swap at h
  split at h
  · cases h
  · split at h
    · cases h
    · exact (Option.some.inj h).symm

theorem Dir.sendOut_nil {n : ℕ} (h : d.out = []) : d.sendOut n = d := by
  rw [Dir.sendOut, h, List.drop_nil, List.take_nil, List.append_nil, ← h]

/-- A frame that takes the place of another is within the limits of the buffer. -/
theorem Dir.swap_le {cf : Conf} {size : ℕ} {data : Bytes} {sha : Bool} {d e : Dir}
    (h : d.swap cf size data sha = some e) :
    (d.newFrame data).length ≤ max bufMin (cf.bodyLimit + headerMax) := by
  unfold Dir.swap at h
  split at h
  · cases h
  · split at h
    · cases h
    · exact Nat.le_of_not_lt (by assumption)

/-- What no move changes. -/
theorem Move.fixed {cf : Conf} {l l' : Lane} (h : Move cf l l') :
    l'.dir.mode = l.dir.mode ∧ l'.dir.size = l.dir.size ∧ l'.dir.masked = l.dir.masked := by
  cases h with
  | next _ h | again _ h | close _ h | journal _ h | ask _ h =>
    exact ⟨(keeps_of h).mode, (keeps_of h).size, (keeps_of h).masked⟩
  | replace h =>
    rw [Dir.swap_eq h]
    exact ⟨rfl, rfl, rfl⟩
  | _ => exact ⟨rfl, rfl, rfl⟩

theorem Moves.fixed {cf : Conf} {l l' : Lane} (h : Moves cf l l') :
    l'.dir.mode = l.dir.mode ∧ l'.dir.size = l.dir.size ∧ l'.dir.masked = l.dir.masked := by
  induction h with
  | refl => exact ⟨rfl, rfl, rfl⟩
  | tail _ hm ih =>
    obtain ⟨h₁, h₂, h₃⟩ := Move.fixed hm
    exact ⟨h₁.trans ih.1, h₂.trans ih.2.1, h₃.trans ih.2.2⟩

/-! ### What grows -/

/-- No frame has been refused. -/
def Dir.Unrefused (d : Dir) : Prop := ∀ b w, .refused b w ∉ d.log

/-- What was received, settled and dropped stays so, and a connection that closes goes on closing. -/
structure Grows (l l' : Lane) : Prop where
  received : l.dir.received <+: l'.dir.received
  log : l.dir.log <+: l'.dir.log
  dropped : l.dir.ctrlDropped ≤ l'.dir.ctrlDropped
  closing : l.closing = true → l'.closing = true

theorem Grows.trans {l l' l'' : Lane} (h : Grows l l') (h' : Grows l' l'') : Grows l l'' :=
  ⟨h.received.trans h'.received, h.log.trans h'.log, h.dropped.trans h'.dropped,
    fun hk => h'.closing (h.closing hk)⟩

/-- A direction without a refused frame had none before. -/
theorem Grows.unrefused {l l' : Lane} (h : Grows l l') (hn : l'.dir.Unrefused) :
    l.dir.Unrefused :=
  fun b w hmem => hn b w (h.log.subset hmem)

theorem dropped_letControl (d : Dir) (n : ℕ) : (d.letControl n).ctrlDropped = d.ctrlDropped := by
  unfold Dir.letControl
  split <;> rfl

theorem dropped_passOn (d : Dir) (h : Header) : (d.passOn h).ctrlDropped = d.ctrlDropped := by
  unfold Dir.passOn
  generalize Machine.signed h.size = n
  rfl

theorem dropped_giveUp (d : Dir) (assemble : Bool) (h : Header) :
    (d.giveUp assemble h).ctrlDropped = d.ctrlDropped := by
  unfold Dir.giveUp
  split
  · rfl
  · split <;> rfl

/-- Only a control frame without a token is counted as dropped. -/
theorem ParseOut.dropped_le {sc : Scan} (ho : ParseOut cf d sc) :
    d.ctrlDropped ≤ sc.dir.ctrlDropped := by
  cases ho with
  | controlCut => exact Nat.le_succ _
  | control t l =>
    rw [Scan.dir, dropped_letControl]
    exact le_rfl
  | pass | skipped =>
    rw [Scan.dir, dropped_passOn]
  | tooBig | extension =>
    rw [Scan.dir, dropped_passOn, dropped_giveUp]
  | _ => exact le_refl d.ctrlDropped

theorem grows_of_scan {sc : Scan} {b b' k k' : Bool} (h : parseStep cf now set d = sc)
    (hk : k = true → k' = true) : Grows ⟨d, b, k⟩ ⟨sc.dir, b', k'⟩ := by
  have hkeep := keeps_of h
  refine ⟨?_, ?_, (h ▸ parseStep_out cf now set d : ParseOut cf d sc).dropped_le, hk⟩
  · exact hkeep.received ▸ List.prefix_rfl
  · exact hkeep.log ▸ List.prefix_rfl

theorem Dir.log_settleOk (d : Dir) : d.log <+: d.settleOk.log := by
  unfold Dir.settleOk
  dsimp only
  split
  · exact List.prefix_rfl
  · exact List.prefix_append _ _

/-- Every move lets what was received and settled stand. -/
theorem Move.grows {l l' : Lane} (h : Move cf l l') : Grows l l' := by
  cases h with
  | next _ h => exact grows_of_scan h id
  | again _ h => exact grows_of_scan h id
  | close _ h => exact grows_of_scan h fun _ => rfl
  | journal _ h =>
    obtain ⟨h₁, h₂, h₃, -⟩ := @grows_of_scan _ _ _ _ _ false true false false h id
    exact ⟨h₁, h₂, h₃, id⟩
  | ask _ h =>
    obtain ⟨h₁, h₂, h₃, -⟩ := @grows_of_scan _ _ _ _ _ false true false false h id
    exact ⟨h₁, h₂, h₃, id⟩
  | @allow d => exact ⟨List.prefix_rfl, d.log_settleOk, le_rfl, id⟩
  | refuse => exact ⟨List.prefix_rfl, List.prefix_append _ _, le_rfl, fun _ => rfl⟩
  | replace h =>
    obtain rfl := Dir.swap_eq h
    exact ⟨List.prefix_rfl, List.prefix_append _ _, le_rfl, id⟩
  | recv bs => exact ⟨List.prefix_append _ _, List.prefix_rfl, le_rfl, id⟩
  | fail => exact ⟨List.prefix_rfl, List.prefix_rfl, le_rfl, fun _ => rfl⟩
  | _ => exact ⟨List.prefix_rfl, List.prefix_rfl, le_rfl, id⟩

theorem Moves.grows {l l' : Lane} (h : Moves cf l l') : Grows l l' := by
  induction h with
  | refl => exact ⟨List.prefix_rfl, List.prefix_rfl, le_rfl, id⟩
  | tail _ hm ih => exact ih.trans hm.grows

/-- The frame that is handed over is not released by that. -/
theorem ready_of_inspect {e : Dir} {p : Bytes} {key : Option Key}
    (h : parseStep cf now set d = .inspect e p key) : e.ready = d.ready := by
  have ho := h ▸ parseStep_out cf now set d
  cases ho with
  | merged => rfl
  | single => rfl

theorem ready_of_journal {e : Dir} {p : Bytes} {key : Option Key}
    (h : parseStep cf now set d = .journal e p key) : e.ready = d.ready := by
  have ho := h ▸ parseStep_out cf now set d
  cases ho with
  | journal => rfl

/-- An end releases nothing. -/
theorem End.keeps {l l' : Lane} (h : End cf l l') :
    l'.dir.sent = l.dir.sent ∧ l'.dir.ready = l.dir.ready ∧ l'.dir.handed = l.dir.handed ∧
      Grows l l' := by
  cases h with
  | finish => exact ⟨rfl, rfl, rfl, List.prefix_rfl, List.prefix_rfl, le_rfl, fun _ => rfl⟩
  | noJournal _ h =>
    have hk := keeps_of h
    exact ⟨hk.sent, ready_of_journal h, hk.handed, grows_of_scan h fun _ => rfl⟩
  | noMemory _ h =>
    have hk := keeps_of h
    exact ⟨hk.sent, ready_of_inspect h, hk.handed, grows_of_scan h fun _ => rfl⟩
  | noReplace h =>
    obtain rfl := Dir.swap_eq h
    refine ⟨rfl, rfl, rfl, List.prefix_rfl, ?_, le_rfl, fun _ => rfl⟩
    exact (List.prefix_append _ _).trans (List.prefix_append _ _)

/-- A refused frame closes the connection. -/
def Lane.Wary (l : Lane) : Prop := ∀ b w, .refused b w ∈ l.dir.log → l.closing = true

theorem wary_of_nil {b k : Bool} (h : d.log = []) : Lane.Wary ⟨d, b, k⟩ := by
  intro b w hmem
  rw [show (⟨d, _, _⟩ : Lane).dir.log = [] from h] at hmem
  cases hmem

/-- A move that refuses a frame closes the connection. -/
theorem Move.wary {l l' : Lane} (h : Move cf l l') (hl : l.Wary) : l'.Wary := by
  intro b w hmem
  cases h with
  | next _ h | again _ h | journal _ h | ask _ h => exact hl b w ((keeps_of h).log ▸ hmem)
  | close | refuse | fail => rfl
  | @allow d =>
    refine hl b w ?_
    simp only [Dir.settleOk] at hmem
    split at hmem
    · exact hmem
    · simpa using hmem
  | replace h =>
    obtain rfl := Dir.swap_eq h
    refine hl b w ?_
    simpa [Dir.settleOk, Dir.swapped] using hmem
  | _ => exact hl b w hmem

theorem Moves.wary {l l' : Lane} (h : Moves cf l l') (hl : l.Wary) : l'.Wary := by
  induction h with
  | refl => exact hl
  | tail _ hm ih => exact hm.wary ih

/-- A close code is only ever set together with the mark that the connection closes. -/
def Coded (c : Conn) : Prop := c.closeCode ≠ 0 → c.closing = true

/-- The change from `c` to `c'` is made of moves in both directions, and maybe an end. -/
def Goes (cf : Side → Conf) (c c' : Conn) (ends : Bool) : Prop :=
  Coded c → Coded c' ∧ (ends = true → c'.closing = true) ∧
    ∀ s, Gets (cf s) (c.lane s) (c'.lane s) ends

section Transfer

variable {cf : Side → Conf} {c c' : Conn} {s : Side} {io : Io} {o : Bool}

/-- Changes are given by moves in both directions. -/
theorem goes_of_moves (hc : Coded c → Coded c')
    (hm : ∀ s, Moves (cf s) (c.lane s) (c'.lane s)) : Goes cf c c' false :=
  fun h => ⟨hc h, fun ho => (by cases ho), hm⟩

theorem Goes.refl (c : Conn) : Goes cf c c false := goes_of_moves id fun _ => .refl

theorem Goes.trans {c'' : Conn} (h : Goes cf c c' false) (h' : Goes cf c' c'' o) :
    Goes cf c c'' o := by
  intro hc
  obtain ⟨hc', -, hl⟩ := h hc
  obtain ⟨hc'', hk, hl'⟩ := h' hc'
  refine ⟨hc'', hk, fun s => ?_⟩
  cases o with
  | false => exact (hl s).trans (hl' s)
  | true =>
    obtain ⟨m, hm, he⟩ := hl' s
    exact ⟨m, (hl s).trans hm, he⟩

theorem busy_of_none (h : c.cur = none) (s : Side) : c.busy s = false := by
  simp [Conn.busy, h]

theorem busy_self (h : c.cur = some s) : c.busy s = true := by
  simp [Conn.busy, h]

theorem busy_other {t : Side} (h : c.cur = some s) (ht : t ≠ s) : c.busy t = false := by
  simp [Conn.busy, h, ht.symm]

@[simp] theorem dir_set_self (c : Conn) (s : Side) (d : Dir) : (c.set s d).dir s = d := by
  simp [Conn.set]

theorem dir_set_other {t : Side} (c : Conn) (d : Dir) (ht : t ≠ s) :
    (c.set s d).dir t = c.dir t := by
  simp [Conn.set, ht]

/-- The other direction, when the connection closes. -/
theorem gets_idle {cf : Conf} {d : Dir} {k : Bool} (o : Bool) :
    Gets cf ⟨d, false, k⟩ ⟨d, false, true⟩ o := by
  cases o with
  | false => exact .single .fail
  | true => exact ⟨_, .refl, .finish⟩

/-- A change that leaves directions, inspection and mark alone. -/
theorem goes_same (hd : c'.dir = c.dir) (hcur : c'.cur = c.cur) (hk : c'.closing = c.closing)
    (hcode : c'.closeCode = c.closeCode) : Goes cf c c' false := by
  refine goes_of_moves (fun hc => by rwa [Coded, hk, hcode]) fun t => ?_
  have he : c'.lane t = c.lane t := by
    simp only [Conn.lane, Conn.busy, hd, hcur, hk]
  rw [he]
  exact .refl

/-- A direction changes by moves, and the other one stays. -/
theorem goes_set {d : Dir} (h : Moves (cf s) (c.lane s) ⟨d, c.busy s, c.closing⟩) :
    Goes cf c (c.set s d) false := by
  refine goes_of_moves id fun t => ?_
  by_cases ht : t = s
  · subst ht
    have he : (c.set t d).lane t = ⟨d, c.busy t, c.closing⟩ := by
      rw [Conn.lane, dir_set_self]
      rfl
    rw [he]
    exact h
  · have he : (c.set s d).lane t = c.lane t := by
      rw [Conn.lane, dir_set_other c d ht]
      rfl
    rw [he]
    exact .refl

theorem goes_setClose (k : Close) : Goes cf c (c.setClose k) false :=
  goes_of_moves (fun _ _ => rfl) fun _ => .single .fail

theorem goes_sendFailed : Goes cf c (c.sendFailed s) false :=
  goes_of_moves (fun _ _ => rfl) fun _ => .single .fail

/-- The end of a connection ends both directions. -/
theorem goes_finalize (ready : Bool) (h : Goes cf c c' o) : Goes cf c (finalize ready c') true := by
  intro hc
  obtain ⟨-, -, hl⟩ := h hc
  refine ⟨fun _ => rfl, fun _ => rfl, fun s => ?_⟩
  have he : (finalize ready c').lane s = ⟨c'.dir s, false, true⟩ := rfl
  rw [he]
  cases o with
  | false => exact ⟨c'.lane s, hl s, .finish⟩
  | true =>
    -- an end leaves nothing that a second one would change
    obtain ⟨m, hm, hend⟩ := hl s
    refine ⟨m, hm, ?_⟩
    generalize hc' : c'.lane s = l at hend
    have hd : c'.dir s = l.dir := by rw [← hc']; rfl
    rw [hd]
    cases hend with
    | finish => exact .finish
    | noJournal hf h => exact .noJournal hf h
    | noMemory hf h => exact .noMemory hf h
    | noReplace h => exact .noReplace h

/-- An inspection ends: the direction changes, and the connection is idle. -/
theorem goes_ended {e : Dir} (hcur : c.cur = some s)
    (hm : Move (cf s) ⟨c.dir s, true, c.closing⟩ ⟨e, false, c.closing⟩) :
    Goes cf c (c.ended s e) false := by
  refine goes_of_moves id fun t => ?_
  by_cases ht : t = s
  · subst ht
    rw [Conn.lane, Conn.lane, busy_self hcur, busy_of_none rfl]
    simp only [Conn.ended, dir_set_self]
    exact .single hm
  · rw [Conn.lane, Conn.lane, busy_other hcur ht, busy_of_none rfl]
    simp only [Conn.ended, dir_set_other _ _ ht]
    exact .refl

/-- A frame that is not allowed closes the connection. -/
theorem goes_failed {e : Dir} (hcur : c.cur = some s)
    (hm : Gets (cf s) ⟨c.dir s, true, c.closing⟩ ⟨e, false, true⟩ o) :
    Goes cf c (c.failed.ended s e) o := by
  intro hc
  have hclosing : c.failed.closing = true := by
    unfold Conn.failed
    split
    · rfl
    · exact hc (by assumption)
  have hdir : c.failed.dir = c.dir := by
    unfold Conn.failed
    split <;> rfl
  refine ⟨fun _ => hclosing, fun _ => hclosing, fun t => ?_⟩
  have hlane : ((c.failed.ended s e).lane t) = ⟨(c.failed.ended s e).dir t, false, true⟩ := by
    rw [Conn.lane, busy_of_none rfl]
    simp only [Conn.ended, Conn.set, hclosing]
  rw [hlane]
  by_cases ht : t = s
  · subst ht
    rw [Conn.lane, busy_self hcur]
    simp only [Conn.ended, dir_set_self]
    exact hm
  · rw [Conn.lane, busy_other hcur ht]
    simp only [Conn.ended, dir_set_other _ _ ht, hdir]
    exact gets_idle o

theorem goes_settle_none (ok : Bool) (hcur : c.cur = none) : Goes cf c (settle c ok) false := by
  simp only [settle, hcur]
  exact goes_same rfl hcur.symm rfl rfl

theorem goes_settle_err (c : Conn) : Goes cf c (settle c false) false := by
  cases hcur : c.cur with
  | none => exact goes_settle_none _ hcur
  | some s =>
    simp only [settle, hcur]
    exact goes_failed hcur (.single .refuse)

/-- An inspection that ends settles its frame, unless the connection closes. -/
theorem goes_settle (c : Conn) : Goes cf c (settle c (!c.closing)) false := by
  cases hk : c.closing with
  | true => exact goes_settle_err c
  | false =>
    cases hcur : c.cur with
    | none => exact goes_settle_none _ hcur
    | some s =>
      simp only [settle, hcur]
      refine goes_ended hcur ?_
      rw [hk]
      exact .allow

/-- A replacement that fails closes the connection or changes nothing, by the policy. -/
theorem goes_rewriteFail (cf' : Conf) : Goes cf c (rewriteFail cf' c) false := by
  unfold rewriteFail
  split
  · exact goes_setClose _
  · exact .refl c

/-- The change is made of moves, or of an end if the connection closes already. -/
def Settles (cf : Side → Conf) (c c' : Conn) : Prop :=
  ∃ o, Goes cf c c' o ∧ (o = true → c.closing = true)

theorem Goes.settles (h : Goes cf c c' false) : Settles cf c c' :=
  ⟨false, h, fun ho => by cases ho⟩

/-- A frame is replaced, or not, and its inspection ends. -/
theorem settles_swapIn (size : ℕ) (get : Fetch) (hcur : c.cur = some s) :
    Settles cf c (settle (swapIn cf s size get c) !(swapIn cf s size get c).closing) := by
  unfold swapIn
  split
  · split
    · rename_i d hd
      have hset : (c.set s d).cur = some s := hcur
      simp only [settle, hset, dir_set_self]
      change Settles cf c (if (!c.closing) = true then _ else _)
      cases hk : c.closing with
      | false =>
        have he : (c.set s d).ended s d.settleOk = c.ended s d.settleOk := by
          simp [Conn.ended, Conn.set]
        simp only [Bool.not_false, if_true, he]
        refine (goes_ended hcur ?_).settles
        rw [hk]
        exact .replace hd
      | true =>
        have he : (c.set s d).failed.ended s d.settleErr = c.failed.ended s d.settleErr := by
          have hcode : (c.set s d).closeCode = c.closeCode := rfl
          unfold Conn.failed
          rw [hcode]
          split <;> simp [Conn.ended, Conn.set, Conn.setClose]
        simp only [Bool.not_true, Bool.false_eq_true, if_false, he]
        exact ⟨true, goes_failed hcur ⟨_, .refl, .noReplace hd⟩, fun _ => hk⟩
    · exact ((goes_rewriteFail _).trans (goes_settle _)).settles
  · exact ((goes_rewriteFail _).trans (goes_settle _)).settles

/-- However a replacement ends, its frame is settled then. -/
theorem settles_rewrite {rw : Rewrite} (hcur : c.cur = some s) (h : rewrite cf s rw c = some c') :
    Settles cf c (settle c' !c'.closing) := by
  unfold rewrite at h
  split at h
  · obtain rfl := Option.some.inj h
    exact (goes_settle c).settles
  · split at h
    · obtain rfl := Option.some.inj h
      exact (goes_settle c).settles
    · split at h
      · obtain rfl := Option.some.inj h
        exact ((goes_rewriteFail _).trans (goes_settle _)).settles
      · split at h
        · cases h
        · obtain rfl := Option.some.inj h
          exact settles_swapIn _ _ hcur

/-- **A reply** of the inspectors: the frame is settled, or its replacement has to be fetched. -/
theorem settles_apply (c : Conn) (r : Reply) : Settles cf c (apply cf c r) := by
  unfold apply
  cases r with
  | refuse why =>
    cases why with
    | none => exact (goes_settle_err c).settles
    | some k => exact ((goes_setClose k).trans (goes_settle_err _)).settles
  | allow rw =>
    cases hcur : c.cur with
    | none => exact (goes_settle c).settles
    | some s =>
      dsimp only
      split
      · refine Goes.settles ?_
        exact goes_same rfl hcur.symm rfl rfl
      · rename_i c₁ h₁
        exact settles_rewrite hcur h₁

/-- An idle connection takes up a frame of one direction. -/
theorem goes_begin {d e : Dir} {key : Option Key} (hcur : c.cur = none)
    (h : Moves (cf s) (c.lane s) ⟨e, true, c.closing⟩) (he : { d with mask := key.getD d.mask } = e) :
    Goes cf c (c.begin s d key) false := by
  refine goes_of_moves id fun t => ?_
  by_cases ht : t = s
  · subst ht
    have hl : (c.begin t d key).lane t = ⟨e, true, c.closing⟩ := by
      rw [Conn.lane, busy_self rfl]
      simp only [Conn.begin, dir_set_self, he]
      rfl
    rw [hl]
    exact h
  · have hl : (c.begin s d key).lane t = c.lane t := by
      rw [Conn.lane, Conn.lane, busy_other rfl ht, busy_of_none hcur]
      simp only [Conn.begin, dir_set_other _ _ ht]
      rfl
    rw [hl]
    exact .refl

/-- A direction changes and the connection closes. -/
theorem goes_close {e : Dir} {k : Close} (hm : Moves (cf s) (c.lane s) ⟨e, c.busy s, true⟩) :
    Goes cf c ((c.set s e).setClose k) false := by
  refine goes_of_moves (fun _ _ => rfl) fun t => ?_
  by_cases ht : t = s
  · subst ht
    have hl : ((c.set t e).setClose k).lane t = ⟨e, c.busy t, true⟩ := by
      simp only [Conn.lane, Conn.setClose, dir_set_self]
      rfl
    rw [hl]
    exact hm
  · have hl : ((c.set s e).setClose k).lane t = ⟨c.dir t, c.busy t, true⟩ := by
      simp only [Conn.lane, Conn.setClose, dir_set_other _ _ ht]
      rfl
    rw [hl]
    exact .single .fail

/-- There is no memory for a frame of an idle connection. -/
theorem goes_noMemory {d e : Dir} {k : Close} (hcur : c.cur = none)
    (hm : Moves (cf s) (c.lane s) ⟨d, false, c.closing⟩)
    (he : End (cf s) ⟨d, false, c.closing⟩ ⟨e, false, true⟩) :
    Goes cf c ((c.set s e).setClose k) true := by
  refine fun _ => ⟨fun _ => rfl, fun _ => rfl, fun t => ?_⟩
  have hbusy : ((c.set s e).setClose k).busy t = false := busy_of_none hcur t
  by_cases ht : t = s
  · subst ht
    have hl : ((c.set t e).setClose k).lane t = ⟨e, false, true⟩ := by
      rw [Conn.lane, hbusy]
      simp only [Conn.setClose, dir_set_self]
    rw [hl]
    exact ⟨_, hm, he⟩
  · have hl : ((c.set s e).setClose k).lane t = ⟨c.dir t, false, true⟩ := by
      rw [Conn.lane, hbusy]
      simp only [Conn.setClose, dir_set_other _ _ ht]
    rw [hl]
    exact ⟨_, .refl, .finish⟩

/-- Handing a frame over: the connection waits, or there is no memory for the copy. -/
theorem goes_inspect {d e : Dir} {now : ℕ} {set : AuditSet} {p : Bytes} {key : Option Key}
    (answer : Answer) (hcur : c.cur = none) (hm : Moves (cf s) (c.lane s) ⟨d, false, c.closing⟩)
    (hf : Free d false) (h : parseStep (cf s) now set d = .inspect e p key) :
    ∃ o, Goes cf c (inspect cf s e p key answer c) o := by
  have hbegin : Goes cf c (c.begin s { e with handed := e.handed ++ [maskBy key p] } key) false :=
    goes_begin hcur (hm.tail (.ask hf h)) rfl
  unfold inspect
  cases answer with
  | noMemory => exact ⟨true, goes_noMemory hcur hm (.noMemory hf h)⟩
  | waits => exact ⟨false, hbegin⟩
  | settles r =>
    obtain ⟨o, ho, -⟩ := settles_apply _ r
    exact ⟨o, hbegin.trans ho⟩

/-- Writing a frame down needs memory as well. -/
theorem goes_journal {d e : Dir} {now : ℕ} {set : AuditSet} {p : Bytes} {key : Option Key}
    (answer : Answer) (hcur : c.cur = none) (hm : Moves (cf s) (c.lane s) ⟨d, false, c.closing⟩)
    (hf : Free d false) (h : parseStep (cf s) now set d = .journal e p key) :
    ∃ o, Goes cf c (journal cf s e key answer c) o := by
  have hbegin : Goes cf c (c.begin s { e.advance e.held with held := 0 } key) false :=
    goes_begin hcur (hm.tail (.journal hf h)) rfl
  obtain ⟨o, ho, -⟩ := @settles_apply cf
    (c.begin s { e.advance e.held with held := 0 } key) (.allow .none)
  unfold journal
  cases answer with
  | noMemory => exact ⟨true, goes_noMemory hcur hm (.noJournal hf h)⟩
  | waits => exact ⟨o, hbegin.trans ho⟩
  | settles r => exact ⟨o, hbegin.trans ho⟩

/-- After a turn the parser may run again. -/
theorem Free.keeps {d e : Dir} {b : Bool} (hf : Free d b) (hk : Keeps d e) : Free e b := by
  obtain ⟨hm, hd, ho⟩ := hf
  exact ⟨hm.imp_right fun h => hk.mode.trans h, hk.drop.trans hd, hk.out.trans ho⟩

/-- The loop is a sequence of turns, the last of which returns. -/
theorem parseLoop_moves {cf : Conf} {now : ℕ} {set : AuditSet} {n : ℕ} {d : Dir} {b k : Bool}
    {sc : Scan} (hf : Free d b) (h : parseLoop cf now set n d = some sc) :
    ∃ e, Moves cf ⟨d, b, k⟩ ⟨e, b, k⟩ ∧ Keeps d e ∧ Free e b ∧ parseStep cf now set e = sc ∧
      ∀ e', sc ≠ .next e' := by
  induction n generalizing d with
  | zero => cases h
  | succ n ih =>
    unfold parseLoop at h
    have hk := keeps_parseStep cf now set d
    cases hs : parseStep cf now set d with
    | next e =>
      rw [hs] at h hk
      obtain ⟨f, hm, hk', hf', hsc, hne⟩ := ih (hf.keeps hk) h
      exact ⟨f, .head (.next hf hs) hm, hk.trans hk', hf', hsc, hne⟩
    | _ =>
      rw [hs] at h
      obtain rfl := Option.some.inj h
      exact ⟨d, .refl, .refl d, hf, hs, fun _ he => by cases he⟩

theorem free_of_parses (h : c.parses s) : Free (c.dir s) (c.busy s) := by
  obtain ⟨hm, hd, ho⟩ := h
  exact ⟨hm.imp_left fun hcur => busy_of_none hcur s, hd, ho⟩

/-- The parser returns `NGX_AGAIN` after some turns and one that waits. -/
theorem parse_again (hp : c.parses s) (h : parse cf io s c = some (.again, c')) :
    ∃ d e, Moves (cf s) (c.lane s) ⟨d, c.busy s, c.closing⟩ ∧ Keeps (c.dir s) d ∧
      Free d (c.busy s) ∧ parseStep (cf s) io.now io.set d = .again e ∧ c' = c.set s e := by
  unfold parse at h
  split at h
  · cases h
  · cases h
  · rename_i e hloop
    obtain ⟨d, hm, hkeep, hf, hs, -⟩ := parseLoop_moves (k := c.closing) (free_of_parses hp) hloop
    cases h
    exact ⟨d, e, hm, hkeep, hf, hs, rfl⟩
  all_goals cases h

/-- A call of the parser, with what its answer does to the connection. -/
theorem goes_parse {rc : Rc} (hp : c.parses s) (h : parse cf io s c = some (rc, c')) :
    ∃ o, Goes cf c c' o := by
  have hfree := free_of_parses hp
  unfold parse at h
  cases hloop : parseLoop (cf s) io.now io.set (c.dir s).turns (c.dir s) with
  | none =>
    rw [hloop] at h
    cases h
  | some sc =>
    rw [hloop] at h
    obtain ⟨d, hm, -, hf, hs, hne⟩ := parseLoop_moves (k := c.closing) hfree hloop
    -- outside the pass mode the parser only runs when nothing is being inspected
    have hidle : d.mode ≠ .pass → c.cur = none := by
      intro hd
      rcases hp.1 with hcur | hmode
      · exact hcur
      · exact absurd (hm.fixed.1.trans hmode) hd
    cases sc with
    | next e => exact absurd rfl (hne e)
    | again e =>
      cases h
      exact ⟨false, goes_set (hm.tail (.again hf hs))⟩
    | close e k =>
      cases h
      exact ⟨false, goes_close (hm.tail (.close hf hs))⟩
    | journal e p key =>
      cases h
      have hcur := hidle (by rw [mode_of_journal hs]; decide)
      rw [busy_of_none hcur] at hm hf
      exact goes_journal io.answer hcur (by rwa [Conn.lane, busy_of_none hcur]) hf hs
    | inspect e p key =>
      cases h
      have hcur := hidle (by rw [mode_of_inspect hs]; decide)
      rw [busy_of_none hcur] at hm hf
      exact goes_inspect io.answer hcur (by rwa [Conn.lane, busy_of_none hcur]) hf hs

/-! ### The pump and the events -/

/-- How a turn of the pump ends, if it ends. -/
def Turn.ends : Turn → Conn → Prop
  | .again c, c' | .stop c, c' => c = c'
  | .hang, _ => False

/-- One direction in the middle of a turn. -/
def Mid (cf : Side → Conf) (s : Side) (c : Conn) (d : Dir) : Prop :=
  Moves (cf s) (c.lane s) ⟨d, c.busy s, c.closing⟩

theorem Mid.goes {d : Dir} (h : Mid cf s c d) : Goes cf c (c.set s d) false := goes_set h

/-- The end of a turn that reads from the socket. -/
theorem goes_pumpRecv {rc : Rc} {d : Dir} (hm : Mid cf s c d)
    (h : (pumpRecv io rc s c d).ends c') : Goes cf c c' false := by
  have hc : Mid cf s c (d.compacted (c.cur = some s)) := by
    unfold Dir.compacted
    split
    · rename_i hcond
      obtain ⟨hr, hb, hd, -⟩ := hcond
      have hb' : c.busy s = false := by simpa [Conn.busy] using hb
      unfold Mid at hm ⊢
      rw [hb'] at hm ⊢
      exact hm.tail (.compact hd hr)
    · exact hm
  unfold pumpRecv at h
  dsimp only at h
  generalize d.compacted (c.cur = some s) = e at h hc
  split at h
  · cases h
    exact Mid.goes (hc.tail (.recv _))
  · split at h
    · cases h
      exact hc.goes
    · cases h
      exact hc.goes

/-- The end of a turn that writes to the other socket. -/
theorem goes_pumpOut {rc : Rc} {d : Dir} (hm : Mid cf s c d)
    (h : (pumpOut io rc s c d).ends c') : Goes cf c c' false := by
  have hc : Mid cf s c (if d.drop ≠ 0 ∧ d.ready = [] then d.dropFront else d) := by
    split
    · rename_i hcond
      exact hm.tail (.dropFront hcond.1 hcond.2)
    · exact hm
  unfold pumpOut at h
  dsimp only at h
  generalize (if d.drop ≠ 0 ∧ d.ready = [] then d.dropFront else d) = e at h hc
  split at h
  · rename_i hcond
    split at h
    · exact goes_pumpRecv hc h
    · cases h
      exact hc.goes.trans goes_sendFailed
    · rename_i n _
      have hs : Mid cf s c (e.sendOut n) := hc.tail (.sendOut n hcond.1)
      split at h
      · cases h
        exact hs.goes
      · exact goes_pumpRecv hs h
  · exact goes_pumpRecv hc h

theorem goes_pumpSend {rc : Rc} (h : (pumpSend io rc s c).ends c') : Goes cf c c' false := by
  have hm : Mid cf s c (c.dir s) := .refl
  unfold pumpSend at h
  dsimp only at h
  split at h
  · split at h
    · exact goes_pumpOut hm h
    · cases h
      exact goes_sendFailed
    · rename_i n _
      exact goes_pumpOut (Relation.ReflTransGen.tail hm (.send n)) h
  · exact goes_pumpOut hm h

/-- A turn of the pump; the loop goes on only while the connection does. -/
theorem goes_pumpIter (h : (pumpIter cf io s c).ends c') :
    ∃ o, Goes cf c c' o ∧ (o = true → pumpIter cf io s c = .stop c') := by
  unfold pumpIter at h ⊢
  by_cases hp : c.parses s
  · rw [if_pos hp] at h ⊢
    cases hparse : parse cf io s c with
    | none =>
      rw [hparse] at h
      exact absurd h id
    | some r =>
      obtain ⟨rc, c₁⟩ := r
      rw [hparse] at h
      obtain ⟨o, hg⟩ := goes_parse hp hparse
      dsimp only at h ⊢
      by_cases hk : c₁.closing = true
      · rw [if_pos hk] at h ⊢
        cases h
        exact ⟨o, hg, fun _ => rfl⟩
      · rw [if_neg hk] at h ⊢
        refine ⟨false, fun hc => ?_, fun ho => by cases ho⟩
        have ho : o = false := by
          by_contra ho
          exact hk ((hg hc).2.1 (by simpa using ho))
        subst ho
        exact hg.trans (goes_pumpSend h) hc
  · rw [if_neg hp] at h ⊢
    exact ⟨false, goes_pumpSend h, fun ho => by cases ho⟩

/-- The turns of a pump, up to the one that stops. -/
theorem goes_pump {ios : List Io} (h : pump cf s ios c = some c') : ∃ o, Goes cf c c' o := by
  induction ios generalizing c with
  | nil =>
    cases h
    exact ⟨false, .refl _⟩
  | cons io ios ih =>
    unfold pump at h
    cases ht : pumpIter cf io s c with
    | hang =>
      rw [ht] at h
      cases h
    | stop c₁ =>
      rw [ht] at h
      cases h
      have hend : (pumpIter cf io s c).ends c' := by rw [ht]; rfl
      obtain ⟨o, hg, -⟩ := goes_pumpIter hend
      exact ⟨o, hg⟩
    | again c₁ =>
      rw [ht] at h
      have hend : (pumpIter cf io s c).ends c₁ := by rw [ht]; rfl
      obtain ⟨o, hg, ho⟩ := goes_pumpIter hend
      cases o with
      | false =>
        obtain ⟨o', hg'⟩ := ih h
        exact ⟨o', hg.trans hg'⟩
      | true =>
        rw [ht] at ho
        cases ho rfl

/-- A change after which an ended connection is gone, as every handler leaves it. -/
def Comes (cf : Side → Conf) (c c' : Conn) : Prop :=
  Coded c → ∃ o, Goes cf c c' o ∧ (o = true → c'.gone = true) ∧
    (c'.closing = true → c'.gone = true)

/-- A connection that ends is gone. -/
theorem comes_finalize (ready : Bool) (h : Goes cf c c' o) : Comes cf c (finalize ready c') :=
  fun _ => ⟨true, goes_finalize ready h, fun _ => rfl, fun _ => rfl⟩

theorem comes_conclude (ready : Bool) (h : Goes cf c c' o) : Comes cf c (conclude ready c') := by
  unfold conclude
  by_cases hk : c'.closing = true
  · rw [if_pos hk]
    exact comes_finalize ready h
  · rw [if_neg hk]
    refine fun hc => ⟨o, h, fun ho => absurd ((h hc).2.1 ho) hk, fun hk' => absurd hk' hk⟩

/-- A handler goes on with a connection that did not close. -/
theorem Goes.open {c'' : Conn} (h : Goes cf c c' o) (hk : c'.closing ≠ true)
    (h' : Comes cf c' c'') : Comes cf c c'' := by
  intro hc
  obtain ⟨hc', hko, -⟩ := h hc
  have ho : o = false := by
    by_contra ho
    exact hk (hko (by simpa using ho))
  subst ho
  obtain ⟨o', hg, hgone⟩ := h' hc'
  exact ⟨o', h.trans hg, hgone⟩

theorem comes_refl (hk : c.closing = true → c.gone = true) : Comes cf c c :=
  fun _ => ⟨false, .refl c, fun ho => (by cases ho), hk⟩

/-- A socket is ready: the pump runs, and a connection that closes is ended. -/
theorem comes_process {ios : List Io} {ready : Bool} (hk : c.closing = true → c.gone = true)
    (h : process cf s ios ready c = some c') : Comes cf c c' := by
  unfold process at h
  split at h
  · cases h
    exact comes_refl hk
  · obtain ⟨c₁, h₁, rfl⟩ := Option.map_eq_some_iff.1 h
    obtain ⟨o, hg⟩ := goes_pump h₁
    exact comes_conclude ready hg

theorem comes_run {ios ios' : List Io} {ready : Bool} (h : run cf ios ios' ready c = some c') :
    Comes cf c c' := by
  unfold run at h
  split at h
  · cases h
  · rename_i c₁ h₁
    obtain ⟨o, hg⟩ := goes_pump h₁
    split at h
    · cases h
      exact comes_finalize ready hg
    · rename_i hk
      obtain ⟨c₂, h₂, rfl⟩ := Option.map_eq_some_iff.1 h
      obtain ⟨o', hg'⟩ := goes_pump h₂
      exact hg.open hk (comes_conclude ready hg')

theorem Goes.comes {c'' : Conn} (h : Goes cf c c' false) (h' : Comes cf c' c'') :
    Comes cf c c'' := by
  intro hc
  obtain ⟨o', hg, hgone⟩ := h' (h hc).1
  exact ⟨o', h.trans hg, hgone⟩

/-- While a replacement is fetched nothing has closed the connection. -/
theorem closing_of_fetching {r : Reply} (h : (apply cf c r).fetching = true) :
    (apply cf c r).closing = c.closing := by
  have hsettle : ∀ (c : Conn) (ok : Bool), (settle c ok).fetching = false := by
    intro c ok
    unfold settle
    split
    · rfl
    · split <;> rfl
  unfold apply at h ⊢
  cases r with
  | refuse why =>
    rw [hsettle] at h
    cases h
  | allow rw =>
    cases hcur : c.cur with
    | none =>
      simp only [hcur, hsettle, Bool.false_eq_true] at h
    | some s =>
      simp only [hcur] at h ⊢
      cases hw : rewrite cf s rw c with
      | none => rfl
      | some c₁ =>
        simp only [hw, hsettle, Bool.false_eq_true] at h

/-- **Every event** leaves an open connection idle or waiting, and any other one gone. -/
theorem step_comes {e : Ev} (hk : c.closing = true → c.gone = true) (h : step cf c e = some c') :
    Comes cf c c' := by
  cases e with
  | process s ios ready => exact comes_process hk h
  | resume r ios ios' ready =>
    simp only [step, resume] at h
    split at h
    · cases h
      exact comes_refl hk
    · rename_i hlive
      have hopen : c.closing ≠ true := fun h0 => hlive (.inl (hk h0))
      obtain ⟨o, hg, ho⟩ := @settles_apply cf c r
      have ho' : o = false := by simpa using mt ho hopen
      subst ho'
      split at h
      · rename_i hfetch
        cases h
        refine fun _ => ⟨false, hg, fun h0 => (by cases h0), fun h0 => absurd h0 ?_⟩
        rw [closing_of_fetching hfetch]
        exact hopen
      · exact hg.comes (comes_run h)
  | fetched get ios ios' ready =>
    simp only [step, fetched] at h
    split at h
    · cases h
      exact comes_refl hk
    · rename_i s hcur
      split at h
      · cases h
        exact comes_refl hk
      · rename_i hlive
        have hopen : c.closing ≠ true := fun h0 => hlive (.inl (hk h0))
        obtain ⟨o, hg, ho⟩ := @settles_swapIn cf _ _ c.rewrite get hcur
        have ho' : o = false := by simpa using mt ho hopen
        subst ho'
        split at h
        · cases h
          exact comes_finalize ready hg
        · exact hg.comes (comes_run h)
  | lost ready =>
    simp only [step] at h
    split at h
    · cases h
      exact comes_refl hk
    · cases h
      exact comes_finalize ready (.refl c)

/-- What is gone stays as it is. -/
theorem step_gone {e : Ev} (hg : c.gone = true) (h : step cf c e = some c') : c' = c := by
  cases e with
  | process s ios ready =>
    rw [step, process, if_pos (.inl hg)] at h
    exact (Option.some.inj h).symm
  | resume r ios ios' ready =>
    rw [step, resume, if_pos (.inl hg)] at h
    exact (Option.some.inj h).symm
  | fetched get ios ios' ready =>
    rw [step, fetched] at h
    cases hcur : c.cur with
    | none =>
      rw [hcur] at h
      exact (Option.some.inj h).symm
    | some s =>
      simp only [hcur, if_pos (Or.inl hg : c.gone = true ∨ (!c.fetching) = true)] at h
      exact (Option.some.inj h).symm
  | lost ready =>
    rw [step, if_pos (.inl hg)] at h
    exact (Option.some.inj h).symm

theorem runs_gone {es : List Ev} (hg : c.gone = true) (h : runs cf es c = some c') : c' = c := by
  induction es with
  | nil => exact (Option.some.inj h).symm
  | cons e es ih =>
    unfold runs at h
    split at h
    · cases h
    · rename_i c₁ h₁
      rw [step_gone hg h₁] at h
      exact ih h

/-- Every run is a sequence of moves in each direction, and maybe an end. -/
theorem runs_comes {es : List Ev} (hk : c.closing = true → c.gone = true)
    (h : runs cf es c = some c') : Comes cf c c' := by
  induction es generalizing c with
  | nil =>
    cases h
    exact comes_refl hk
  | cons e es ih =>
    unfold runs at h
    split at h
    · cases h
    · rename_i c₁ h₁
      intro hc
      obtain ⟨o, hg, hgone, hk'⟩ := step_comes hk h₁ hc
      cases o with
      | false => exact hg.comes (ih hk' h) hc
      | true =>
        rw [runs_gone (hgone rfl) h]
        exact ⟨true, hg, hgone, hk'⟩

/-- A new connection. -/
theorem attach_spec {mode : Side → Mode} {seed : Side → Bytes} (h : attach cf mode seed = some c)
    (s : Side) : dirInit (cf s) (mode s) (s == .c2s) (seed s) = some (c.dir s) ∧ c.cur = none ∧
      c.closing = false ∧ Coded c := by
  unfold attach at h
  split at h
  · rename_i d e hd he
    cases h
    refine ⟨?_, rfl, rfl, fun h0 => absurd rfl h0⟩
    cases s with
    | c2s => exact hd
    | s2c => exact he
  · cases h

/-- A run from the attachment on, seen from one direction. -/
theorem runs_gets {mode : Side → Mode} {seed : Side → Bytes} {es : List Ev}
    (h0 : attach cf mode seed = some c) (h : runs cf es c = some c') (s : Side) :
    ∃ o, Gets (cf s) ⟨c.dir s, false, false⟩ (c'.lane s) o ∧ (o = true → c'.closing = true) := by
  obtain ⟨-, hcur, hk, hc⟩ := attach_spec h0 s
  obtain ⟨o, hg, -⟩ := runs_comes (fun hk' => by rw [hk] at hk'; cases hk') h hc
  obtain ⟨-, hko, hl⟩ := hg hc
  refine ⟨o, ?_, hko⟩
  have hl' := hl s
  rwa [Conn.lane, busy_of_none hcur, hk] at hl'

/-- As long as the connection is open, a run is a sequence of moves. -/
theorem runs_moves {mode : Side → Mode} {seed : Side → Bytes} {es : List Ev}
    (h0 : attach cf mode seed = some c) (h : runs cf es c = some c') (hk : c'.closing = false)
    (s : Side) : Moves (cf s) ⟨c.dir s, false, false⟩ (c'.lane s) := by
  obtain ⟨o, hl, hko⟩ := runs_gets h0 h s
  cases o with
  | false => exact hl
  | true =>
    rw [hk] at hko
    cases hko rfl

end Transfer

end Frames
