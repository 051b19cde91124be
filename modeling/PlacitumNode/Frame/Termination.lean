import PlacitumNode.Frame.Release

/-!
# When the parser returns

The loop of `ngx_http_waf_frame_parse` goes on after a turn that takes bytes, and after a turn that
sets `skip` to the size of a frame that is passed on.  The size is header and payload length read as
a signed 64-bit number: the check of the top bit keeps the payload length below `2 ^ 63`, but not
the sum, and a `skip` that is not positive leaves the next turn where this one stood.

* `Spins`: the turns that repeat themselves;
* `Turns`: the turns of one call;
* `parse_returns_iff`: the call returns exactly when none of its turns is one of these.
-/

namespace Frames

open Octets Framing Waves

variable {cf : Conf} {now : ℕ} {set : AuditSet} {d e : Dir} {h : Header}

/-! ### Turns -/

/-- One turn that goes on, and the turns of a call. -/
def Turns (cf : Conf) (now : ℕ) (set : AuditSet) : Dir → Dir → Prop :=
  Relation.ReflTransGen fun d e => parseStep cf now set d = .next e

/-- The data frame `h` is passed on without being looked at, and would be passed on again. -/
def PassesAgain (cf : Conf) (d : Dir) (h : Header) : Prop :=
  d.mode = .pass ∨
    cf.assembles d = false ∧ ¬(cf.bodyLimitPolicy = .block ∧ d.mode = .inspect) ∨
    cf.assembles d = true ∧ h.opcode ≠ 0 ∧ h.fin = true ∧ d.msg = false ∧ d.msgSkip = false ∧
      cf.bodyLimitPolicy ≠ .block ∨
    cf.assembles d = true ∧ h.opcode = 0 ∧ h.fin = false ∧
      (d.msgSkip = true ∨ d.msg = true ∧ cf.bodyLimitPolicy ≠ .block)

/-- The turn stands at a data frame that is passed on and whose size does not fit `off_t`. -/
def Spins (cf : Conf) (d : Dir) : Prop :=
  ∃ h, At d h ∧ h.opcode ≤ 2 ∧ 2 ^ 63 ≤ h.size ∧ PassesAgain cf d h

/-! ### The bytes behind `p` -/

theorem view_advance (d : Dir) (n : ℕ) : (d.advance n).view = d.view.drop n := by
  change (d.rest.drop n).drop d.hold = (d.rest.drop d.hold).drop n
  rw [List.drop_drop, List.drop_drop, Nat.add_comm]

theorem hold_lt (hv : d.view ≠ []) : d.hold < d.rest.length := by
  by_contra hle
  exact hv (List.drop_eq_nil_of_le (by omega))

theorem view_cut {n : ℕ} (hv : d.view ≠ []) : (d.cut n).view = d.view.drop n := by
  have hlt := hold_lt hv
  change (d.rest.take d.hold ++ d.view.drop n).drop d.hold = d.view.drop n
  exact List.drop_left' (by rw [List.length_take]; omega)

theorem view_letControl {n : ℕ} (hv : d.view ≠ []) (hn : n ≤ d.view.length) :
    (d.letControl n).view = d.view.drop n := by
  unfold Dir.letControl
  split
  · have hlt := hold_lt hv
    have htake : (d.view.take n).length = n := by
      rw [List.length_take]
      omega
    change ((d.view.take n ++ d.rest.take d.hold ++ d.view.drop n).drop n).drop d.hold = d.view.drop n
    rw [List.append_assoc, List.drop_left' htake]
    exact List.drop_left' (by rw [List.length_take]; omega)
  · exact view_advance d n

theorem view_msgStart (hm : d.msg = false) : (d.msgStart h).view = d.view.drop h.size := by
  rw [view_of_idle hm]
  rfl

theorem view_msgAppend (hm : d.msg = true) (hv : d.view ≠ []) (hn : h.size ≤ d.view.length) :
    (d.msgAppend h).view = d.view.drop h.size := by
  have hlt := hold_lt hv
  have hhold : (d.msgAppend h).hold = d.hold + h.plen := by
    simp only [Dir.hold, Dir.msgAppend, hm, if_true]
    omega
  have hpre : ∃ x : Bytes, x.length = d.hold + h.plen ∧
      (d.msgAppend h).rest = x ++ d.view.drop h.size := by
    refine ⟨_, ?_, rfl⟩
    rw [List.length_append, List.length_take, Nat.min_eq_left hlt.le]
    congr 1
    have hsrc : ((d.view.drop h.hlen).take h.plen).length = h.plen := by
      rw [List.length_take, List.length_drop]
      unfold Header.size at hn
      omega
    split
    · rw [length_maskAt, length_maskAt, hsrc]
    · exact hsrc
  obtain ⟨x, hx, hrest⟩ := hpre
  rw [Dir.view, hhold, hrest, List.drop_left' hx]

theorem view_giveUp (a : Bool) : (d.giveUp a h).view = d.view := by
  unfold Dir.giveUp
  split
  · next hm =>
    change ((leastHead d false d.msgOpcode d.msgKey d.msgLen ++ d.rest.drop d.msgHlen).drop
      ((leastHead d false d.msgOpcode d.msgKey d.msgLen).length + d.msgLen)).drop 0 = d.view
    rw [List.drop_zero, ← List.drop_drop, List.drop_left, List.drop_drop, Dir.view, Dir.hold,
      if_pos hm]
  · split <;> rfl

/-! ### One turn -/

/-- A turn that passes a frame on: what it asks of the frame, and how it leaves the message. -/
inductive LetBy (cf : Conf) (d : Dir) (h : Header) : Bool → Bool → Prop
  | pass (hm : d.mode = .pass) : LetBy cf d h d.msg d.msgSkip
  | skipped (hm : d.mode ≠ .pass) (ha : cf.assembles d = true) (ho : h.opcode = 0)
      (hk : d.msgSkip = true) : LetBy cf d h d.msg (!h.fin)
  | opened (hm : d.mode ≠ .pass) (hp : Placed cf d h) (hg : d.msg = true)
      (hb : cf.bodyLimit < d.total h → ¬(cf.bodyLimitPolicy = .block ∧ d.mode = .inspect)) :
      LetBy cf d h false (!h.fin)
  | idle (hm : d.mode ≠ .pass) (hp : Placed cf d h) (hg : d.msg = false)
      (hb : cf.bodyLimit < d.total h → ¬(cf.bodyLimitPolicy = .block ∧ d.mode = .inspect)) :
      LetBy cf d h false (d.msgSkip || (cf.assembles d && !h.fin && h.opcode != 0))

/-- The state after a frame was passed on: `p` is where it was. -/
structure PassedOn (cf : Conf) (d e : Dir) (h : Header) : Prop where
  at_ : At d h
  data : h.opcode ≤ 2
  view : e.view = d.view
  skip : e.skip = Machine.signed h.size
  mode : e.mode = d.mode
  masked : e.masked = d.masked
  passed : LetBy cf d h e.msg e.msgSkip

theorem view_ne_nil (hr : readHeader d.view = some h) : d.view ≠ [] := by
  intro hnil
  rw [hnil] at hr
  cases hr

/-- `PassedOn` from the state that `passOn` is called in. -/
theorem passedOn_of {d₁ : Dir} (hh : At d h) (ho : h.opcode ≤ 2) (hv : d₁.view = d.view)
    (hk : Keeps d d₁) (hp : LetBy cf d h d₁.msg d₁.msgSkip) : PassedOn cf d (d₁.passOn h) h := by
  obtain ⟨n, hn, he⟩ := Dir.passOn_eq d₁ h
  rw [he]
  exact ⟨hh, ho, hv, hn, hk.mode, hk.masked, hp⟩

theorem passedOn_giveUp (hh : At d h) (ho : h.opcode ≤ 2) (hm : d.mode ≠ .pass)
    (hp : Placed cf d h)
    (hb : cf.bodyLimit < d.total h → ¬(cf.bodyLimitPolicy = .block ∧ d.mode = .inspect)) :
    PassedOn cf d ((d.giveUp (cf.assembles d) h).passOn h) h := by
  refine passedOn_of hh ho (view_giveUp _) (keeps_giveUp d _ h) ?_
  cases hg : d.msg with
  | true =>
    unfold Dir.giveUp
    rw [if_pos hg]
    exact .opened hm hp hg hb
  | false =>
    rw [giveUp_idle hg]
    change LetBy cf d h d.msg _
    rw [hg]
    exact .idle hm hp hg hb

/-- **Every turn that goes on** takes bytes, or passes a frame on. -/
theorem next_cases (hn : parseStep cf now set d = .next e) :
    e.view.length < d.view.length ∨ d.skip ≤ 0 ∧ ∃ h, PassedOn cf d e h := by
  have hout := parseStep_out cf now set d
  have hshorter : ∀ {h : Header} {v : Bytes}, readHeader d.view = some h → v = d.view.drop h.size →
      v.length < d.view.length := by
    rintro h v hr rfl
    have hne := List.length_pos_iff.2 (view_ne_nil hr)
    have h2 := h.two_le_hlen
    rw [List.length_drop]
    unfold Header.size
    omega
  rw [hn] at hout
  cases hout with
  | skipDone hs ha =>
    left
    have hview : d.skipOver.view = d.view.drop (min d.skip d.view.length).toNat := by
      exact view_advance d _
    have hskip : d.skipOver.skip = d.skip - min d.skip d.view.length := rfl
    rw [hview, List.length_drop]
    omega
  | control t l hh ho hp ha =>
    exact .inl (hshorter hh.read (view_letControl (d := d.tally t l _) (view_ne_nil hh.read) ha))
  | controlCut t l hh ho hp ha =>
    exact .inl (hshorter hh.read (view_cut (d := d.tally t l _) (view_ne_nil hh.read)))
  | pass hh ho hm => exact .inr ⟨hh.skip, _, passedOn_of hh ho rfl (Keeps.refl d) (.pass hm)⟩
  | skipped hh hm ha ho hk =>
    exact .inr ⟨hh.skip, _, passedOn_of hh (by rw [ho]; decide) rfl (keeps_msgSkip d _)
      (.skipped hm ha ho hk)⟩
  | tooBig hh ho hm hp hl hb =>
    exact .inr ⟨hh.skip, _, passedOn_giveUp hh ho hm hp fun _ => hb⟩
  | extension hh ho hm hp hl hr =>
    exact .inr ⟨hh.skip, _, passedOn_giveUp hh ho hm hp fun hlt => absurd hlt (by omega)⟩
  | unjournaled hm hh => exact .inl (hshorter hh.read (view_advance d.counted _))
  | start hh ho hm hp hl hr hv ha hf hc =>
    exact .inl (hshorter hh.read (view_msgStart (d := d.counted) ((hp ha).2 hc).1))
  | append hh ho hm hp hl hr hv hf hg =>
    exact .inl (hshorter hh.read (view_msgAppend (d := d.counted) hg (view_ne_nil hh.read) hv))

/-! ### Frames that do not fit -/

theorem total_gt_of_size (cf : Conf) (d : Dir) (hl : 2 ^ 63 ≤ h.size) : cf.bodyLimit < d.total h := by
  have hlt := cf.bodyLimit_lt
  have h14 := h.hlen_le
  unfold Header.size at hl
  unfold Dir.total
  omega

theorem assembles_congr (hm : e.mode = d.mode) : cf.assembles e = cf.assembles d := by
  unfold Conf.assembles
  rw [hm]

theorem inspect_of_assembles (ha : cf.assembles d = true) : d.mode = .inspect := by
  unfold Conf.assembles at ha
  rw [Bool.and_eq_true, beq_iff_eq] at ha
  exact ha.2

/-- A frame that does not fit leaves `skip` negative: the next turn stands at the same frame. -/
theorem PassedOn.at_again (hp : PassedOn cf d e h) (hl : 2 ^ 63 ≤ h.size) : At e h := by
  have hh := hp.at_
  have h14 := h.hlen_le
  have hshort := hh.short
  have hneg : Machine.signed h.size < 0 := by
    refine Machine.signed_neg hl ?_
    unfold Header.size
    omega
  exact ⟨by rw [hp.skip]; omega, by rw [hp.view]; exact hh.read, hshort,
    by rw [hp.masked]; exact hh.mask⟩

/-- **A turn that is repeated.** -/
theorem PassedOn.again (hp : PassedOn cf d e h) (hl : 2 ^ 63 ≤ h.size) (ha : PassesAgain cf d h) :
    Spins cf e := by
  refine ⟨h, hp.at_again hl, hp.data, hl, ?_⟩
  have hassem : cf.assembles e = cf.assembles d := assembles_congr hp.mode
  have hpassed := hp.passed
  unfold PassesAgain at ha ⊢
  rw [hp.mode, hassem]
  rcases ha with ha | ha | ⟨ha, ho, hf, hg, hk, hb⟩ | ⟨ha, ho, hf, hor⟩
  · exact .inl ha
  · exact .inr (.inl ha)
  · right; right; left
    refine ⟨ha, ho, hf, ?_, ?_, hb⟩
    · generalize e.msg = m, e.msgSkip = k at hpassed
      cases hpassed <;> first | exact hg | rfl
    · generalize e.msg = m, e.msgSkip = k at hpassed
      cases hpassed with
      | pass hm => exact hk
      | skipped hm _ ho' => exact absurd ho' ho
      | opened hm hp' hg' => exact absurd (hg.symm.trans hg') (by decide)
      | idle hm hp' hg' => rw [hk, hf, Bool.not_true, Bool.and_false, Bool.false_and, Bool.or_false]
  · right; right; right
    refine ⟨ha, ho, hf, ?_⟩
    generalize e.msg = m, e.msgSkip = k at hpassed
    cases hpassed with
    | pass hm => exact hor
    | skipped hm _ _ hk => exact .inl (by rw [hf]; rfl)
    | opened hm hp' hg' => exact .inl (by rw [hf]; rfl)
    | idle hm hp' hg' => exact absurd (((hp' ha).1 ho).1.symm.trans hg') (by decide)

theorem parseStep_at (hh : At d h) (ho : h.opcode ≤ 2) : parseStep cf now set d =
    if d.mode = .pass then .next (d.passOn h) else parseData cf set h d := by
  have hskip := hh.skip
  have hshort := hh.short
  have h8 : ¬8 ≤ h.opcode := by omega
  have h2 : ¬2 < h.opcode := by omega
  unfold parseStep
  rw [if_neg (by omega), hh.read]
  simp only [parseFrame]
  rw [if_neg (by omega), if_neg (by simp [hh.mask]), if_neg h8, if_neg h2]

/-- A turn that stands at such a frame goes on, and stands there again. -/
theorem spins_next (hs : Spins cf d) : ∃ e, parseStep cf now set d = .next e ∧ Spins cf e := by
  obtain ⟨h, hh, ho, hl, ha⟩ := hs
  have htotal := total_gt_of_size cf d hl
  rw [parseStep_at hh ho]
  by_cases hpass : d.mode = .pass
  · rw [if_pos hpass]
    refine ⟨_, rfl, PassedOn.again (passedOn_of hh ho rfl (Keeps.refl d) (.pass hpass)) hl ha⟩
  · rw [if_neg hpass]
    -- past the checks on fragments, the frame is over the limit and passed on
    have hover : Placed cf d h → ¬(cf.bodyLimitPolicy = .block ∧ d.mode = .inspect) →
        ¬(cf.assembles d = true ∧ h.opcode = 0 ∧ d.msgSkip = true) →
        ∃ e, parseData cf set h d = .next e ∧ Spins cf e := by
      intro hp hb h1
      have h2 : ¬(cf.assembles d = true ∧ h.opcode = 0 ∧ (!d.msg) = true) := fun ⟨ha, h0, hg⟩ => by
        rw [((hp ha).1 h0).1] at hg
        cases hg
      have h3 : ¬(cf.assembles d = true ∧ h.opcode ≠ 0 ∧ (d.msg = true ∨ d.msgSkip = true)) := by
        rintro ⟨ha, h0, hg⟩
        rw [((hp ha).2 h0).1, ((hp ha).2 h0).2] at hg
        rcases hg with hg | hg <;> cases hg
      unfold parseData
      rw [if_neg h1, if_neg h2, if_neg h3, if_pos htotal, if_neg hb]
      exact ⟨_, rfl, (passedOn_giveUp hh ho hpass hp fun _ => hb).again hl ha⟩
    rcases ha with ha' | ⟨ha', hb⟩ | ⟨ha', ho', hf, hg, hk, hb⟩ | ⟨ha', ho', hf, hor⟩
    · exact absurd ha' hpass
    · exact hover (fun h1 => absurd (ha'.symm.trans h1) (by decide)) hb
        (fun h1 => absurd (ha'.symm.trans h1.1) (by decide))
    · exact hover (fun _ => ⟨fun h0 => absurd h0 ho', fun _ => ⟨hg, hk⟩⟩) (fun hb' => hb hb'.1)
        (fun h1 => ho' h1.2.1)
    · by_cases hk : d.msgSkip = true
      · unfold parseData
        rw [if_pos ⟨ha', ho', hk⟩]
        exact ⟨_, rfl, PassedOn.again (passedOn_of hh ho rfl (keeps_msgSkip d _)
          (.skipped hpass ha' ho' hk)) hl (.inr (.inr (.inr ⟨ha', ho', hf, hor⟩)))⟩
      · obtain ⟨hg, hb⟩ := hor.resolve_left hk
        exact hover (fun _ => ⟨fun _ => ⟨hg, by simpa using hk⟩, fun h0 => absurd ho' h0⟩)
          (fun hb' => hb hb'.1) (fun h1 => hk h1.2.2)

/-! ### The call -/

/-- How often a frame that does not fit may still be passed on before the parser closes. -/
def Dir.rank (d : Dir) (h : Header) : ℕ :=
  if h.opcode = 0 then 2 * d.msgSkip.toNat + d.msg.toNat
  else if d.msg || d.msgSkip then 0 else 1

/-- What gets smaller with every turn that goes on: first the bytes behind `p`. -/
def Dir.ahead (d : Dir) : ℕ :=
  10 * d.view.length + (if 0 < d.skip then 0 else 4) + ((readHeader d.view).map d.rank).getD 0

theorem rank_le (d : Dir) (h : Header) : d.rank h ≤ 3 := by
  unfold Dir.rank
  have h1 := Bool.toNat_le d.msgSkip
  have h2 := Bool.toNat_le d.msg
  split
  · omega
  · split <;> omega

theorem rank_getD_le (d : Dir) : ((readHeader d.view).map d.rank).getD 0 ≤ 3 := by
  cases readHeader d.view with
  | none => exact Nat.zero_le 3
  | some h => exact rank_le d h

/-- A frame that does not fit is passed on a few times only, unless the turn repeats itself. -/
theorem PassedOn.rank_lt (hp : PassedOn cf d e h) (hl : 2 ^ 63 ≤ h.size)
    (hn : ¬PassesAgain cf d h) : e.rank h < d.rank h := by
  have htotal := total_gt_of_size cf d hl
  have hpassed := hp.passed
  unfold PassesAgain at hn
  unfold Dir.rank
  generalize e.msg = m, e.msgSkip = k at hpassed ⊢
  cases hpassed with
  | pass hm => exact absurd (.inl hm) hn
  | skipped hm ha ho hk =>
    have hf : h.fin = true := by
      by_contra hf
      exact hn (.inr (.inr (.inr ⟨ha, ho, by simpa using hf, .inl hk⟩)))
    simp [ho, hk, hf]
  | opened hm hp' hg hb =>
    have hb' := hb htotal
    have ha : cf.assembles d = true := by
      by_contra ha
      exact hn (.inr (.inl ⟨by simpa using ha, hb'⟩))
    have hblock : cf.bodyLimitPolicy ≠ .block := fun h' => hb' ⟨h', inspect_of_assembles ha⟩
    have ho : h.opcode = 0 := by
      by_contra ho
      exact absurd (((hp' ha).2 ho).1.symm.trans hg) (by decide)
    have hf : h.fin = true := by
      by_contra hf
      exact hn (.inr (.inr (.inr ⟨ha, ho, by simpa using hf, .inr ⟨hg, hblock⟩⟩)))
    simp [ho, hg, hf]
  | idle hm hp' hg hb =>
    have hb' := hb htotal
    have ha : cf.assembles d = true := by
      by_contra ha
      exact hn (.inr (.inl ⟨by simpa using ha, hb'⟩))
    have hblock : cf.bodyLimitPolicy ≠ .block := fun h' => hb' ⟨h', inspect_of_assembles ha⟩
    have ho : h.opcode ≠ 0 := by
      intro ho
      exact absurd (((hp' ha).1 ho).1.symm.trans hg) (by decide)
    have hk := ((hp' ha).2 ho).2
    have hf : h.fin = false := by
      by_contra hf
      exact hn (.inr (.inr (.inl ⟨ha, ho, by simpa using hf, hg, hk, hblock⟩)))
    simp [ho, hg, hf, hk, ha]

/-- **Progress.** A turn that goes on without repeating itself makes what is ahead smaller. -/
theorem next_lt (hn : parseStep cf now set d = .next e) (hs : ¬Spins cf d) : e.ahead < d.ahead := by
  have hrank := rank_getD_le e
  rcases next_cases hn with hlt | ⟨hskip, h, hp⟩
  · unfold Dir.ahead
    split <;> omega
  · have h4 : (if 0 < d.skip then 0 else 4) = 4 := if_neg (by omega)
    unfold Dir.ahead
    rw [hp.view] at hrank ⊢
    by_cases hl : 2 ^ 63 ≤ h.size
    · have hlt := hp.rank_lt hl fun ha => hs ⟨h, hp.at_, hp.data, hl, ha⟩
      have hread := hp.at_.read
      have h0 : (if 0 < e.skip then 0 else 4) = 4 := if_neg (not_lt.2 (hp.at_again hl).skip)
      rw [hread, h4, h0, Option.map_some, Option.map_some, Option.getD_some, Option.getD_some]
      omega
    · have hsigned : Machine.signed h.size = h.size := Machine.signed_eq_self (by omega) (by omega)
      have h2 := h.two_le_hlen
      have hpos : 0 < e.skip := by
        rw [hp.skip, hsigned]
        unfold Header.size
        omega
      rw [if_pos hpos, h4]
      omega

/-- The loop of one call, from one turn to the next. -/
theorem parseLoop_next {n : ℕ} (hn : parseStep cf now set d = .next e) :
    parseLoop cf now set (n + 1) d = parseLoop cf now set n e := by
  rw [parseLoop, hn]

theorem returns_of_turns (ht : Turns cf now set d e)
    (hr : ∃ n r, parseLoop cf now set n d = some r) : ∃ n r, parseLoop cf now set n e = some r := by
  induction ht with
  | refl => exact hr
  | tail _ hstep ih =>
    obtain ⟨n, r, hn⟩ := ih
    cases n with
    | zero => cases hn
    | succ n =>
      rw [parseLoop_next hstep] at hn
      exact ⟨n, r, hn⟩

theorem not_returns_of_spins (hs : Spins cf d) (n : ℕ) : parseLoop cf now set n d = none := by
  induction n generalizing d with
  | zero => rfl
  | succ n ih =>
    obtain ⟨e, hn, hs'⟩ := @spins_next cf now set d hs
    rw [parseLoop_next hn]
    exact ih hs'

/-- Without a turn that repeats itself the call is back after as many turns as are ahead, and one. -/
theorem returns_of_ahead {n : ℕ} (hn : d.ahead < n)
    (hall : ∀ e, Turns cf now set d e → ¬Spins cf e) : ∃ r, parseLoop cf now set n d = some r := by
  induction n generalizing d with
  | zero => omega
  | succ n ih =>
    cases hstep : parseStep cf now set d with
    | next e =>
      have hlt := next_lt hstep (hall d .refl)
      rw [parseLoop_next hstep]
      exact ih (by omega) fun f hf => hall f (.head hstep hf)
    | again e => exact ⟨_, by rw [parseLoop, hstep]⟩
    | close e k => exact ⟨_, by rw [parseLoop, hstep]⟩
    | journal e p k => exact ⟨_, by rw [parseLoop, hstep]⟩
    | inspect e p k => exact ⟨_, by rw [parseLoop, hstep]⟩

/-- **When the parser returns.**  A call comes back exactly when none of its turns stands at a data
frame that is passed on, with header and payload of `2 ^ 63` bytes or more, and it comes back within
the turns ahead: any other turn that goes on takes bytes or passes a frame on, and fewer are ahead. -/
theorem parse_returns_iff (cf : Conf) (now : ℕ) (set : AuditSet) (d : Dir) :
    ((∃ n r, parseLoop cf now set n d = some r) ↔ ∀ e, Turns cf now set d e → ¬Spins cf e) ∧
      ((∀ e, Turns cf now set d e → ¬Spins cf e) →
        ∀ n, d.ahead < n → ∃ r, parseLoop cf now set n d = some r) ∧
      ∀ e f, parseStep cf now set e = .next f → ¬Spins cf e →
        (f.view.length < e.view.length ∨ e.skip ≤ 0 ∧ ∃ h, PassedOn cf e f h) ∧
          f.ahead < e.ahead := by
  refine ⟨⟨?_, fun hall => ?_⟩, fun hall n hn => returns_of_ahead hn hall,
    fun e f hstep hs => ⟨next_cases hstep, next_lt hstep hs⟩⟩
  · intro hr e ht hs
    obtain ⟨n, r, hn⟩ := returns_of_turns ht hr
    rw [not_returns_of_spins hs n] at hn
    cases hn
  · exact ⟨d.ahead + 1, returns_of_ahead (Nat.lt_succ_self _) hall⟩

/-- An empty message behind another one, in a direction that passes frames on. -/
theorem parse_returns_two : ∃ d, dirInit sampleConf .pass true
      [0x82, 0x81, 0, 0, 0, 0, 0x61, 0x82, 0x80, 0, 0, 0, 0] = some d ∧
    ∀ n, d.ahead < n → ∃ r, parseLoop sampleConf 0 .unset n d = some r := by
  refine ⟨_, rfl, ?_⟩
  have hparse := parse_returns_iff sampleConf 0 .unset
  exact (hparse _).2.1 ((hparse _).1.1 ⟨5, _, rfl⟩)

/-- A client frame of `2 ^ 63 - 1` bytes, of which the header has come. -/
def longHead : Bytes := [0x82, 0xff, 0x7f, 0xff, 0xff, 0xff, 0xff, 0xff, 0xff, 0xff, 0, 0, 0, 0]

/-- A direction that only passes frames on never returns from this one. -/
theorem parse_never_returns : ∃ d, dirInit sampleConf .pass true longHead = some d ∧
    ∀ n, parseLoop sampleConf 0 .unset n d = none := by
  refine ⟨_, rfl, fun n => not_returns_of_spins ?_ n⟩
  refine ⟨⟨true, 0, 2, true, .long, 2 ^ 63 - 1⟩, ⟨le_rfl, ?_, by decide, rfl⟩, by decide, by decide,
    .inl rfl⟩
  decide

end Frames
