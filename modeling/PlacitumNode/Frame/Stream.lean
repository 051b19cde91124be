import PlacitumNode.Frame.Moves

/-!
# A direction that reads a well-formed stream

* `Front`, `Stands`: what the buffer holds, when the bytes received so far are the beginning of the
  frames `fs`;
* `Turned`, `Stands.turn`: what a turn of the parser makes of the next frame;
* `Stands.move`: a direction that stands keeps standing.
-/

namespace Frames

open Octets Framing Waves

/-! ### Where a direction stands -/

/-- The bytes `x` in front of the unread ones, when the frames read so far leave `p` open: nothing,
the fragments of the open message, the frame that is inspected, or the frame that is replaced. -/
inductive Front (cf : Conf) (p : Option Partial) (x : Bytes) : Lane → Prop
  | idle {d : Dir} {k : Bool} (hm : d.msg = false) (hd : d.drop = 0)
      (hp : cf.assembles d = true → p = none) (hx : x = []) : Front cf p x ⟨d, false, k⟩
  | opened {d : Dir} {k : Bool} {m : Partial} {head : Bytes} (hm : d.msg = true) (hd : d.drop = 0)
      (ha : cf.assembles d = true) (hp : p = some m)
      (hx : x = head ++ maskBy m.lead.key m.payload) (hh : head.length = d.msgHlen)
      (hl : d.msgHlen = m.lead.header.hlen) (hn : d.msgLen = m.payload.length)
      (ho : d.msgOpcode = m.lead.opcode)
      (hk : m.lead.key = if d.masked then some d.msgKey else none) : Front cf p x ⟨d, false, k⟩
  | held {d : Dir} {k : Bool} (hm : d.msg = false) (hd : d.drop = 0)
      (hp : cf.assembles d = true → p = none) (hx : x.length = d.held) (h0 : 0 < d.held) :
      Front cf p x ⟨d, true, k⟩
  | replaced {d : Dir} {k : Bool} (hm : d.msg = false) (hx : x.length = d.drop) (h0 : d.drop ≠ 0)
      (hp : cf.assembles d = true → p = none) : Front cf p x ⟨d, false, k⟩

/-- The direction has read the frames `pre` of the stream `pre ++ post`, of which the bytes `fut`
have not come. -/
structure Stands (cf : Conf) (pre post : List Frame) (x unread fut : Bytes) (l : Lane) : Prop where
  wf : WellFormed l.dir.masked cf.bodyLimit none (pre ++ post)
  mode : l.dir.mode = .inspect
  skip : l.dir.skip = 0
  msgSkip : l.dir.msgSkip = false
  stream : l.dir.received ++ fut = encodeAll (pre ++ post)
  rest : l.dir.rest = x ++ unread
  ahead : unread ++ fut = encodeAll post
  front : Front cf (pending none pre) x l

variable {cf : Conf} {pre post : List Frame} {x unread fut : Bytes} {d : Dir} {b k : Bool}
  {h : Header} {f : Frame}

theorem next_frame (hr : readHeader unread = some h) (ha : unread ++ fut = encodeAll post) :
    ∃ f post', post = f :: post' ∧ h = f.header := by
  cases post with
  | nil =>
    have hu : unread = [] := (List.append_eq_nil_iff.1 ha).1
    rw [hu] at hr
    cases hr
  | cons f post' =>
    rw [encodeAll_cons] at ha
    exact ⟨f, post', rfl, Frame.readHeader_begins ha hr⟩

theorem whole_frame (hl : f.header.size ≤ unread.length)
    (ha : unread ++ fut = encodeAll (f :: post)) :
    ∃ u, unread = f.encode ++ u ∧ u ++ fut = encodeAll post := by
  rw [encodeAll_cons] at ha
  rcases List.append_eq_append_iff.1 ha with ⟨a, h₁, h₂⟩ | ⟨a, h₁, h₂⟩
  · have hlen := congrArg List.length h₁
    rw [f.length_encode, List.length_append] at hlen
    have ha0 : a = [] := List.eq_nil_of_length_eq_zero (by omega)
    subst ha0
    exact ⟨[], by rw [h₁]; simp, by rw [h₂]; rfl⟩
  · exact ⟨a, h₁, h₂.symm⟩

/-- A message is at least as long as each of its fragments. -/
theorem le_joined (p : Option Partial) (f : Frame) :
    f.payload.length ≤ (joined p f).payload.length := by
  unfold joined
  split
  · split
    · rw [List.length_append]
      omega
    · exact le_rfl
  · exact le_rfl

/-- The next frame of a stream is sound and fits. -/
theorem next_wellFormed {masked : Bool} {limit : ℕ}
    (hw : WellFormed masked limit none (pre ++ f :: post)) :
    f.Sound masked ∧ Fitting limit (pending none pre) f :=
  let hf := (wellFormed_append.1 hw).2
  ⟨hf.1, hf.2.1⟩

/-- What stands in front of the unread bytes is what the parser leaves out. -/
theorem Front.hold {p : Option Partial} (hf : Front cf p x ⟨d, false, k⟩) (hd : d.drop = 0) :
    d.hold = x.length := by
  cases hf with
  | idle hm _ _ hx =>
    rw [hx, Dir.hold, hm]
    rfl
  | opened hm _ _ _ hx hh _ hn =>
    rw [hx, Dir.hold, hm, List.length_append, length_maskBy, hh, hn]
    rfl
  | replaced _ _ h0 => exact absurd hd h0

theorem Stands.view (hs : Stands cf pre post x unread fut ⟨d, false, k⟩) (hd : d.drop = 0) :
    d.view = unread := by
  have hr : d.rest = x ++ unread := hs.rest
  rw [Dir.view, hs.front.hold hd, hr, List.drop_left]

/-- The length that is compared with the limit is at most that of the message. -/
theorem Stands.total_le (hs : Stands cf pre (f :: post) x unread fut ⟨d, false, k⟩)
    (hd : d.drop = 0) (hc : ¬f.IsControl) : d.total f.header ≤ cf.bodyLimit := by
  obtain ⟨-, hfit⟩ := next_wellFormed hs.wf
  obtain ⟨hop, hle⟩ := hfit hc
  refine le_trans ?_ hle
  have hfront := hs.front
  unfold Dir.total
  cases hfront with
  | idle hm =>
    rw [hm]
    exact le_joined _ f
  | @opened _ _ m _ hm _ _ hp _ _ _ hn =>
    rw [hp] at hop ⊢
    have h0 : f.opcode = 0 := hop.2 rfl
    simp [hm, hn, joined, h0, Frame.header, Nat.add_comm]
  | replaced _ _ h0 => exact absurd hd h0

/-- A well-formed stream is never closed by the parser. -/
theorem Stands.not_bad (hs : Stands cf pre (f :: post) x unread fut ⟨d, false, k⟩)
    (hd : d.drop = 0) : ¬Bad cf d f.header := by
  obtain ⟨hsound, hfit⟩ := next_wellFormed hs.wf
  intro hb
  cases hb with
  | long hl => exact absurd (Form.lt_of_fits f.fits) (not_lt.2 hl)
  | mask hm => exact hm hsound.mask
  | control ho hb =>
    obtain ⟨hfin, hop, hlen⟩ := hsound.control ho
    rcases hb with h₁ | h₁ | h₁
    · exact absurd (hfin.symm.trans h₁) (by decide)
    · exact absurd hlen (not_le.2 h₁)
    · exact absurd (Fin.lt_def.1 h₁) (not_lt.2 hop)
  | reserved ho ho' =>
    have hdata := hsound.data (not_le.2 ho')
    exact absurd (Fin.lt_def.1 ho) (not_lt.2 hdata)
  | alone ha ho hg =>
    have hc : ¬f.IsControl := by
      unfold Frame.IsControl
      rw [show f.opcode = 0 from ho]
      decide
    have hsome := (hfit hc).1.1 ho
    have hfront := hs.front
    cases hfront with
    | idle _ _ hp =>
      rw [hp ha] at hsome
      cases hsome
    | opened hm => exact absurd (hm.symm.trans hg) (by decide)
    | replaced _ _ h0 => exact absurd hd h0
  | interrupts ha ho ho' hg =>
    have hc : ¬f.IsControl := fun h8 => absurd (le_trans h8 (Fin.le_def.1 ho)) (by decide)
    have hfront := hs.front
    cases hfront with
    | idle hm =>
      rcases hg with hg | hg
      · exact absurd (hm.symm.trans hg) (by decide)
      · exact absurd (hs.msgSkip.symm.trans hg) (by decide)
    | opened _ _ _ hp =>
      rw [hp] at hfit
      exact ho' ((hfit hc).1.2 rfl)
    | replaced _ _ h0 => exact absurd hd h0
  | tooBig ho hl =>
    have hc : ¬f.IsControl := fun h8 => absurd (le_trans h8 (Fin.le_def.1 ho)) (by decide)
    exact absurd (hs.total_le hd hc) (not_le.2 hl)

/-! ### The edits -/

theorem Dir.letControl_eq {d : Dir} {x y u : Bytes} {n : ℕ} (hr : d.rest = x ++ (y ++ u))
    (hh : d.hold = x.length) (hn : n = y.length) :
    d.letControl n = { d with ready := d.ready ++ y, rest := x ++ u } := by
  have hv : d.view = y ++ u := by rw [Dir.view, hh, hr, List.drop_left]
  unfold Dir.letControl
  by_cases h0 : d.hold ≠ 0
  · rw [if_pos h0]
    have hx : d.rest.take d.hold = x := by rw [hh, hr, List.take_left]
    simp only [Dir.hoist, Dir.advance, hv, hx, hn, List.take_left, List.drop_left,
      List.append_assoc]
  · rw [if_neg h0]
    have hx : x = [] := List.eq_nil_of_length_eq_zero (by omega)
    subst hx
    simp only [Dir.advance, hr, hn, List.nil_append, List.take_left, List.drop_left]

theorem Dir.cut_eq {d : Dir} {x y u : Bytes} {n : ℕ} (hr : d.rest = x ++ (y ++ u))
    (hh : d.hold = x.length) (hn : n = y.length) : d.cut n = { d with rest := x ++ u } := by
  have hv : d.view = y ++ u := by rw [Dir.view, hh, hr, List.drop_left]
  have hx : d.rest.take d.hold = x := by rw [hh, hr, List.take_left]
  simp only [Dir.cut, hv, hx, hn, List.drop_left]

/-- The key that a direction puts on its frames. -/
def Dir.keyOf (d : Dir) (key : Key) : Option Key := if d.masked then some key else none

theorem Dir.keyAt_eq {d : Dir} {f : Frame} {u : Bytes} (hv : d.view = f.encode ++ u) :
    d.keyAt f.header = f.key := by
  unfold Dir.keyAt
  cases hk : f.key with
  | none => simp [Frame.header, hk]
  | some key =>
    rw [hv, Frame.readKey_encode hk]
    simp [Frame.header, hk]

theorem Dir.payloadAt_eq {d : Dir} {f : Frame} {u : Bytes} (hv : d.view = f.encode ++ u) :
    d.payloadAt f.header = maskBy f.key f.payload := by
  rw [Dir.payloadAt, hv, f.payload_encode]

/-- A continuation is put under the key of its message, at the place where it goes. -/
theorem Dir.msgAppend_eq {d : Dir} {f : Frame} {m : Partial} {x u : Bytes}
    (hr : d.rest = x ++ (f.encode ++ u)) (hh : d.hold = x.length) (hf : f.key.isSome = d.masked)
    (hk : m.lead.key = if d.masked then some d.msgKey else none) (hn : d.msgLen = m.payload.length)
    {head : Bytes} (hx : x = head ++ maskBy m.lead.key m.payload) :
    d.msgAppend f.header =
      { d with
        rest := head ++ maskBy m.lead.key (m.payload ++ f.payload) ++ u
        msgLen := d.msgLen + f.payload.length } := by
  have hv : d.view = f.encode ++ u := by rw [Dir.view, hh, hr, List.drop_left]
  have htake : d.rest.take d.hold = x := by rw [hh, hr, List.take_left]
  have hsrc := f.payload_encode u
  have hdrop := f.drop_encode_append u
  unfold Dir.msgAppend
  rw [hv, htake, hsrc, hdrop, hx]
  cases hm : d.masked with
  | true =>
    obtain ⟨key, hkey⟩ := Option.isSome_iff_exists.1 (hf.trans hm)
    rw [Frame.readKey_encode hkey]
    simp only [hkey, hk, hm, if_true, maskBy, maskAt_maskAt, maskAt_append, Nat.zero_add, hn,
      List.append_assoc]
    rfl
  | false =>
    have hkey : f.key = none := by simpa [hm] using hf
    simp only [hkey, hk, hm, Bool.false_eq_true, if_false, maskBy, List.append_assoc]
    rfl

/-- The frame that `ngx_http_waf_frame_msg_seal` makes. -/
def sealed (d : Dir) (payload : Bytes) (hn : payload.length < 2 ^ 63) : Frame :=
  ⟨true, 0, d.msgOpcode, Form.least payload.length, d.keyOf d.msgKey, payload, Form.fits_least hn⟩

theorem Dir.msgWhole_eq {d : Dir} {payload head u : Bytes} (hn : payload.length < 2 ^ 63)
    (hl : d.msgLen = payload.length) (hh : head.length = d.msgHlen)
    (hr : d.rest = head ++ (maskBy (d.keyOf d.msgKey) payload ++ u)) (masked : Bool) :
    d.msgWhole masked =
      let g := sealed d payload hn
      .inspect ({ d with rest := g.encode ++ u, msg := false }.holding g.header.size d.msgOpcode true)
        (maskBy g.key g.payload) (if masked then some d.msgKey else none) := by
  have hdrop : d.rest.drop d.msgHlen = maskBy (d.keyOf d.msgKey) payload ++ u := by
    rw [hr, ← hh, List.drop_left]
  have hhead : leastHead d true d.msgOpcode d.msgKey d.msgLen = (sealed d payload hn).head := by
    rw [hl]
    rfl
  unfold Dir.msgWhole Dir.msgSeal
  simp only [hhead, hdrop, Frame.length_head]
  have htake : ((((sealed d payload hn).head ++ (maskBy (d.keyOf d.msgKey) payload ++ u))).drop
      (sealed d payload hn).header.hlen).take d.msgLen = maskBy (d.keyOf d.msgKey) payload := by
    rw [List.drop_left' (Frame.length_head _), hl, List.take_left' (length_maskBy _ _)]
  rw [htake, hl]
  simp only [Frame.encode, List.append_assoc]
  rfl

/-! ### One turn of the parser -/

/-- What a turn makes of the next frame: it waits for more bytes, lets a control frame through or
drops it, keeps a fragment, or hands over a frame `g`. -/
inductive Turned (cf : Conf) (pre post : List Frame) (x unread fut : Bytes) (d : Dir) (k : Bool) :
    Scan → Prop
  | waits (hw : ∀ h, readHeader unread = some h → unread.length < h.size) :
      Turned cf pre post x unread fut d k (.again d)
  | control {f : Frame} {post' : List Frame} {u : Bytes} {e : Dir} (hp : post = f :: post')
      (hc : f.IsControl) (hr : e.ready = d.ready ++ f.encode) (hn : e.ctrlDropped = d.ctrlDropped)
      (hs : Stands cf (pre ++ [f]) post' x u fut ⟨e, false, k⟩) :
      Turned cf pre post x unread fut d k (.next e)
  | cut {f : Frame} {post' : List Frame} {u : Bytes} {e : Dir} (hp : post = f :: post')
      (hn : e.ctrlDropped = d.ctrlDropped + 1)
      (hs : Stands cf (pre ++ [f]) post' x u fut ⟨e, false, k⟩) :
      Turned cf pre post x unread fut d k (.next e)
  | fragment {f : Frame} {post' : List Frame} {x' u : Bytes} {e : Dir} (hp : post = f :: post')
      (hc : ¬f.IsControl) (hf : f.fin = false) (hr : e.ready = d.ready)
      (hn : e.ctrlDropped = d.ctrlDropped)
      (hs : Stands cf (pre ++ [f]) post' x' u fut ⟨e, false, k⟩) :
      Turned cf pre post x unread fut d k (.next e)
  | handed {f g : Frame} {post' : List Frame} {u p : Bytes} {e : Dir} {key : Option Key}
      (hp : post = f :: post') (hc : ¬f.IsControl) (hf : cf.assembles d = true → f.fin = true)
      (hr : e.ready = d.ready) (hn : e.ctrlDropped = d.ctrlDropped) (hg : maskBy key p = g.payload)
      (hj : cf.assembles d = true → g.fin = true ∧
        g.opcode = (joined (pending none pre) f).lead.opcode ∧
        g.payload = (joined (pending none pre) f).payload)
      (hs : Stands cf (pre ++ [f]) post' g.encode u fut ⟨e.begun p key, true, k⟩) :
      Turned cf pre post x unread fut d k (.inspect e p key)

theorem pending_concat (pre : List Frame) (f : Frame) :
    pending none (pre ++ [f]) = after (pending none pre) f := by
  rw [pending_append]
  rfl

theorem after_control {p : Option Partial} (hc : f.IsControl) : after p f = p := if_pos hc

theorem after_fin {p : Option Partial} (hc : ¬f.IsControl) (hf : f.fin = true) :
    after p f = none := by
  rw [after, if_neg hc, if_pos hf]

theorem after_fragment {p : Option Partial} (hc : ¬f.IsControl) (hf : f.fin = false) :
    after p f = some (joined p f) := by
  rw [after, if_neg hc, if_neg (by simp [hf])]

/-- The next frame is read: the stream is the same, one frame further. -/
theorem Stands.advance {e : Dir} {x' u : Bytes} {b b' k k' : Bool}
    (hs : Stands cf pre (f :: post) x unread fut ⟨d, b, k⟩)
    (hm : e.mode = d.mode) (hk : e.masked = d.masked) (hrecv : e.received = d.received)
    (hsk : e.skip = d.skip) (hms : e.msgSkip = d.msgSkip) (hr : e.rest = x' ++ u)
    (hu : u ++ fut = encodeAll post) (hf : Front cf (after (pending none pre) f) x' ⟨e, b', k'⟩) :
    Stands cf (pre ++ [f]) post x' u fut ⟨e, b', k'⟩ where
  wf := by
    have hl : (pre ++ [f]) ++ post = pre ++ f :: post := by simp
    rw [hl, hk]
    exact hs.wf
  mode := hm.trans hs.mode
  skip := hsk.trans hs.skip
  msgSkip := hms.trans hs.msgSkip
  stream := by
    have hl : (pre ++ [f]) ++ post = pre ++ f :: post := by simp
    rw [hl, hrecv]
    exact hs.stream
  rest := hr
  ahead := hu
  front := by
    rw [pending_concat]
    exact hf

section Turn

variable (hs : Stands cf pre (f :: post) x unread fut ⟨d, false, k⟩) (hd : d.drop = 0)
include hs hd

/-- The whole next frame, at the front of the unread bytes. -/
theorem Stands.split (hv : f.header.size ≤ d.view.length) :
    ∃ u, d.rest = x ++ (f.encode ++ u) ∧ d.hold = x.length ∧ d.view = f.encode ++ u ∧
      u ++ fut = encodeAll post := by
  have hview := hs.view hd
  rw [hview] at hv
  obtain ⟨u, hu, hfut⟩ := whole_frame hv hs.ahead
  have hr : d.rest = x ++ unread := hs.rest
  exact ⟨u, by rw [hr, hu], hs.front.hold hd, by rw [hview, hu], hfut⟩

/-- A control frame leaves the held message as it is. -/
theorem Stands.control {e : Dir} {u : Bytes} {t l n : ℕ} {r : Bytes} (hc : f.IsControl)
    (he : e = { d.tally t l n with ready := r, rest := x ++ u }) (hu : u ++ fut = encodeAll post) :
    Stands cf (pre ++ [f]) post x u fut ⟨e, false, k⟩ := by
  have hfront := hs.front
  subst he
  refine hs.advance rfl rfl rfl rfl rfl rfl hu ?_
  rw [after_control hc]
  cases hfront with
  | idle hm hd' hp hx => exact .idle hm hd' hp hx
  | opened hm hd' ha hp hx hh hl hn ho hk => exact .opened hm hd' ha hp hx hh hl hn ho hk
  | replaced _ _ h0 => exact absurd hd h0

theorem Stands.start {u : Bytes} (hr : d.rest = x ++ (f.encode ++ u)) (hh : d.hold = x.length)
    (hu : u ++ fut = encodeAll post) (ha : cf.assembles d = true) (hc : ¬f.IsControl)
    (hf : f.fin = false) (ho : f.opcode ≠ 0) :
    Stands cf (pre ++ [f]) post f.encode u fut ⟨d.counted.msgStart f.header, false, k⟩ := by
  obtain ⟨hsound, hfit⟩ := next_wellFormed hs.wf
  have hfront := hs.front
  cases hfront with
  | opened _ _ _ hp =>
    rw [hp] at hfit
    exact absurd ((hfit hc).1.2 rfl) ho
  | replaced _ _ h0 => exact absurd hd h0
  | idle hm hd' hp hx =>
    subst hx
    have hv : d.counted.view = f.encode ++ u := by
      change d.view = _
      rw [Dir.view, hh, hr]
      rfl
    refine hs.advance rfl rfl rfl rfl rfl hr hu ?_
    rw [after_fragment hc hf, hp ha]
    have hx : f.encode = f.head ++ maskBy f.key f.payload := rfl
    refine .opened (m := ⟨f, f.payload⟩) rfl hd' ha rfl hx f.length_head rfl rfl rfl ?_
    change f.key = if d.masked then some ((d.counted.keyAt f.header).getD d.msgKey) else none
    rw [Dir.keyAt_eq hv]
    have hmask := hsound.mask
    cases hk : f.key with
    | none =>
      rw [hk] at hmask
      rw [← show false = d.masked from hmask]
      rfl
    | some key =>
      rw [hk] at hmask
      rw [← show true = d.masked from hmask]
      rfl

theorem Stands.append {u : Bytes} (hr : d.rest = x ++ (f.encode ++ u)) (hh : d.hold = x.length)
    (hu : u ++ fut = encodeAll post) (hm : d.msg = true) (hc : ¬f.IsControl) (hf : f.fin = false) :
    ∃ x', Stands cf (pre ++ [f]) post x' u fut ⟨d.counted.msgAppend f.header, false, k⟩ := by
  obtain ⟨hsound, hfit⟩ := next_wellFormed hs.wf
  have hfront := hs.front
  cases hfront with
  | idle hm' => exact absurd (hm'.symm.trans hm) (by decide)
  | replaced _ _ h0 => exact absurd hd h0
  | @opened _ _ m head _ hd' ha hp hx hhead hl hn ho hk =>
    have h0 : f.opcode = 0 := by
      rw [hp] at hfit
      exact (hfit hc).1.2 rfl
    rw [Dir.msgAppend_eq (d := d.counted) hr hh hsound.mask hk hn hx]
    refine ⟨_, hs.advance rfl rfl rfl rfl rfl rfl hu ?_⟩
    rw [after_fragment hc hf, hp]
    have hj : joined (some m) f = ⟨m.lead, m.payload ++ f.payload⟩ := by simp [joined, h0]
    rw [hj]
    refine .opened hm hd' ha rfl rfl hhead hl ?_ ho hk
    simp [hn, Dir.counted]

/-- A message with all its fragments is handed over as one frame. -/
theorem Stands.whole {a : Dir} {payload y u : Bytes} (hk : Keeps d a) (hsk : a.skip = d.skip)
    (hms : a.msgSkip = d.msgSkip) (hready : a.ready = d.ready)
    (hn : a.ctrlDropped = d.ctrlDropped) (hlen : payload.length < 2 ^ 63)
    (hl : a.msgLen = payload.length) (hh : y.length = a.msgHlen)
    (hr : a.rest = y ++ (maskBy (a.keyOf a.msgKey) payload ++ u))
    (hu : u ++ fut = encodeAll post) (hc : ¬f.IsControl) (hf : f.fin = true)
    (hj : joined (pending none pre) f = ⟨(joined (pending none pre) f).lead, payload⟩)
    (ho : a.msgOpcode = (joined (pending none pre) f).lead.opcode) (hmask : f.header.masked = d.masked) :
    Turned cf pre (f :: post) x unread fut d k (a.msgWhole f.header.masked) := by
  rw [Dir.msgWhole_eq hlen hl hh hr]
  refine .handed (g := sealed a payload hlen) (u := u) rfl hc (fun _ => hf) hready hn ?_ (fun _ => ?_) ?_
  · rw [hmask, ← hk.masked]
    exact maskBy_maskBy _ _
  · rw [hj]
    exact ⟨rfl, ho, rfl⟩
  · refine hs.advance hk.mode hk.masked hk.received hsk hms rfl hu ?_
    rw [after_fin hc hf]
    refine .held rfl (hk.drop.trans hd) (fun _ => rfl) (Frame.length_encode _) ?_
    exact lt_of_lt_of_le (by decide) (le_trans (Header.two_le_hlen _) (Nat.le_add_right _ _))

theorem Stands.merged (hv : f.header.size ≤ d.view.length) (hm : d.msg = true)
    (hc : ¬f.IsControl) (hf : f.fin = true) (hmask : f.header.masked = d.masked) :
    Turned cf pre (f :: post) x unread fut d k
      ((d.counted.msgAppend f.header).msgWhole f.header.masked) := by
  obtain ⟨u, hr, hh, -, hu⟩ := hs.split hd hv
  obtain ⟨hsound, hfit⟩ := next_wellFormed hs.wf
  have htotal := hs.total_le hd hc
  have hfront := hs.front
  cases hfront with
  | idle hm' => exact absurd (hm'.symm.trans hm) (by decide)
  | replaced _ _ h0 => exact absurd hd h0
  | @opened _ _ m head _ hd' ha hp hx hhead hl hn ho hk =>
    have h0 : f.opcode = 0 := by
      rw [hp] at hfit
      exact (hfit hc).1.2 rfl
    have hj : joined (pending none pre) f = ⟨m.lead, m.payload ++ f.payload⟩ := by
      rw [hp]
      simp [joined, h0]
    have hlen : (m.payload ++ f.payload).length < 2 ^ 63 := by
      have hlt := cf.bodyLimit_lt
      have hplen : f.header.plen = f.payload.length := rfl
      simp only [Dir.total, hm, if_true, hn, hplen] at htotal
      rw [List.length_append]
      omega
    have happ := Dir.msgAppend_eq (d := d.counted) hr hh hsound.mask hk hn hx
    refine hs.whole hd ((keeps_counted d).trans (keeps_msgAppend _ f.header)) rfl rfl rfl rfl hlen ?_
      (y := head) (u := u) ?_ ?_ hu hc hf (by rw [hj]) (by rw [hj]; exact ho) hmask
    · rw [happ]
      simp [hn, Dir.counted]
    · exact hhead
    · rw [happ, hk, List.append_assoc]
      rfl

theorem Stands.single (hv : f.header.size ≤ d.view.length) (hm : d.msg = false)
    (hc : ¬f.IsControl) (hf : cf.assembles d = true → f.fin = true) :
    Turned cf pre (f :: post) x unread fut d k
      (.inspect (d.counted.holding f.header.size f.header.opcode f.header.fin)
        (d.payloadAt f.header) (d.keyAt f.header)) := by
  obtain ⟨u, hr, hh, hview, hu⟩ := hs.split hd hv
  have hfront := hs.front
  cases hfront with
  | opened hm' => exact absurd (hm'.symm.trans hm) (by decide)
  | replaced _ _ h0 => exact absurd hd h0
  | idle _ hd' hp hx =>
    subst hx
    rw [Dir.payloadAt_eq hview, Dir.keyAt_eq hview]
    refine .handed (g := f) (u := u) rfl hc hf rfl rfl (maskBy_maskBy _ _) (fun ha => ?_) ?_
    · rw [hp ha]
      exact ⟨hf ha, rfl, rfl⟩
    · refine hs.advance rfl rfl rfl rfl rfl hr hu ?_
      refine .held hm hd' (fun ha => after_fin hc (hf ha)) f.length_encode ?_
      exact lt_of_lt_of_le (by decide) (le_trans (Header.two_le_hlen _) (Nat.le_add_right _ _))

end Turn

/-- **One turn.** A direction that stands in a well-formed stream waits, or takes the next frame. -/
theorem Stands.turn {now : ℕ} {set : AuditSet} (hs : Stands cf pre post x unread fut ⟨d, false, k⟩)
    (hd : d.drop = 0) : Turned cf pre post x unread fut d k (parseStep cf now set d) := by
  have hview := hs.view hd
  -- a header at the front of the unread bytes is that of the next frame
  have hnext : ∀ {h : Header}, readHeader d.view = some h → ∃ f post', post = f :: post' ∧
      h = f.header := fun hr => next_frame (by rwa [hview] at hr) hs.ahead
  have hwait : ∀ {h : Header}, readHeader d.view = some h → d.view.length < h.size →
      ∀ h', readHeader unread = some h' → unread.length < h'.size := by
    intro h hr hlt h' hr'
    rw [hview] at hr hlt
    obtain rfl := Option.some.inj (hr.symm.trans hr')
    exact hlt
  have hdata : ∀ {f : Frame}, f.header.opcode ≤ 2 → ¬f.IsControl := fun ho h8 =>
    absurd (le_trans h8 (Fin.le_def.1 ho)) (by decide)
  have ho := parseStep_out cf now set d
  generalize parseStep cf now set d = sc at ho
  cases ho with
  | skipMore h₀ => exact absurd h₀ (by rw [show d.skip = 0 from hs.skip]; decide)
  | skipDone h₀ => exact absurd h₀ (by rw [show d.skip = 0 from hs.skip]; decide)
  | noHeader _ hr =>
    refine .waits fun h hr' => ?_
    rw [hview, hr'] at hr
    cases hr
  | close _ _ hr hb =>
    obtain ⟨f, post', rfl, rfl⟩ := hnext hr
    exact absurd hb (hs.not_bad hd)
  | controlShort hh _ _ ha => exact .waits (hwait hh.read ha)
  | dataShort hh _ _ _ _ _ ha => exact .waits (hwait hh.read ha)
  | control t l hh h8 _ ha =>
    obtain ⟨f, post', rfl, rfl⟩ := hnext hh.read
    obtain ⟨u, hr, hhold, -, hu⟩ := hs.split hd ha
    have he := Dir.letControl_eq (d := d.tally t l d.ctrlDropped) hr hhold f.length_encode.symm
    rw [he]
    exact .control rfl h8 rfl rfl (hs.control hd h8 rfl hu)
  | controlCut t l hh h8 _ ha =>
    obtain ⟨f, post', rfl, rfl⟩ := hnext hh.read
    obtain ⟨u, hr, hhold, -, hu⟩ := hs.split hd ha
    have he := Dir.cut_eq (d := d.tally t l (d.ctrlDropped + 1)) hr hhold f.length_encode.symm
    rw [he]
    exact .cut rfl rfl (hs.control hd h8 rfl hu)
  | pass _ _ hm => exact absurd (hm.symm.trans hs.mode) (by decide)
  | skipped _ _ _ _ hk => exact absurd (hk.symm.trans hs.msgSkip) (by decide)
  | tooBig hh ho₂ _ _ hl =>
    obtain ⟨f, post', rfl, rfl⟩ := hnext hh.read
    exact absurd (hs.total_le hd (hdata ho₂)) (not_le.2 hl)
  | extension hh _ _ _ _ hr =>
    obtain ⟨f, post', rfl, rfl⟩ := hnext hh.read
    exact absurd (next_wellFormed hs.wf).1.rsv hr
  | unjournaled hm => exact absurd (hm.symm.trans hs.mode) (by decide)
  | journal _ _ hm => exact absurd (hm.symm.trans hs.mode) (by decide)
  | start hh ho₂ _ _ _ _ hv ha hf hc =>
    obtain ⟨f, post', rfl, rfl⟩ := hnext hh.read
    obtain ⟨u, hr, hhold, -, hu⟩ := hs.split hd hv
    exact .fragment rfl (hdata ho₂) hf rfl rfl (hs.start hd hr hhold hu ha (hdata ho₂) hf hc)
  | append hh ho₂ _ _ _ _ hv hf hg =>
    obtain ⟨f, post', rfl, rfl⟩ := hnext hh.read
    obtain ⟨u, hr, hhold, -, hu⟩ := hs.split hd hv
    obtain ⟨x', hs'⟩ := hs.append hd hr hhold hu hg (hdata ho₂) hf
    exact .fragment rfl (hdata ho₂) hf rfl rfl hs'
  | merged hh ho₂ _ _ _ _ hv hf hg =>
    obtain ⟨f, post', rfl, rfl⟩ := hnext hh.read
    exact hs.merged hd hv hg (hdata ho₂) hf hh.mask
  | single hh ho₂ _ _ _ _ hv hg hf =>
    obtain ⟨f, post', rfl, rfl⟩ := hnext hh.read
    exact hs.single hd hv hg (hdata ho₂) hf

/-! ### The other moves -/

/-- Sending and moving the bytes in the buffer change nothing of what is read. -/
theorem Stands.sending {e : Dir} {o : ℕ} {r w v : Bytes} {k' : Bool}
    (hs : Stands cf pre post x unread fut ⟨d, b, k⟩)
    (he : e = { d with off := o, ready := r, out := w, sent := v }) :
    Stands cf pre post x unread fut ⟨e, b, k'⟩ := by
  subst he
  refine ⟨hs.wf, hs.mode, hs.skip, hs.msgSkip, hs.stream, hs.rest, hs.ahead, ?_⟩
  have hfront := hs.front
  cases hfront with
  | idle hm hd hp hx => exact .idle hm hd hp hx
  | opened hm hd ha hp hx hh hl hn ho hk => exact .opened hm hd ha hp hx hh hl hn ho hk
  | held hm hd hp hx h0 => exact .held hm hd hp hx h0
  | replaced hm hx h0 hp => exact .replaced hm hx h0 hp

theorem Stands.recv {bs : Bytes} (hs : Stands cf pre post x unread fut ⟨d, b, k⟩)
    (hp : (d.recv bs).received <+: encodeAll (pre ++ post)) :
    ∃ unread' fut', Stands cf pre post x unread' fut' ⟨d.recv bs, b, k⟩ := by
  obtain ⟨t, ht⟩ := hp
  have hr : (d.recv bs).received = d.received ++ bs.take d.room := rfl
  have hfut : fut = bs.take d.room ++ t := by
    have h := hs.stream
    rw [← ht, hr, List.append_assoc] at h
    exact List.append_cancel_left h
  refine ⟨unread ++ bs.take d.room, t, hs.wf, hs.mode, hs.skip, hs.msgSkip, ht, ?_, ?_, ?_⟩
  · have hrest : d.rest = x ++ unread := hs.rest
    change d.rest ++ bs.take d.room = _
    rw [hrest, List.append_assoc]
  · rw [List.append_assoc, ← hfut]
    exact hs.ahead
  · have hfront := hs.front
    cases hfront with
    | idle hm hd hp hx => exact .idle hm hd hp hx
    | opened hm hd ha hp hx hh hl hn ho hk => exact .opened hm hd ha hp hx hh hl hn ho hk
    | held hm hd hp hx h0 => exact .held hm hd hp hx h0
    | replaced hm hx h0 hp => exact .replaced hm hx h0 hp

/-- An allowed frame goes on. -/
theorem Stands.allow (hs : Stands cf pre post x unread fut ⟨d, true, k⟩) :
    d.rest.take d.held = x ∧ 0 < d.held ∧
      Stands cf pre post [] unread fut ⟨d.settleOk, false, k⟩ := by
  have hr : d.rest = x ++ unread := hs.rest
  have hfront := hs.front
  cases hfront with
  | held hm hd hp hx h0 =>
    refine ⟨by rw [hr, ← hx, List.take_left], h0, hs.wf, hs.mode, hs.skip, hs.msgSkip, hs.stream, ?_,
      hs.ahead, .idle hm hd hp rfl⟩
    change d.rest.drop d.held = _
    rw [hr, ← hx, List.drop_left]
    rfl

/-- A replaced frame waits to be dropped. -/
theorem Stands.replace {size : ℕ} {data : Bytes} {sha : Bool} {e : Dir}
    (hs : Stands cf pre post x unread fut ⟨d, true, k⟩) (he : d.swap cf size data sha = some e) :
    Stands cf pre post x unread fut ⟨e.settleOk, false, k⟩ := by
  obtain rfl := Dir.swap_eq he
  have hr : d.rest = x ++ unread := hs.rest
  have hfront := hs.front
  cases hfront with
  | held hm hd hp hx h0 =>
    refine ⟨hs.wf, hs.mode, hs.skip, hs.msgSkip, hs.stream, hr, hs.ahead, ?_⟩
    exact .replaced hm hx (Nat.pos_iff_ne_zero.1 h0) hp

theorem Stands.dropFront (hs : Stands cf pre post x unread fut ⟨d, b, k⟩) (hd : d.drop ≠ 0) :
    Stands cf pre post [] unread fut ⟨d.dropFront, b, k⟩ := by
  have hr : d.rest = x ++ unread := hs.rest
  have hfront := hs.front
  cases hfront with
  | idle _ hd' => exact absurd hd' hd
  | opened _ hd' => exact absurd hd' hd
  | held _ hd' => exact absurd hd' hd
  | replaced hm hx h0 hp =>
    refine ⟨hs.wf, hs.mode, hs.skip, hs.msgSkip, hs.stream, ?_, hs.ahead, .idle hm rfl hp rfl⟩
    change d.rest.drop d.drop = _
    rw [hr, ← hx, List.drop_left]
    rfl

/-- A direction reads a stream only when it is not taken up by a frame. -/
theorem Stands.idle_of_free (hs : Stands cf pre post x unread fut ⟨d, b, k⟩) (hf : Free d b) :
    b = false ∧ d.drop = 0 := by
  refine ⟨hf.1.resolve_right fun hp => ?_, hf.2.1⟩
  exact absurd (hp.symm.trans hs.mode) (by decide)

/-- The direction reads the stream of the frames `fs`. -/
def Reads (cf : Conf) (fs : List Frame) (l : Lane) : Prop :=
  ∃ pre post x unread fut, pre ++ post = fs ∧ Stands cf pre post x unread fut l

/-- **One move.** A direction that reads a well-formed stream goes on reading it, as long as no
frame is refused and the bytes that come are those of the stream. -/
theorem Reads.move {fs : List Frame} {l l' : Lane} (hr : Reads cf fs l) (hm : Move cf l l')
    (hn : l'.dir.Unrefused) (hp : l'.dir.received <+: encodeAll fs) : Reads cf fs l' := by
  obtain ⟨pre, post, x, unread, fut, rfl, hs⟩ := hr
  cases hm with
  | next hf h =>
    obtain ⟨rfl, hd⟩ := hs.idle_of_free hf
    have ht := h ▸ hs.turn hd
    cases ht with
    | control hp _ _ _ hs' => exact ⟨_, _, _, _, _, by rw [hp]; simp, hs'⟩
    | cut hp _ hs' => exact ⟨_, _, _, _, _, by rw [hp]; simp, hs'⟩
    | fragment hp _ _ _ _ hs' => exact ⟨_, _, _, _, _, by rw [hp]; simp, hs'⟩
  | again hf h =>
    obtain ⟨rfl, hd⟩ := hs.idle_of_free hf
    have ht := h ▸ hs.turn hd
    cases ht with
    | waits => exact ⟨_, _, _, _, _, rfl, hs⟩
  | close hf h =>
    obtain ⟨rfl, hd⟩ := hs.idle_of_free hf
    have ht := h ▸ hs.turn hd
    cases ht
  | journal hf h => exact absurd ((mode_of_journal h).symm.trans hs.mode) (by decide)
  | ask hf h =>
    have ht := h ▸ hs.turn (hs.idle_of_free hf).2
    cases ht with
    | handed hp _ _ _ _ _ _ hs' => exact ⟨_, _, _, _, _, by rw [hp]; simp, hs'⟩
  | allow => exact ⟨_, _, _, _, _, rfl, hs.allow.2.2⟩
  | refuse => exact absurd (List.mem_append_right _ (List.mem_singleton_self _)) (hn _ _)
  | replace h => exact ⟨_, _, _, _, _, rfl, hs.replace h⟩
  | send n => exact ⟨_, _, _, _, _, rfl, hs.sending rfl⟩
  | dropFront hd => exact ⟨_, _, _, _, _, rfl, hs.dropFront hd⟩
  | sendOut n => exact ⟨_, _, _, _, _, rfl, hs.sending rfl⟩
  | compact => exact ⟨_, _, _, _, _, rfl, hs.sending rfl⟩
  | recv bs =>
    obtain ⟨u, t, hs'⟩ := hs.recv hp
    exact ⟨_, _, _, _, _, rfl, hs'⟩
  | fail => exact ⟨_, _, _, _, _, rfl, hs.sending rfl⟩

/-- **Every run.** -/
theorem Reads.moves {fs : List Frame} {l l' : Lane} (hr : Reads cf fs l) (hm : Moves cf l l')
    (hn : l'.dir.Unrefused) (hp : l'.dir.received <+: encodeAll fs) : Reads cf fs l' := by
  induction hm with
  | refl => exact hr
  | tail _ hm ih => exact (ih (hm.grows.unrefused hn) (hm.grows.received.trans hp)).move hm hn hp

/-- A new direction has read nothing of its stream. -/
theorem reads_init {fs : List Frame} {masked : Bool} {seed : Bytes} {d : Dir}
    (h : dirInit cf .inspect masked seed = some d) (hw : WellFormed masked cf.bodyLimit none fs)
    (hp : seed <+: encodeAll fs) : Reads cf fs ⟨d, false, false⟩ := by
  unfold dirInit at h
  split at h
  · cases h
  · obtain ⟨fut, hfut⟩ := hp
    obtain rfl := Option.some.inj h
    exact ⟨[], fs, [], seed, fut, rfl, hw, rfl, rfl, rfl, hfut, rfl, hfut,
      .idle rfl rfl (fun _ => rfl) rfl⟩

theorem fresh_of_init {mode : Mode} {masked : Bool} {seed : Bytes} {d : Dir}
    (h : dirInit cf mode masked seed = some d) :
    d.received = seed ∧ d.log = [] ∧ d.size = bufSize cf mode seed.length := by
  unfold dirInit at h
  split at h
  · cases h
  · obtain rfl := Option.some.inj h
    exact ⟨rfl, rfl, rfl⟩

/-- Every run of a connection reads the stream of a direction, frame by frame. -/
theorem reads_runs {cf : Side → Conf} {mode : Side → Mode} {seed : Side → Bytes} {c c' : Conn}
    {es : List Ev} {s : Side} {fs : List Frame} (h0 : attach cf mode seed = some c)
    (hmode : mode s = .inspect) (hw : WellFormed (s == .c2s) (cf s).bodyLimit none fs)
    (h : runs cf es c = some c') (hp : (c'.dir s).received <+: encodeAll fs)
    (hk : c'.closing = false) : Reads (cf s) fs (c'.lane s) := by
  have hinit := (attach_spec h0 s).1
  have hm := runs_moves h0 h hk s
  obtain ⟨hseed, hlog, -⟩ := fresh_of_init hinit
  rw [hmode] at hinit
  refine (reads_init hinit hw ?_).moves hm ?_ hp
  · rw [← hseed]
    exact hm.grows.received.trans hp
  · intro b w hmem
    have hclosing := (Moves.wary hm (wary_of_nil hlog)) b w hmem
    exact absurd (hk.symm.trans hclosing) (by decide)

/-! ### A short stream -/

def zeroKey : Key := fun _ => 0

/-- Reassembly on, with the smallest limit for which the buffer is not the least one. -/
def sampleConf : Conf :=
  { frameReassemble := true, bodyLimit := 4060, bodyLimit_lt := by norm_num, bodyLimitPolicy := .block
    exceptionBody := .block, rewriteClose := ⟨1008, [], "policy"⟩, sendBodyStore := false
    frameControlRate := 0, auditFramesAll := false, auditFramesSample := 1 }

/-- Nothing is sent and nothing comes. -/
def idleIo : Io := ⟨0, .unset, .waits, .notReady, .notReady, []⟩

/-- Everything is allowed and sent. -/
def allowIo : Io := { idleIo with answer := .settles (.allow .none), send := .sends 100 }

/-- A fragmented message with a ping inside it. -/
def shortFrames : List Frame :=
  [⟨false, 0, 1, .short, some zeroKey, [1, 2, 3], by decide⟩,
    ⟨true, 0, 9, .short, some zeroKey, [4], by decide⟩,
    ⟨true, 0, 0, .short, some zeroKey, [5], by decide⟩]

theorem shortFrames_wellFormed : WellFormed true sampleConf.bodyLimit none shortFrames := by
  decide +kernel

end Frames
