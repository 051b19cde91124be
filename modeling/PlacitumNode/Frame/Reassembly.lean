import PlacitumNode.Frame.Stream

/-!
# Reassembly keeps the messages

With reassembly on, a direction whose frames are all allowed releases one frame for each message.

* `Passed`: the frames released so far and the one that is inspected carry what the frames read so
  far carry;
* `Passes.move`, `Passes.moves`: one move and a run keep it;
* `parse_returns`: on a well-formed stream the parser returns, and does not close;
* `reassembly_preserves`: every run.
-/

namespace Frames

open Octets Framing Waves

/-! ### Frames that are whole messages -/

/-- The data messages of a frame sequence. -/
def messages (fs : List Frame) : List (Fin 16 × Bytes) :=
  (deliveries none fs).filterMap Delivery.message

theorem pending_whole {fs : List Frame} (h : ∀ f ∈ fs, f.fin = true) : pending none fs = none := by
  induction fs with
  | nil => rfl
  | cons f fs ih =>
    have hf : after none f = none := by
      by_cases hc : f.IsControl
      · exact after_control hc
      · exact after_fin hc (h f (List.mem_cons_self ..))
    rw [pending, List.foldl_cons, hf]
    exact ih fun g hg => h g (List.mem_cons_of_mem _ hg)

theorem deliveries_concat (fs : List Frame) (f : Frame) :
    deliveries none (fs ++ [f]) = deliveries none fs ++ deliver (pending none fs) f := by
  rw [deliveries_append]
  simp only [deliveries, List.append_nil]

theorem messages_concat (fs : List Frame) (f : Frame) :
    messages (fs ++ [f]) =
      messages fs ++ (deliver (pending none fs) f).filterMap Delivery.message := by
  rw [messages, deliveries_concat, List.filterMap_append]
  rfl

theorem deliver_control {p : Option Partial} {f : Frame} (hc : f.IsControl) :
    deliver p f = [.control f.opcode f.payload] := if_pos hc

theorem deliver_fragment {p : Option Partial} {f : Frame} (hc : ¬f.IsControl)
    (hf : f.fin = false) : deliver p f = [] := by
  rw [deliver, if_neg hc, if_neg (by simp [hf])]

theorem deliver_fin {p : Option Partial} {f : Frame} (hc : ¬f.IsControl) (hf : f.fin = true) :
    deliver p f = [.data (joined p f).lead.opcode (joined p f).payload] := by
  rw [deliver, if_neg hc, if_pos hf]

/-! ### What has passed -/

def Outcome.isAllowed : Outcome → Bool
  | .allowed _ => true
  | _ => false

/-- Every frame was allowed as it was, and no control frame was dropped. -/
def Dir.Clean (d : Dir) : Prop := (∀ o ∈ d.log, o.isAllowed = true) ∧ d.ctrlDropped = 0

instance (d : Dir) : Decidable d.Clean := inferInstanceAs (Decidable (_ ∧ _))

theorem Dir.Clean.unrefused {d : Dir} (h : d.Clean) : d.Unrefused :=
  fun _ _ hmem => absurd (h.1 _ hmem) Bool.false_ne_true

theorem Grows.clean {l l' : Lane} (h : Grows l l') (hc : l'.dir.Clean) : l.dir.Clean :=
  ⟨fun o ho => hc.1 o (h.log.subset ho), Nat.le_zero.1 (hc.2 ▸ h.dropped)⟩

/-- The frames `out` are released, and `gs` is the frame that is inspected, if there is one. -/
structure Passed (pre out gs : List Frame) (x : Bytes) (l : Lane) : Prop where
  drop : l.dir.drop = 0
  empty : l.dir.out = []
  released : l.dir.sent ++ l.dir.ready = encodeAll out
  whole : ∀ g ∈ out ++ gs, g.fin = true
  same : deliveries none (out ++ gs) = deliveries none pre
  front : if l.busy then x = encodeAll gs else gs = []
  handed : l.dir.handed = (messages pre).map Prod.snd

/-- The direction reads the frames `fs` and lets what they carry pass. -/
def Passes (cf : Conf) (fs : List Frame) (l : Lane) : Prop :=
  ∃ pre post x unread fut out gs, pre ++ post = fs ∧
    Stands cf pre post x unread fut l ∧ Passed pre out gs x l

variable {cf : Conf} {pre post out gs fs : List Frame} {x x' unread fut : Bytes} {d e : Dir}
  {b k k' : Bool} {f g : Frame}

theorem Passes.reads {l : Lane} (h : Passes cf fs l) : Reads cf fs l := by
  obtain ⟨pre, post, x, unread, fut, out, gs, he, hs, -⟩ := h
  exact ⟨pre, post, x, unread, fut, he, hs⟩

/-- A control frame is released at once. -/
theorem Passed.control (hp : Passed pre out gs x ⟨d, false, k⟩) (hkeep : Keeps d e)
    (hr : e.ready = d.ready ++ f.encode) (hc : f.IsControl) (hf : f.fin = true) :
    Passed (pre ++ [f]) (out ++ [f]) [] x ⟨e, false, k'⟩ where
  drop := hkeep.drop.trans hp.drop
  empty := hkeep.out.trans hp.empty
  released := by
    have h : d.sent ++ d.ready = encodeAll out := hp.released
    change e.sent ++ e.ready = _
    rw [hkeep.sent, hr, ← List.append_assoc, h, encodeAll_append, encodeAll_cons, encodeAll_nil,
      List.append_nil]
  whole := by
    intro g hg
    rw [List.append_nil] at hg
    rcases List.mem_append.1 hg with hg | hg
    · exact hp.whole g (List.mem_append_left _ hg)
    · rw [List.mem_singleton.1 hg]
      exact hf
  same := by
    have hgs : gs = [] := hp.front
    have h := hp.same
    rw [hgs, List.append_nil] at h
    rw [List.append_nil, deliveries_concat, deliveries_concat, deliver_control hc,
      deliver_control hc, h]
  front := rfl
  handed := by
    have hnone : [Delivery.control f.opcode f.payload].filterMap Delivery.message = [] := rfl
    change e.handed = _
    rw [hkeep.handed, messages_concat, deliver_control hc, hnone, List.append_nil]
    exact hp.handed

/-- A fragment is neither released nor handed over. -/
theorem Passed.fragment (hp : Passed pre out gs x ⟨d, false, k⟩) (hkeep : Keeps d e)
    (hr : e.ready = d.ready) (hc : ¬f.IsControl) (hf : f.fin = false) :
    Passed (pre ++ [f]) out gs x' ⟨e, false, k'⟩ where
  drop := hkeep.drop.trans hp.drop
  empty := hkeep.out.trans hp.empty
  released := by
    change e.sent ++ e.ready = _
    rw [hkeep.sent, hr]
    exact hp.released
  whole := hp.whole
  same := by
    rw [deliveries_concat, deliver_fragment hc hf, List.append_nil]
    exact hp.same
  front := hp.front
  handed := by
    change e.handed = _
    rw [hkeep.handed, messages_concat, deliver_fragment hc hf, List.filterMap_nil, List.append_nil]
    exact hp.handed

/-- A whole message is handed over as the frame `g`. -/
theorem Passed.ask {p : Bytes} {key : Option Key} (hp : Passed pre out gs x ⟨d, false, k⟩)
    (hkeep : Keeps d e) (hr : e.ready = d.ready) (hc : ¬f.IsControl) (hf : f.fin = true)
    (hg : maskBy key p = g.payload) (hgc : ¬g.IsControl) (hgf : g.fin = true)
    (ho : g.opcode = (joined (pending none pre) f).lead.opcode)
    (hj : g.payload = (joined (pending none pre) f).payload) :
    Passed (pre ++ [f]) out [g] g.encode ⟨e.begun p key, true, k'⟩ where
  drop := hkeep.drop.trans hp.drop
  empty := hkeep.out.trans hp.empty
  released := by
    change e.sent ++ e.ready = _
    rw [hkeep.sent, hr]
    exact hp.released
  whole := by
    intro g' hg'
    rcases List.mem_append.1 hg' with h | h
    · exact hp.whole g' (List.mem_append_left _ h)
    · rw [List.mem_singleton.1 h]
      exact hgf
  same := by
    have hgs : gs = [] := hp.front
    have h := hp.same
    have hw := hp.whole
    rw [hgs, List.append_nil] at h hw
    rw [deliveries_concat, deliveries_concat, h, pending_whole hw, deliver_fin hc hf,
      deliver_fin hgc hgf, ← ho, ← hj]
    rfl
  front := by
    change g.encode = encodeAll [g]
    rw [encodeAll_cons, encodeAll_nil, List.append_nil]
  handed := by
    change e.handed ++ [maskBy key p] = _
    rw [hkeep.handed, hg, messages_concat, deliver_fin hc hf, ← hj]
    have h : d.handed = (messages pre).map Prod.snd := hp.handed
    simp [h, Delivery.message]

/-- The frame that was allowed is released. -/
theorem Passed.allow (hp : Passed pre out gs x ⟨d, true, k⟩) (hx : d.rest.take d.held = x) :
    Passed pre (out ++ gs) [] [] ⟨d.settleOk, false, k'⟩ where
  drop := hp.drop
  empty := hp.empty
  released := by
    have h : d.sent ++ d.ready = encodeAll out := hp.released
    have hfront : x = encodeAll gs := hp.front
    change d.sent ++ (d.ready ++ d.rest.take d.held) = _
    rw [hx, hfront, ← List.append_assoc, h, encodeAll_append]
  whole := by simpa using hp.whole
  same := by simpa using hp.same
  front := rfl
  handed := hp.handed

/-- Sending, receiving and moving bytes change nothing of what has passed. -/
theorem Passed.sending {o : ℕ} {r v w : Bytes} (hp : Passed pre out gs x ⟨d, b, k⟩)
    (hs : v ++ r = d.sent ++ d.ready)
    (he : e = { d with off := o, ready := r, rest := w, sent := v, received := unread }) :
    Passed pre out gs x ⟨e, b, k'⟩ := by
  subst he
  exact ⟨hp.drop, hp.empty, hs.trans hp.released, hp.whole, hp.same, hp.front, hp.handed⟩

theorem joined_data {p : Option Partial} (hp : ∀ m, p = some m → ¬m.lead.IsControl)
    (hc : ¬f.IsControl) : ¬(joined p f).lead.IsControl := by
  cases p with
  | none => exact hc
  | some m =>
    unfold joined
    dsimp only
    split
    · exact hp m rfl
    · exact hc

theorem pending_data {m : Partial} (h : pending none fs = some m) : ¬m.lead.IsControl := by
  induction fs using List.reverseRecOn generalizing m with
  | nil => cases h
  | append_singleton fs f ih =>
    rw [pending_concat] at h
    by_cases hc : f.IsControl
    · rw [after_control hc] at h
      exact ih h
    · cases hf : f.fin with
      | true =>
        rw [after_fin hc hf] at h
        cases h
      | false =>
        rw [after_fragment hc hf] at h
        obtain rfl := Option.some.inj h
        exact joined_data (fun _ => ih) hc

/-- **One move.** -/
theorem Passes.move {l l' : Lane} (hr : Passes cf fs l) (ha : cf.frameReassemble = true)
    (hm : Move cf l l') (hc : l'.dir.Clean) (hin : l'.dir.received <+: encodeAll fs) :
    Passes cf fs l' := by
  obtain ⟨pre, post, x, unread, fut, out, gs, rfl, hs, hp⟩ := hr
  have hassembles : cf.assembles l.dir = true := by
    rw [Conf.assembles, ha, hs.mode]
    rfl
  cases hm with
  | next hf h =>
    obtain ⟨rfl, hd⟩ := hs.idle_of_free hf
    have hkeep := keeps_of h
    have ht := h ▸ hs.turn hd
    cases ht with
    | control hpost hcon hr _ hs' =>
      rw [hpost] at hs
      have hfin := (next_wellFormed hs.wf).1.control hcon
      exact ⟨_, _, _, _, _, _, _, by rw [hpost]; simp, hs', hp.control hkeep hr hcon hfin.1⟩
    | cut _ hn =>
      have hzero : _ + 1 = 0 := hn.symm.trans hc.2
      cases hzero
    | fragment hpost hcon hfin hr _ hs' =>
      exact ⟨_, _, _, _, _, _, _, by rw [hpost]; simp, hs', hp.fragment hkeep hr hcon hfin⟩
  | again hf h =>
    obtain ⟨rfl, hd⟩ := hs.idle_of_free hf
    have ht := h ▸ hs.turn hd
    cases ht with
    | waits => exact ⟨_, _, _, _, _, _, _, rfl, hs, hp⟩
  | close hf h =>
    obtain ⟨rfl, hd⟩ := hs.idle_of_free hf
    have ht := h ▸ hs.turn hd
    cases ht
  | journal hf h => exact absurd ((mode_of_journal h).symm.trans hs.mode) (by decide)
  | ask hf h =>
    have hkeep := keeps_of h
    have ht := h ▸ hs.turn (hs.idle_of_free hf).2
    cases ht with
    | @handed f g _ _ _ _ _ hpost hcon hfin hr _ hg hj hs' =>
      obtain ⟨hgf, ho, hpay⟩ := hj hassembles
      have hgc : ¬g.IsControl := by
        rw [Frame.IsControl, ho]
        exact joined_data (fun _ => pending_data) hcon
      exact ⟨_, _, _, _, _, _, _, by rw [hpost]; simp, hs',
        hp.ask hkeep hr hcon (hfin hassembles) hg hgc hgf ho hpay⟩
  | allow =>
    obtain ⟨hx, -, hs'⟩ := hs.allow
    exact ⟨_, _, _, _, _, _, _, rfl, hs', hp.allow hx⟩
  | refuse =>
    exact absurd (List.mem_append_right _ (List.mem_singleton_self _)) (hc.unrefused _ _)
  | replace h =>
    obtain rfl := Dir.swap_eq h
    have hlast := hc.1 _ (List.mem_append_right _ (List.mem_singleton_self _))
    cases hlast
  | send n =>
    have hsent : ∀ d : Dir, (d.send n).sent ++ (d.send n).ready = d.sent ++ d.ready := by
      intro d
      simp [Dir.send, List.append_assoc, List.take_append_drop]
    exact ⟨_, _, _, _, _, _, _, rfl, hs.sending rfl, hp.sending (hsent _) rfl⟩
  | dropFront hd => exact absurd hp.drop hd
  | @sendOut d _ _ n =>
    have hout : d.out = [] := hp.empty
    rw [Dir.sendOut_nil hout]
    exact ⟨_, _, _, _, _, _, _, rfl, hs, hp⟩
  | compact => exact ⟨_, _, _, _, _, _, _, rfl, hs.sending rfl, hp.sending rfl rfl⟩
  | recv bs =>
    obtain ⟨u, t, hs'⟩ := hs.recv hin
    exact ⟨_, _, _, _, _, _, _, rfl, hs', hp.sending rfl rfl⟩
  | fail => exact ⟨_, _, _, _, _, _, _, rfl, hs.sending rfl, hp.sending rfl rfl⟩

/-- **Every run.** -/
theorem Passes.moves {l l' : Lane} (hr : Passes cf fs l) (ha : cf.frameReassemble = true)
    (hm : Moves cf l l') (hc : l'.dir.Clean) (hin : l'.dir.received <+: encodeAll fs) :
    Passes cf fs l' := by
  induction hm with
  | refl => exact hr
  | tail _ hm ih =>
    exact (ih (hm.grows.clean hc) (hm.grows.received.trans hin)).move ha hm hc hin

theorem passes_init {masked : Bool} {seed : Bytes} (h : dirInit cf .inspect masked seed = some d)
    (hw : WellFormed masked cf.bodyLimit none fs) (hp : seed <+: encodeAll fs) :
    Passes cf fs ⟨d, false, false⟩ := by
  unfold dirInit at h
  split at h
  · cases h
  · obtain ⟨fut, hfut⟩ := hp
    obtain rfl := Option.some.inj h
    refine ⟨[], fs, [], seed, fut, [], [], rfl, ?_, ?_⟩
    · exact ⟨hw, rfl, rfl, rfl, hfut, rfl, hfut, .idle rfl rfl (fun _ => rfl) rfl⟩
    · exact ⟨rfl, rfl, rfl, fun _ h => (by cases h), rfl, rfl, rfl⟩

/-! ### The parser on a well-formed stream -/

/-- The unread bytes get fewer with each frame that is read. -/
theorem unread_lt {u : Bytes} (h : unread ++ fut = encodeAll (f :: post))
    (h' : u ++ fut = encodeAll post) : u.length < unread.length := by
  have hlen := congrArg List.length h
  rw [encodeAll_cons, ← h', List.length_append, List.length_append, List.length_append,
    f.length_encode] at hlen
  have := f.header.two_le_hlen
  unfold Header.size at hlen
  omega

/-- The loop of the parser returns: it waits, or hands over a frame. -/
theorem Stands.loop {now n : ℕ} {set : AuditSet}
    (hs : Stands cf pre post x unread fut ⟨d, false, k⟩) (hd : d.drop = 0)
    (hn : unread.length < n) :
    (∃ e, parseLoop cf now set n d = some (.again e)) ∨
      ∃ e p key, parseLoop cf now set n d = some (.inspect e p key) := by
  induction n generalizing pre post x unread d with
  | zero => cases hn
  | succ n ih =>
    have hkeep := keeps_parseStep cf now set d
    have ht : Turned cf pre post x unread fut d k (parseStep cf now set d) := hs.turn hd
    have hahead := hs.ahead
    unfold parseLoop
    generalize parseStep cf now set d = sc at hkeep ht
    cases ht with
    | waits => exact .inl ⟨d, rfl⟩
    | control hp _ _ _ hs' =>
      have := unread_lt (hp ▸ hahead) hs'.ahead
      exact ih hs' (hkeep.drop.trans hd) (by omega)
    | cut hp _ hs' =>
      have := unread_lt (hp ▸ hahead) hs'.ahead
      exact ih hs' (hkeep.drop.trans hd) (by omega)
    | fragment hp _ _ _ _ hs' =>
      have := unread_lt (hp ▸ hahead) hs'.ahead
      exact ih hs' (hkeep.drop.trans hd) (by omega)
    | handed => exact .inr ⟨_, _, _, rfl⟩

/-- On a well-formed stream the parser returns: `NGX_AGAIN`, or `NGX_OK` with a frame to inspect. -/
theorem parse_returns {cf : Side → Conf} {c : Conn} {s : Side} (io : Io)
    (hr : Reads (cf s) fs (c.lane s)) (hp : c.parses s) :
    (∃ c', parse cf io s c = some (.again, c')) ∨
      ∃ d p key, parse cf io s c = some (.ok, inspect cf s d p key io.answer c) := by
  obtain ⟨pre, post, x, unread, fut, -, hs⟩ := hr
  obtain ⟨hb, hd⟩ := hs.idle_of_free (free_of_parses hp)
  rw [Conn.lane, hb] at hs
  have hrest : (c.dir s).rest = x ++ unread := hs.rest
  have hn : unread.length < (c.dir s).turns := by
    rw [Dir.turns, hrest, List.length_append]
    omega
  rcases hs.loop hd hn with ⟨e, he⟩ | ⟨e, p, key, he⟩
  · exact .inl ⟨c.set s e, by rw [parse, he]⟩
  · exact .inr ⟨e, p, key, by rw [parse, he]⟩

/-! ### Every run -/

/-- The bytes released decode to frames that are whole messages and carry the deliveries `ds`. -/
def Dir.Releases (d : Dir) (ds : List Delivery) : Prop :=
  ∃ out, decode (d.sent ++ d.ready) = some out ∧ (∀ g ∈ out, g.fin = true) ∧
    deliveries none out = ds

theorem Passes.releases {l : Lane} (h : Passes cf fs l) :
    (∃ ds, l.dir.Releases ds ∧ ds <+: deliveries none fs) ∧
      l.dir.handed <+: (messages fs).map Prod.snd := by
  obtain ⟨pre, post, x, unread, fut, out, gs, rfl, -, hp⟩ := h
  have hfs : deliveries none pre <+: deliveries none (pre ++ post) := by
    rw [deliveries_append]
    exact List.prefix_append _ _
  have hout : deliveries none out <+: deliveries none pre := by
    rw [← hp.same, deliveries_append]
    exact List.prefix_append _ _
  have hdecode : decode (l.dir.sent ++ l.dir.ready) = some out := by
    rw [hp.released, decode_encodeAll]
  refine ⟨⟨_, ⟨out, hdecode, ?_, rfl⟩, hout.trans hfs⟩, ?_⟩
  · exact fun g hg => hp.whole g (List.mem_append_left _ hg)
  · rw [hp.handed]
    exact (hfs.filterMap _).map _

/-- When all of the stream has come and the parser waits, everything has passed. -/
theorem Passes.complete {now : ℕ} {set : AuditSet} (h : Passes cf fs ⟨d, false, k⟩)
    (hstep : parseStep cf now set d = .again e) (hall : d.received = encodeAll fs) :
    e = d ∧ d.Releases (deliveries none fs) ∧ d.handed = (messages fs).map Prod.snd := by
  obtain ⟨pre, post, x, unread, fut, out, gs, rfl, hs, hp⟩ := h
  have ht := hstep ▸ hs.turn hp.drop
  cases ht with
  | waits hw =>
    have hfut : fut = [] := by
      have h := hs.stream
      rw [show d.received = _ from hall] at h
      simpa using h
    have hahead := hs.ahead
    rw [hfut, List.append_nil] at hahead
    -- a frame that is left would be there as a whole
    have hpost : post = [] := by
      cases post with
      | nil => rfl
      | cons f post =>
        have hlt := hw f.header (by rw [hahead, encodeAll_cons]; exact f.readHeader_encode _)
        rw [hahead, encodeAll_cons, List.length_append, f.length_encode] at hlt
        omega
    subst hpost
    rw [List.append_nil]
    have hgs : gs = [] := hp.front
    subst hgs
    have hsame := hp.same
    have hwhole := hp.whole
    rw [List.append_nil] at hsame hwhole
    refine ⟨rfl, ⟨out, ?_, hwhole, hsame⟩, hp.handed⟩
    rw [show d.sent ++ d.ready = _ from hp.released, decode_encodeAll]

/-- In every run the direction lets pass what the frames that came carry. -/
theorem passes_runs {cf : Side → Conf} {mode : Side → Mode} {seed : Side → Bytes} {c c' : Conn}
    {es : List Ev} {s : Side} (h0 : attach cf mode seed = some c) (hmode : mode s = .inspect)
    (ha : (cf s).frameReassemble = true) (hw : WellFormed (s == .c2s) (cf s).bodyLimit none fs)
    (h : runs cf es c = some c') (hin : (c'.dir s).received <+: encodeAll fs)
    (hc : (c'.dir s).Clean) :
    ∃ l, Passes (cf s) fs l ∧ (c'.closing = false → l = c'.lane s) ∧
      l.dir.sent = (c'.dir s).sent ∧ l.dir.ready = (c'.dir s).ready ∧
      l.dir.handed = (c'.dir s).handed := by
  have hinit := (attach_spec h0 s).1
  have hseed := (fresh_of_init hinit).1
  rw [hmode] at hinit
  have hfrom : ∀ l, Moves (cf s) ⟨c.dir s, false, false⟩ l → l.dir.Clean →
      l.dir.received <+: encodeAll fs → Passes (cf s) fs l := by
    intro l hm hcl hinl
    refine (passes_init hinit hw ?_).moves ha hm hcl hinl
    rw [← hseed]
    exact hm.grows.received.trans hinl
  obtain ⟨o, hl, hk⟩ := runs_gets h0 h s
  cases o with
  | false => exact ⟨c'.lane s, hfrom _ hl hc hin, fun _ => rfl, rfl, rfl, rfl⟩
  | true =>
    obtain ⟨l, hm, hend⟩ := hl
    obtain ⟨hsent, hready, hhanded, hg⟩ := hend.keeps
    refine ⟨l, hfrom l hm (hg.clean hc) (hg.received.trans hin), ?_, hsent.symm, hready.symm,
      hhanded.symm⟩
    intro hopen
    rw [hk rfl] at hopen
    cases hopen

/-- **Reassembly preserves meaning.** In every run on a well-formed stream in which every frame is
allowed as it is and no control frame is dropped, what is released carries the messages and control
frames of the stream in their order, as whole frames, and the payloads handed over are those of the
messages; and whenever the parser runs, it hands over a frame, or waits, and then nothing of what
has come is missing. -/
theorem reassembly_preserves {cf : Side → Conf} {mode : Side → Mode} {seed : Side → Bytes}
    {c c' : Conn} {es : List Ev} {s : Side} {fs : List Frame} (h0 : attach cf mode seed = some c)
    (hmode : mode s = .inspect) (ha : (cf s).frameReassemble = true)
    (hw : WellFormed (s == .c2s) (cf s).bodyLimit none fs) (h : runs cf es c = some c')
    (hin : (c'.dir s).received <+: encodeAll fs) (hc : (c'.dir s).Clean) :
    (∃ ds, (c'.dir s).Releases ds ∧ ds <+: deliveries none fs) ∧
      (c'.dir s).handed <+: (messages fs).map Prod.snd ∧
      ∀ io, c'.closing = false → c'.parses s →
        (∃ c'', parse cf io s c' = some (.again, c'') ∧
          ((c''.dir s).Clean → (c'.dir s).received = encodeAll fs →
            (c''.dir s).Releases (deliveries none fs) ∧
              (c''.dir s).handed = (messages fs).map Prod.snd)) ∨
        ∃ d p key, parse cf io s c' = some (.ok, inspect cf s d p key io.answer c') := by
  obtain ⟨l, hp, hopen, hsent, hready, hhanded⟩ := passes_runs h0 hmode ha hw h hin hc
  obtain ⟨⟨ds, ⟨out, hdec, hfin, hds⟩, hpre⟩, hhand⟩ := hp.releases
  rw [hsent, hready] at hdec
  rw [hhanded] at hhand
  refine ⟨⟨ds, ⟨out, hdec, hfin, hds⟩, hpre⟩, hhand, fun io hk hparses => ?_⟩
  have hpass : Passes (cf s) fs (c'.lane s) := hopen hk ▸ hp
  rcases parse_returns io hpass.reads hparses with ⟨c'', hparse⟩ | hother
  · refine .inl ⟨c'', hparse, fun hclean hall => ?_⟩
    obtain ⟨d, e, hm, hkeep, hf, hstep, rfl⟩ := parse_again hparses hparse
    rw [dir_set_self] at hclean ⊢
    have hdclean : d.Clean :=
      (@grows_of_scan _ _ _ _ _ false false false false hstep id).clean hclean
    have hpd := hpass.moves ha hm hdclean (by rw [hkeep.received]; exact hin)
    obtain ⟨pre, post, x, unread, fut, -, hs⟩ := hpd.reads
    rw [(hs.idle_of_free hf).1] at hpd
    obtain ⟨rfl, hrel⟩ := hpd.complete hstep (by rw [hkeep.received, hall])
    exact hrel
  · exact .inr hother

/-- The ping goes first, then the message as one frame. -/
theorem reassembly_preserves_ping :
    ∃ c c', attach (fun _ => sampleConf) (fun _ => .inspect)
        (Side.pick (encodeAll shortFrames) []) = some c ∧
      runs (fun _ => sampleConf) [.process .c2s [allowIo, allowIo] true] c = some c' ∧
      (c'.dir .c2s).sent = [0x89, 0x81, 0, 0, 0, 0, 4, 0x81, 0x84, 0, 0, 0, 0, 1, 2, 3, 5] ∧
      ∃ ds, (c'.dir .c2s).Releases ds ∧ ds <+: deliveries none shortFrames := by
  refine ⟨_, _, rfl, rfl, rfl, ?_⟩
  refine (@reassembly_preserves (fun _ => sampleConf) (fun _ => .inspect)
    (Side.pick (encodeAll shortFrames) []) _ _ [.process .c2s [allowIo, allowIo] true] .c2s
    shortFrames rfl rfl rfl shortFrames_wellFormed rfl ?_ ?_).1
  · exact List.prefix_rfl
  · decide +kernel

end Frames
