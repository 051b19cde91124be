import PlacitumNode.Frame.Stream

/-!
# What a direction lets through

In the inspect mode, with the policy to block what is over the limit, for any bytes.

* `Sieve`, `sift`, `plainFrames`: the data frames of messages without extension bits;
* `Accounted`: the plain frames released are those that were allowed, or their replacements;
* `Fore`, `Account`: with what the front of the buffer holds, an invariant of the moves;
* `Halts`: a refused frame is the last that the direction looks at;
* `released_settled`: every run.
-/

namespace Frames

open Octets Framing Waves

/-! ### Plain frames -/

/-- The plain frames so far, and the frames of the message that is not finished. -/
structure Sieve where
  plain : List Frame
  unit : List Frame

/-- A message is plain when none of its frames has an extension bit. -/
def keep (u : List Frame) : List Frame := if ∀ f ∈ u, f.rsv = 0 then u else []

/-- Without reassembly every data frame stands for itself. -/
def sift (assemble : Bool) (s : Sieve) (f : Frame) : Sieve :=
  if f.IsControl then s
  else if f.fin || !assemble then ⟨s.plain ++ keep (s.unit ++ [f]), []⟩
  else ⟨s.plain, s.unit ++ [f]⟩

def sieve (assemble : Bool) (fs : List Frame) : Sieve := fs.foldl (sift assemble) ⟨[], []⟩

/-- The data frames of the plain messages. -/
def plainFrames (assemble : Bool) (fs : List Frame) : List Frame :=
  (sieve assemble fs).plain ++ keep (sieve assemble fs).unit

/-- What an inspection let through. -/
def Outcome.passed : Outcome → Option Bytes
  | .allowed b => some b
  | .replaced _ new => some new
  | .refused _ _ => none

theorem sieve_concat (a : Bool) (fs : List Frame) (f : Frame) :
    sieve a (fs ++ [f]) = sift a (sieve a fs) f := by
  simp [sieve]

def Tainted (u : List Frame) : Prop := ∃ f ∈ u, f.rsv ≠ 0

theorem keep_tainted {u : List Frame} (h : Tainted u) : keep u = [] := by
  obtain ⟨f, hf, hr⟩ := h
  exact if_neg fun hall => hr (hall f hf)

theorem keep_single {f : Frame} (h : f.rsv = 0) : keep [f] = [f] :=
  if_pos fun g hg => by rwa [List.mem_singleton.1 hg]

/-- The frames `out` account for the outcomes in the log; the message they leave open, if there is
one, has an extension bit. -/
structure Sifted (a skips : Bool) (log : List Outcome) (out : List Frame) : Prop where
  plain : (sieve a out).plain.map Frame.encode = log.filterMap Outcome.passed
  unit : if skips then Tainted (sieve a out).unit else (sieve a out).unit = []

variable {a b k k' skips : Bool} {log : List Outcome} {out : List Frame} {f g : Frame}

theorem Sifted.keep_unit (h : Sifted a skips log out) : keep (sieve a out).unit = [] := by
  have hu := h.unit
  cases skips with
  | true => exact keep_tainted hu
  | false =>
    rw [show (sieve a out).unit = [] from hu]
    rfl

theorem Sifted.plainFrames_eq (h : Sifted a skips log out) :
    (plainFrames a out).map Frame.encode = log.filterMap Outcome.passed := by
  rw [plainFrames, h.keep_unit, List.append_nil]
  exact h.plain

theorem Sifted.control (h : Sifted a skips log out) (hc : f.IsControl) :
    Sifted a skips log (out ++ [f]) := by
  have hs : sieve a (out ++ [f]) = sieve a out := by rw [sieve_concat, sift, if_pos hc]
  exact ⟨by rw [hs]; exact h.plain, by rw [hs]; exact h.unit⟩

/-- A frame that went through the inspection. -/
theorem Sifted.settled {o : Outcome} (h : Sifted a false log out) (hc : ¬f.IsControl)
    (hr : f.rsv = 0) (hf : (f.fin || !a) = true) (ho : o.passed = some f.encode) :
    Sifted a false (log ++ [o]) (out ++ [f]) := by
  have hu : (sieve a out).unit = [] := h.unit
  have hs : sieve a (out ++ [f]) = ⟨(sieve a out).plain ++ [f], []⟩ := by
    rw [sieve_concat, sift, if_neg hc, if_pos hf, hu, List.nil_append, keep_single hr]
  refine ⟨?_, ?_⟩
  · rw [hs, List.filterMap_append, ← h.plain]
    simp [ho]
  · rw [hs]
    rfl

/-- A frame of a message with an extension bit. -/
theorem Sifted.skipped (h : (sieve a out).plain.map Frame.encode = log.filterMap Outcome.passed)
    (hc : ¬f.IsControl) (ht : Tainted ((sieve a out).unit ++ [f])) :
    Sifted a (a && !f.fin) log (out ++ [f]) := by
  by_cases hf : (f.fin || !a) = true
  · have hs : sieve a (out ++ [f]) = ⟨(sieve a out).plain, []⟩ := by
      rw [sieve_concat, sift, if_neg hc, if_pos hf, keep_tainted ht, List.append_nil]
    have hfalse : (a && !f.fin) = false := by
      revert hf
      cases a <;> cases f.fin <;> decide
    rw [hfalse]
    exact ⟨by rw [hs]; exact h, by rw [hs]; rfl⟩
  · have hs : sieve a (out ++ [f]) = ⟨(sieve a out).plain, (sieve a out).unit ++ [f]⟩ := by
      rw [sieve_concat, sift, if_neg hc, if_neg hf]
    have htrue : (a && !f.fin) = true := by
      revert hf
      cases a <;> cases f.fin <;> decide
    rw [htrue]
    exact ⟨by rw [hs]; exact h, by rw [hs]; exact ht⟩

/-- Without reassembly no message is left open. -/
theorem unit_of_alone (fs : List Frame) : (sieve false fs).unit = [] := by
  induction fs using List.reverseRecOn with
  | nil => rfl
  | append_singleton fs f ih =>
    rw [sieve_concat, sift]
    split
    · exact ih
    · rw [if_pos (by simp)]

theorem Sifted.alone (h : Sifted false skips log out) : skips = false := by
  have hu := h.unit
  rw [unit_of_alone] at hu
  cases skips with
  | false => rfl
  | true =>
    obtain ⟨f, hf, -⟩ := hu
    cases hf

/-! ### The bytes released -/

/-- What is left of the frame that is passed on, as a `size_t`. -/
def Dir.owed (d : Dir) : ℕ := (d.skip % 2 ^ 64).toNat

/-- The bytes `y` can be the next ones: those in the buffer are the same. -/
def Next (rest y : Bytes) : Prop := rest <+: y ∨ y <+: rest

/-- However the frame that is passed on ends: the bytes released, those of a replacement that waits
and the rest of that frame are frames that account for the log. -/
def Accounted (a : Bool) (d : Dir) : Prop :=
  ∀ y, y.length = d.owed → Next d.rest y → ∃ out,
    d.sent ++ d.ready ++ d.out ++ y = encodeAll out ∧ Sifted a d.msgSkip d.log out

variable {cf : Conf} {d e : Dir} {h : Header} {x y u : Bytes}

theorem owed_zero (h : d.skip = 0) : d.owed = 0 := by
  rw [Dir.owed, h]
  rfl

theorem owed_of_pos (h₁ : 0 ≤ d.skip) (h₂ : d.skip < 2 ^ 63) : (d.owed : ℤ) = d.skip := by
  unfold Dir.owed
  omega

theorem next_shorter {r r' y : Bytes} (hp : r <+: r') (h : Next r' y) : Next r y := by
  rcases h with h | h
  · exact .inl (hp.trans h)
  · exact List.prefix_or_prefix_of_prefix hp h

/-- Nothing of a frame is left to pass: the frames released are whole. -/
theorem Accounted.whole (h : Accounted a d) (hs : d.skip = 0) :
    ∃ out, d.sent ++ d.ready ++ d.out = encodeAll out ∧ Sifted a d.msgSkip d.log out := by
  obtain ⟨out, hb, ho⟩ := h [] (owed_zero hs).symm (.inr (List.nil_prefix))
  rw [List.append_nil] at hb
  exact ⟨out, hb, ho⟩

theorem accounted_of_out (hs : d.skip = 0)
    (h : ∃ out, d.sent ++ d.ready ++ d.out = encodeAll out ∧ Sifted a d.msgSkip d.log out) :
    Accounted a d := by
  intro y hy _
  obtain ⟨out, hb, ho⟩ := h
  have hnil : y = [] := List.eq_nil_of_length_eq_zero (hy.trans (owed_zero hs))
  exact ⟨out, by rw [hnil, List.append_nil, hb], ho⟩

/-- The bytes in the buffer can change as long as no frame is passed on. -/
theorem Accounted.edit (h : Accounted a d) (hs : d.skip = 0) (hs' : e.skip = 0)
    (hb : e.sent ++ e.ready ++ e.out = d.sent ++ d.ready ++ d.out) (hm : e.msgSkip = d.msgSkip)
    (hl : e.log.filterMap Outcome.passed = d.log.filterMap Outcome.passed) : Accounted a e := by
  obtain ⟨out, ho, hsift⟩ := h.whole hs
  exact accounted_of_out hs' ⟨out, hb.trans ho, hl ▸ hsift.plain, hm ▸ hsift.unit⟩

/-- A whole frame is released. -/
theorem Accounted.append (h : Accounted a d) (hs : d.skip = 0) (hs' : e.skip = 0)
    (hb : e.sent ++ e.ready ++ e.out = d.sent ++ d.ready ++ d.out ++ f.encode)
    (hsift : ∀ out, Sifted a d.msgSkip d.log out → Sifted a e.msgSkip e.log (out ++ [f])) :
    Accounted a e := by
  obtain ⟨out, ho, hs⟩ := h.whole hs
  refine accounted_of_out hs' ⟨out ++ [f], ?_, hsift out hs⟩
  rw [hb, ho, encodeAll_append, encodeAll_cons, encodeAll_nil, List.append_nil]

/-- However a frame goes on, its header is the one in the buffer. -/
theorem frame_of_next {r : Bytes} (hr : readHeader r = some h) (hp : h.plen < 2 ^ 63)
    (hy : y.length = h.size) (hn : Next r y) : ∃ f : Frame, f.header = h ∧ y = f.encode := by
  have hread : readHeader y = some h := by
    rcases hn with ⟨t, rfl⟩ | hn
    · exact readHeader_append hr t
    · rw [List.prefix_iff_eq_take.1 hn, hy]
      exact readHeader_take hr (Nat.le_add_right _ _)
  obtain ⟨f, hf, he⟩ := exists_frame hread hp hy.ge
  exact ⟨f, hf, by rw [← he, ← hy, List.take_length]⟩

theorem Dir.passOn_eq (d : Dir) (h : Header) : ∃ n, n = Machine.signed h.size ∧
    d.passOn h = { d with seq := d.seq + 1, skip := n } := by
  unfold Dir.passOn
  exact ⟨_, rfl, rfl⟩

theorem owed_passOn (d : Dir) (hp : h.plen < 2 ^ 63) : (d.passOn h).owed = h.size := by
  have hlt := h.hlen_le
  have hsize : h.size < 2 ^ 64 := by
    unfold Header.size
    omega
  obtain ⟨n, hn, he⟩ := d.passOn_eq h
  have howed : (d.passOn h).owed = (n % 2 ^ 64).toNat := by
    rw [he]
    rfl
  rw [howed, hn, Machine.signed_emod hsize]

/-- A frame is passed on, whatever follows its header. -/
theorem Accounted.passOn (h0 : Accounted a d) (hs : d.skip = 0) (hr : readHeader e.rest = some h)
    (hp : h.plen < 2 ^ 63) (hb : e.sent ++ e.ready ++ e.out = d.sent ++ d.ready ++ d.out ++ x)
    (hsift : ∀ out f, Sifted a d.msgSkip d.log out → f.header = h →
      ∃ gs, encodeAll gs = x ∧ Sifted a e.msgSkip e.log (out ++ gs ++ [f])) :
    Accounted a (e.passOn h) := by
  intro y hy hn
  rw [owed_passOn e hp] at hy
  obtain ⟨n, -, he⟩ := e.passOn_eq h
  rw [he] at hn ⊢
  obtain ⟨f, hf, rfl⟩ := frame_of_next hr hp hy hn
  obtain ⟨out, ho, hs⟩ := h0.whole hs
  obtain ⟨gs, hgs, hsift⟩ := hsift out f hs hf
  refine ⟨out ++ gs ++ [f], ?_, hsift⟩
  rw [hb, ho, encodeAll_append, encodeAll_append, hgs, encodeAll_cons, encodeAll_nil,
    List.append_nil]

theorem next_append {r y : Bytes} (x : Bytes) (h : Next r y) : Next (x ++ r) (x ++ y) :=
  h.imp (List.prefix_append_right_inj x).2 (List.prefix_append_right_inj x).2

/-- The bytes of the frame that is passed on. -/
theorem Accounted.skipOver (h : Accounted a d) (hs : 0 < d.skip) (hlt : d.skip < 2 ^ 63)
    (hm : d.msg = false) (ho : d.out = []) :
    Accounted a d.skipOver ∧ 0 ≤ d.skipOver.skip ∧ d.skipOver.skip < 2 ^ 63 := by
  have hview : d.view = d.rest := by
    rw [Dir.view, Dir.hold, hm]
    rfl
  have hskip : d.skipOver.skip = d.skip - min d.skip d.view.length := rfl
  have hbounds : 0 ≤ d.skipOver.skip ∧ d.skipOver.skip < 2 ^ 63 := by
    rw [hskip]
    omega
  refine ⟨?_, hbounds⟩
  intro y hy hn
  generalize ht : (min d.skip d.view.length).toNat = t
  have hrest : d.skipOver.rest = d.rest.drop t := by rw [← ht]; rfl
  have hready : d.skipOver.ready = d.ready ++ d.rest.take t := by rw [← ht]; rfl
  have hy' : (y.length : ℤ) = d.skipOver.skip := by
    rw [hy, owed_of_pos hbounds.1 hbounds.2]
  have hlen : (d.rest.take t ++ y).length = d.owed := by
    have howed := owed_of_pos hs.le hlt
    rw [List.length_append, List.length_take]
    rw [hskip, hview] at hy'
    rw [hview] at ht
    omega
  have hnext : Next d.rest (d.rest.take t ++ y) := by
    have h := next_append (d.rest.take t) (hrest ▸ hn)
    rwa [List.take_append_drop] at h
  obtain ⟨out, hb, hsift⟩ := h _ hlen hnext
  refine ⟨out, ?_, hsift⟩
  rw [← hb, hready]
  change d.sent ++ (d.ready ++ d.rest.take t) ++ d.out ++ y = _
  simp only [ho, List.append_assoc, List.nil_append]

/-! ### The front of the buffer -/

/-- A frame that is inspected. -/
structure Sane (cf : Conf) (d : Dir) (g : Frame) : Prop where
  mask : g.key.isSome = d.masked
  rsv : g.rsv = 0
  opcode : g.opcode ≤ 2
  length : g.payload.length ≤ cf.bodyLimit
  alone : cf.assembles d = true → g.fin = true ∧ g.opcode ≠ 0 ∧ d.msgSkip = false

/-- Nothing of a replaced frame is left. -/
def Dir.Clear (d : Dir) : Prop := d.drop = 0 ∧ d.out = []

/-- What the front of the buffer can hold: nothing yet, a frame that is passed on, one that is so
long that its length has the sign bit, the fragments of a message, the frame that is inspected, or
one that is replaced. -/
inductive Fore (cf : Conf) : Lane → Prop
  | idle {d : Dir} {k : Bool} (hc : d.Clear) (hm : d.msg = false) (hs : d.skip = 0) :
      Fore cf ⟨d, false, k⟩
  | passing {d : Dir} {k : Bool} (hc : d.Clear) (hm : d.msg = false) (hs : 0 < d.skip)
      (hlt : d.skip < 2 ^ 63) : Fore cf ⟨d, false, k⟩
  | stuck {d : Dir} {k : Bool} {h : Header} (hc : d.Clear) (hm : d.msg = false) (hs : d.skip < 0)
      (hr : readHeader d.rest = some h) (hn : d.skip = Machine.signed h.size)
      (ha : cf.assembles d = true) (h0 : h.opcode = 0) (hf : d.msgSkip = !h.fin) :
      Fore cf ⟨d, false, k⟩
  | opened {d : Dir} {k : Bool} (hc : d.Clear) (hm : d.msg = true) (hs : d.skip = 0)
      (ha : cf.assembles d = true) (hk : d.msgSkip = false)
      (hl : d.msgHlen + d.msgLen ≤ d.rest.length) (hn : d.msgLen ≤ cf.bodyLimit)
      (ho : d.msgOpcode ≤ 2) (h0 : d.msgOpcode ≠ 0) : Fore cf ⟨d, false, k⟩
  | held {d : Dir} {k : Bool} {g : Frame} {u : Bytes} (hc : d.Clear) (hm : d.msg = false)
      (hs : d.skip = 0) (hr : d.rest = g.encode ++ u) (hh : d.held = g.header.size)
      (hg : Sane cf d g) (hf : d.fin = g.fin) (ho : d.opcode = g.opcode) : Fore cf ⟨d, true, k⟩
  | replaced {d : Dir} {k : Bool} (hm : d.msg = false) (hs : d.skip = 0)
      (hr : d.drop = 0 → d.ready = []) : Fore cf ⟨d, false, k⟩

structure Account (cf : Conf) (l : Lane) : Prop where
  mode : l.dir.mode = .inspect
  bytes : Accounted (cf.assembles l.dir) l.dir
  fore : Fore cf l

/-! ### The turns of the parser -/

theorem view_of_idle (hm : d.msg = false) : d.view = d.rest := by
  rw [Dir.view, Dir.hold, hm]
  rfl

/-- A whole frame at `p`. -/
theorem frame_at (hh : At d h) (hv : h.size ≤ d.view.length) :
    ∃ f : Frame, f.header = h ∧ d.view = f.encode ++ d.view.drop h.size := by
  obtain ⟨f, hf, he⟩ := exists_frame hh.read hh.short hv
  exact ⟨f, hf, by rw [← he, List.take_append_drop]⟩

/-- The fragments of a message that is given up, as one frame. -/
theorem giveUp_open (hm : d.msg = true) (hl : d.msgHlen + d.msgLen ≤ d.rest.length)
    (hn : d.msgLen ≤ cf.bodyLimit) :
    ∃ g : Frame, g.fin = false ∧ g.opcode = d.msgOpcode ∧
      d.giveUp a h = { d with
        ready := d.ready ++ g.encode, rest := d.view, msg := false, msgSkip := !h.fin } := by
  have hlimit := cf.bodyLimit_lt
  generalize hraw : (d.rest.drop d.msgHlen).take d.msgLen = raw
  have hlen : raw.length = d.msgLen := by
    rw [← hraw, List.length_take, List.length_drop]
    omega
  have hfits : (Form.least d.msgLen).Fits (maskBy (d.keyOf d.msgKey) raw).length := by
    rw [length_maskBy, hlen]
    exact Form.fits_least (by omega)
  refine ⟨⟨false, 0, d.msgOpcode, Form.least d.msgLen, d.keyOf d.msgKey,
    maskBy (d.keyOf d.msgKey) raw, hfits⟩, rfl, rfl, ?_⟩
  have hhead : leastHead d false d.msgOpcode d.msgKey d.msgLen ++ raw = Frame.encode
      ⟨false, 0, d.msgOpcode, Form.least d.msgLen, d.keyOf d.msgKey,
        maskBy (d.keyOf d.msgKey) raw, hfits⟩ := by
    rw [Frame.encode, Frame.head]
    simp only [maskBy_maskBy, length_maskBy, hlen]
    rfl
  rw [← hhead]
  have hdrop : (d.rest.drop d.msgHlen).drop d.msgLen = d.view := by
    rw [List.drop_drop, Dir.view, Dir.hold, hm]
    rfl
  generalize hd : leastHead d false d.msgOpcode d.msgKey d.msgLen = head
  unfold Dir.giveUp
  rw [if_pos hm]
  simp only [Dir.msgSeal, hd, Dir.advance]
  have htake : (head ++ d.rest.drop d.msgHlen).take (head.length + d.msgLen) = head ++ raw := by
    rw [List.take_length_add_append, hraw]
  have hrest : (head ++ d.rest.drop d.msgHlen).drop (head.length + d.msgLen) = d.view := by
    rw [List.drop_length_add_append, hdrop]
  rw [htake, hrest]

theorem giveUp_idle (hm : d.msg = false) :
    d.giveUp a h = { d with msgSkip := d.msgSkip || (a && !h.fin && h.opcode != 0) } := by
  unfold Dir.giveUp
  rw [if_neg (by rw [hm]; decide)]
  split
  · rename_i hc
    rw [hc, Bool.or_true]
  · rename_i hc
    rw [Bool.not_eq_true] at hc
    rw [hc, Bool.or_false]

theorem Sifted.extension (hs : Sifted a d.msgSkip log out) (hc : ¬f.IsControl) (hr : f.rsv ≠ 0)
    (hk : (d.msgSkip || (a && !f.fin && f.opcode != 0)) = (a && !f.fin)) :
    Sifted a (d.msgSkip || (a && !f.fin && f.opcode != 0)) log (out ++ [f]) := by
  rw [hk]
  exact Sifted.skipped hs.plain hc ⟨f, List.mem_append_right _ (List.mem_singleton_self _), hr⟩

theorem Sifted.givenUp (hs : Sifted true false log out) (hg : g.fin = false) (hgc : ¬g.IsControl)
    (hc : ¬f.IsControl) (hr : f.rsv ≠ 0) : Sifted true (!f.fin) log (out ++ [g] ++ [f]) := by
  have hsieve : sieve true (out ++ [g]) = ⟨(sieve true out).plain, (sieve true out).unit ++ [g]⟩ := by
    rw [sieve_concat, sift, if_neg hgc, if_neg (by simp [hg])]
  refine Sifted.skipped ?_ hc ⟨f, List.mem_append_right _ (List.mem_singleton_self _), hr⟩
  rw [hsieve]
  exact hs.plain

/-- Where a frame that is passed on leaves the direction. -/
theorem fore_passOn (hc : d.Clear) (hm : d.msg = false) (hp : h.plen < 2 ^ 63)
    (hstuck : 2 ^ 63 ≤ h.size → readHeader d.rest = some h ∧ cf.assembles d = true ∧
      h.opcode = 0 ∧ d.msgSkip = !h.fin) : Fore cf ⟨d.passOn h, false, k⟩ := by
  have hlen := h.hlen_le
  have htwo := h.two_le_hlen
  have hsize : h.size < 2 ^ 64 := by
    unfold Header.size
    omega
  obtain ⟨n, hn, he⟩ := d.passOn_eq h
  rw [he]
  by_cases hlt : h.size < 2 ^ 63
  · have hself : n = h.size := by
      rw [hn]
      exact Machine.signed_eq_self (by omega) (by omega)
    refine .passing hc hm ?_ ?_
    · change 0 < n
      rw [hself]
      unfold Header.size
      omega
    · change n < 2 ^ 63
      omega
  · obtain ⟨hr, ha, h0, hf⟩ := hstuck (by omega)
    refine .stuck hc hm ?_ hr hn ha h0 hf
    change n < 0
    rw [hn]
    exact Machine.signed_neg (by omega) hsize

theorem data_of_le (ho : f.opcode ≤ 2) : ¬f.IsControl :=
  fun h8 => absurd (le_trans h8 (Fin.le_def.1 ho)) (by decide)

/-- A frame within the limit has no sign bit in its length. -/
theorem size_lt (hl : d.total h ≤ cf.bodyLimit) : h.size < 2 ^ 63 := by
  have hlimit := cf.bodyLimit_lt
  have hlen := h.hlen_le
  have hle : h.plen ≤ d.total h := Nat.le_add_right _ _
  unfold Header.size
  omega

theorem length_msgAppend (hm : d.msg = true) (hl : d.msgHlen + d.msgLen ≤ d.rest.length)
    (hv : h.size ≤ d.view.length) :
    d.msgHlen + (d.msgLen + h.plen) ≤ (d.msgAppend h).rest.length := by
  have hhold : d.hold = d.msgHlen + d.msgLen := if_pos hm
  have hsrc : ((d.view.drop h.hlen).take h.plen).length = h.plen := by
    rw [List.length_take, List.length_drop]
    unfold Header.size at hv
    omega
  unfold Dir.msgAppend
  simp only [List.length_append, List.length_take, hhold]
  split
  · simp only [length_maskAt, hsrc]
    omega
  · rw [hsrc]
    omega

/-- What an account becomes of a turn. -/
def Kept (cf : Conf) (d : Dir) (k : Bool) : Scan → Prop
  | .next e | .again e => Account cf ⟨e, false, k⟩
  | .inspect e p key => Account cf ⟨e.begun p key, true, k⟩
  | .close e _ => e = d
  | .journal _ _ _ => False

section Turn

variable (hacc : Account cf ⟨d, false, k⟩)
include hacc

theorem Account.skipOver (hc : d.Clear) (hs : 0 < d.skip) : Account cf ⟨d.skipOver, false, k⟩ := by
  have hpass : d.msg = false ∧ d.skip < 2 ^ 63 := by
    have hfore := hacc.fore
    cases hfore with
    | passing _ hm _ hlt => exact ⟨hm, hlt⟩
    | idle _ _ h0 | opened _ _ h0 | replaced _ h0 => omega
    | stuck _ _ h0 => omega
  obtain ⟨hb, h₁, h₂⟩ : Accounted (cf.assembles d) d.skipOver ∧ 0 ≤ d.skipOver.skip ∧
      d.skipOver.skip < 2 ^ 63 := Accounted.skipOver hacc.bytes hs hpass.2 hpass.1 hc.2
  refine ⟨hacc.mode, hb, ?_⟩
  by_cases h0 : d.skipOver.skip = 0
  · exact .idle hc hpass.1 h0
  · exact .passing hc hpass.1 (by omega) h₂

/-- Before a control frame: nothing is held, or the fragments of a message. -/
theorem Account.beforeControl (hc : d.Clear) (hh : At d h) (ho : 8 ≤ h.opcode) :
    d.skip = 0 ∧ d.hold ≤ d.rest.length ∧
      ∀ {e : Dir} {u : Bytes} {t l n : ℕ} {r : Bytes},
        e = { d.tally t l n with ready := r, rest := d.rest.take d.hold ++ u } →
        Fore cf ⟨e, false, k⟩ := by
  have hskip := hh.skip
  have hidle : d.msg = false → d.skip = 0 → d.skip = 0 ∧ d.hold ≤ d.rest.length ∧
      ∀ {e : Dir} {u : Bytes} {t l n : ℕ} {r : Bytes},
        e = { d.tally t l n with ready := r, rest := d.rest.take d.hold ++ u } →
        Fore cf ⟨e, false, k⟩ := by
    intro hm hs
    refine ⟨hs, ?_, ?_⟩
    · rw [Dir.hold, hm]
      exact Nat.zero_le _
    · intro e u t l n r he
      subst he
      exact .idle hc hm hs
  have hfore := hacc.fore
  cases hfore with
  | idle _ hm hs => exact hidle hm hs
  | replaced hm hs => exact hidle hm hs
  | passing _ _ h0 => omega
  | stuck _ hm _ hr _ _ h0 =>
    have hread := hh.read
    rw [view_of_idle hm, hr] at hread
    obtain rfl := Option.some.inj hread
    rw [h0] at ho
    exact absurd ho (by decide)
  | opened _ hm hs ha hk hl hn ho' h0 =>
    have hhold : d.hold = d.msgHlen + d.msgLen := if_pos hm
    refine ⟨hs, by rw [hhold]; exact hl, ?_⟩
    intro e u t l n r he
    subst he
    refine .opened hc hm hs ha hk ?_ hn ho' h0
    change d.msgHlen + d.msgLen ≤ (d.rest.take d.hold ++ u).length
    rw [List.length_append, List.length_take, hhold]
    omega

theorem Account.control {t l : ℕ} (hc : d.Clear) (hh : At d h) (ho : 8 ≤ h.opcode)
    (hv : h.size ≤ d.view.length) :
    Account cf ⟨(d.tally t l d.ctrlDropped).letControl h.size, false, k⟩ := by
  obtain ⟨hs, hhold, hfore⟩ := hacc.beforeControl hc hh ho
  obtain ⟨f, rfl, hview⟩ := frame_at hh hv
  have hrest : d.rest = d.rest.take d.hold ++ (f.encode ++ d.view.drop f.header.size) := by
    rw [← hview]
    exact (List.take_append_drop _ _).symm
  have hlen : d.hold = (d.rest.take d.hold).length := by
    rw [List.length_take]
    omega
  have he := Dir.letControl_eq (d := d.tally t l d.ctrlDropped) hrest hlen f.length_encode.symm
  rw [he]
  refine ⟨hacc.mode, ?_, hfore rfl⟩
  refine hacc.bytes.append (f := f) hs hs ?_ fun out hsift => hsift.control ho
  change d.sent ++ (d.ready ++ f.encode) ++ d.out = d.sent ++ d.ready ++ d.out ++ f.encode
  rw [hc.2]
  simp only [List.append_nil, List.append_assoc]

theorem Account.controlCut {t l n : ℕ} (hc : d.Clear) (hh : At d h) (ho : 8 ≤ h.opcode) :
    Account cf ⟨(d.tally t l n).cut h.size, false, k⟩ := by
  obtain ⟨hs, -, hfore⟩ := hacc.beforeControl hc hh ho
  refine ⟨hacc.mode, ?_, hfore rfl⟩
  exact hacc.bytes.edit hs hs rfl rfl rfl

theorem Account.skipped (hc : d.Clear) (hh : At d h) (ha : cf.assembles d = true)
    (h0 : h.opcode = 0) (hk : d.msgSkip = true) :
    Account cf ⟨{ d with msgSkip := !h.fin }.passOn h, false, k⟩ := by
  have hskip := hh.skip
  have hread := hh.read
  have hidle : d.msg = false → d.skip = 0 →
      Account cf ⟨{ d with msgSkip := !h.fin }.passOn h, false, k⟩ := by
    intro hm hs
    rw [view_of_idle hm] at hread
    have hfore : Fore cf ⟨{ d with msgSkip := !h.fin }.passOn h, false, k⟩ :=
      fore_passOn (d := { d with msgSkip := !h.fin }) hc hm hh.short fun _ => ⟨hread, ha, h0, rfl⟩
    have hbytes : Accounted true ({ d with msgSkip := !h.fin }.passOn h) := by
      refine Accounted.passOn (e := { d with msgSkip := !h.fin }) (x := []) (ha ▸ hacc.bytes) hs
        hread hh.short (by rw [List.append_nil]) fun out f hsift hf => ⟨[], rfl, ?_⟩
      subst hf
      have hunit : Tainted (sieve true out).unit := by
        have hu := hsift.unit
        rwa [show (⟨d, false, k⟩ : Lane).dir.msgSkip = true from hk] at hu
      obtain ⟨g, hg, hr⟩ := hunit
      have hc : ¬f.IsControl := by
        unfold Frame.IsControl
        rw [show f.opcode = 0 from h0]
        decide
      rw [List.append_nil]
      exact Sifted.skipped hsift.plain hc ⟨g, List.mem_append_left _ hg, hr⟩
    obtain ⟨n, -, he⟩ := Dir.passOn_eq { d with msgSkip := !h.fin } h
    rw [he] at hfore hbytes ⊢
    exact ⟨hacc.mode, ha.symm ▸ hbytes, hfore⟩
  have hfore := hacc.fore
  cases hfore with
  | idle _ hm hs => exact hidle hm hs
  | replaced hm hs => exact hidle hm hs
  | passing _ _ h0 => omega
  | opened _ _ _ _ hk' =>
    rw [hk] at hk'
    cases hk'
  | @stuck _ _ h' _ hm hs hr hn _ _ hf =>
    -- the length with the sign bit is read again
    rw [view_of_idle hm, hr] at hread
    obtain rfl := Option.some.inj hread
    obtain ⟨n, hn', he⟩ := Dir.passOn_eq { d with msgSkip := !h'.fin } h'
    rw [he, hn', ← hn, ← hf]
    refine ⟨hacc.mode, hacc.bytes, ?_⟩
    exact .stuck hc hm hs hr hn ha h0 hf

theorem Account.extension (hc : d.Clear) (hh : At d h) (ho : h.opcode ≤ 2) (hp : Placed cf d h)
    (hl : d.total h ≤ cf.bodyLimit) (hr : h.rsv ≠ 0) :
    Account cf ⟨(d.giveUp (cf.assembles d) h).passOn h, false, k⟩ := by
  have hskip := hh.skip
  have hread := hh.read
  have hsize := size_lt hl
  have hidle : d.msg = false → d.skip = 0 →
      Account cf ⟨(d.giveUp (cf.assembles d) h).passOn h, false, k⟩ := by
    intro hm hs
    rw [view_of_idle hm] at hread
    generalize hks : (d.msgSkip || (cf.assembles d && !h.fin && h.opcode != 0)) = ks
    have hgive : d.giveUp (cf.assembles d) h = { d with msgSkip := ks } := by
      rw [giveUp_idle hm, hks]
    rw [hgive]
    have hfore : Fore cf ⟨{ d with msgSkip := ks }.passOn h, false, k⟩ :=
      fore_passOn (d := { d with msgSkip := ks }) hc hm hh.short fun h0 => absurd hsize (by omega)
    have hbytes : Accounted (cf.assembles d) ({ d with msgSkip := ks }.passOn h) := by
      refine Accounted.passOn (e := { d with msgSkip := ks }) (x := []) hacc.bytes hs
        hread hh.short (by rw [List.append_nil]) fun out f hsift hf => ⟨[], rfl, ?_⟩
      subst hf
      rw [List.append_nil]
      change Sifted _ ks _ _
      rw [← hks]
      refine Sifted.extension hsift (data_of_le ho) hr ?_
      cases ha : cf.assembles d with
      | true =>
        have hop : f.opcode ≠ 0 := fun h0 => by
          have := ((hp ha).1 h0).1
          rw [hm] at this
          cases this
        rw [((hp ha).2 hop).2]
        simp [hop]
      | false =>
        rw [show (⟨d, false, k⟩ : Lane).dir = d from rfl, ha] at hsift
        rw [show d.msgSkip = false from hsift.alone]
        rfl
    obtain ⟨n, -, he⟩ := Dir.passOn_eq { d with msgSkip := ks } h
    rw [he] at hfore hbytes ⊢
    exact ⟨hacc.mode, hbytes, hfore⟩
  have hfore := hacc.fore
  cases hfore with
  | idle _ hm hs => exact hidle hm hs
  | replaced hm hs => exact hidle hm hs
  | passing _ _ h0 => omega
  | stuck _ hm _ hr' _ ha h0 =>
    rw [view_of_idle hm, hr'] at hread
    obtain rfl := Option.some.inj hread
    exact absurd (hm.symm.trans ((hp ha).1 h0).1) (by decide)
  | opened _ hm hs ha hk hle hn ho' h0 =>
    obtain ⟨g, hgf, hgo, hgive⟩ := giveUp_open (a := cf.assembles d) (h := h) hm hle hn
    rw [hgive]
    generalize hd' : { d with
      ready := d.ready ++ g.encode, rest := d.view, msg := false, msgSkip := !h.fin } = e
    have hfore : Fore cf ⟨e.passOn h, false, k⟩ := by
      subst hd'
      exact fore_passOn hc rfl hh.short fun h0 => absurd hsize (by omega)
    have hbytes : Accounted true (e.passOn h) := by
      refine Accounted.passOn (e := e) (x := g.encode) (ha ▸ hacc.bytes) hs (by subst hd'; exact hread)
        hh.short ?_ fun out f hsift hf => ⟨[g], by simp, ?_⟩
      · subst hd'
        change d.sent ++ (d.ready ++ g.encode) ++ d.out = d.sent ++ d.ready ++ d.out ++ g.encode
        rw [hc.2]
        simp only [List.append_nil, List.append_assoc]
      · subst hf hd'
        rw [show (⟨d, false, k⟩ : Lane).dir.msgSkip = false from hk] at hsift
        refine Sifted.givenUp hsift hgf (data_of_le ?_) (data_of_le ho) hr
        rw [hgo]
        exact ho'
    have hmode : e.mode = .inspect := by
      subst hd'
      exact hacc.mode
    obtain ⟨n, -, he⟩ := e.passOn_eq h
    rw [he] at hfore hbytes ⊢
    have ha' : cf.assembles { e with seq := e.seq + 1, skip := n } = true := by
      subst hd'
      exact ha
    exact ⟨hmode, ha'.symm ▸ hbytes, hfore⟩

/-- Before a frame that is looked at when no message is open. -/
theorem Account.idle_of_placed (hh : At d h) (hp : Placed cf d h) (hm : d.msg = false) :
    d.skip = 0 := by
  have hskip := hh.skip
  have hread := hh.read
  have hfore := hacc.fore
  cases hfore with
  | idle _ _ hs => exact hs
  | replaced _ hs => exact hs
  | opened _ _ hs => exact hs
  | passing _ _ h0 => omega
  | stuck _ _ _ hr' _ ha h0 =>
    rw [view_of_idle hm, hr'] at hread
    obtain rfl := Option.some.inj hread
    exact absurd (hm.symm.trans ((hp ha).1 h0).1) (by decide)

/-- The message that is open. -/
theorem Account.opened_of_msg (hm : d.msg = true) : d.skip = 0 ∧ cf.assembles d = true ∧
    d.msgSkip = false ∧ d.msgHlen + d.msgLen ≤ d.rest.length ∧ d.msgOpcode ≤ 2 ∧
    d.msgOpcode ≠ 0 := by
  have hfore := hacc.fore
  cases hfore with
  | opened _ _ hs ha hk hl _ ho h0 => exact ⟨hs, ha, hk, hl, ho, h0⟩
  | idle _ hm' | passing _ hm' | stuck _ hm' | replaced hm' =>
    exact absurd (hm.symm.trans hm') (by decide)

theorem Account.start (hc : d.Clear) (hh : At d h) (ho : h.opcode ≤ 2) (hp : Placed cf d h)
    (hl : d.total h ≤ cf.bodyLimit) (hv : h.size ≤ d.view.length) (ha : cf.assembles d = true)
    (h0 : h.opcode ≠ 0) : Account cf ⟨d.counted.msgStart h, false, k⟩ := by
  obtain ⟨hm, hk⟩ := (hp ha).2 h0
  have hs := hacc.idle_of_placed hh hp hm
  refine ⟨hacc.mode, hacc.bytes.edit hs hs rfl rfl rfl, ?_⟩
  refine .opened hc rfl hs ha hk ?_ ?_ ho h0
  · change h.hlen + h.plen ≤ d.rest.length
    rwa [view_of_idle hm] at hv
  · change h.plen ≤ cf.bodyLimit
    exact le_trans (Nat.le_add_right _ _) hl

theorem Account.append (hc : d.Clear) (hl : d.total h ≤ cf.bodyLimit)
    (hv : h.size ≤ d.view.length) (hm : d.msg = true) :
    Account cf ⟨d.counted.msgAppend h, false, k⟩ := by
  obtain ⟨hs, ha, hk, hle, ho, h0⟩ := hacc.opened_of_msg hm
  refine ⟨hacc.mode, hacc.bytes.edit hs hs rfl rfl rfl, ?_⟩
  refine .opened hc hm hs ha hk (length_msgAppend (d := d.counted) hm hle hv) ?_ ho h0
  change d.msgLen + h.plen ≤ cf.bodyLimit
  simp only [Dir.total, hm, if_true] at hl
  omega

theorem Account.merged (hc : d.Clear) (hl : d.total h ≤ cf.bodyLimit)
    (hv : h.size ≤ d.view.length) (hm : d.msg = true) :
    Kept cf d k ((d.counted.msgAppend h).msgWhole h.masked) := by
  obtain ⟨hs, ha, hk, hle, ho, h0⟩ := hacc.opened_of_msg hm
  have hlimit := cf.bodyLimit_lt
  simp only [Dir.total, hm, if_true] at hl
  have hlen := length_msgAppend (d := d.counted) hm hle hv
  have hkeep : Keeps d (d.counted.msgAppend h) := (keeps_counted d).trans (keeps_msgAppend _ h)
  have hmlen : (d.counted.msgAppend h).msgLen = d.msgLen + h.plen := rfl
  have hmh : (d.counted.msgAppend h).msgHlen = d.msgHlen := rfl
  have hbytes : Accounted (cf.assembles d) (d.counted.msgAppend h) :=
    hacc.bytes.edit hs hs rfl rfl rfl
  have hskip : (d.counted.msgAppend h).skip = 0 := hs
  have hclear : (d.counted.msgAppend h).Clear := hc
  have hop : (d.counted.msgAppend h).msgOpcode = d.msgOpcode := rfl
  have hms : (d.counted.msgAppend h).msgSkip = false := hk
  generalize d.counted.msgAppend h = e at *
  generalize hraw : (e.rest.drop d.msgHlen).take e.msgLen = raw
  have hrl : raw.length = e.msgLen := by
    rw [← hraw, List.length_take, List.length_drop]
    change d.msgHlen + (d.msgLen + h.plen) ≤ _ at hlen
    omega
  have hpl : (maskBy (e.keyOf e.msgKey) raw).length < 2 ^ 63 := by
    rw [length_maskBy, hrl]
    omega
  have hsplit : e.rest = e.rest.take d.msgHlen ++
      (maskBy (e.keyOf e.msgKey) (maskBy (e.keyOf e.msgKey) raw) ++
        (e.rest.drop d.msgHlen).drop e.msgLen) := by
    rw [maskBy_maskBy, ← hraw, List.take_append_drop, List.take_append_drop]
  have hhead : (e.rest.take d.msgHlen).length = e.msgHlen := by
    change d.msgHlen + (d.msgLen + h.plen) ≤ _ at hlen
    rw [List.length_take]
    omega
  rw [Dir.msgWhole_eq hpl (by rw [length_maskBy, hrl]) hhead hsplit]
  refine ⟨hkeep.mode.trans hacc.mode, ?_, ?_⟩
  · have ha' : cf.assembles e = cf.assembles d := by rw [Conf.assembles, Conf.assembles, hkeep.mode]
    change Accounted (cf.assembles e) _
    rw [ha']
    exact hbytes.edit hskip hskip rfl rfl rfl
  · refine .held hclear rfl hskip rfl rfl ?_ rfl rfl
    refine ⟨?_, rfl, ?_, ?_, fun _ => ⟨rfl, ?_, hms⟩⟩
    · change (e.keyOf e.msgKey).isSome = e.masked
      unfold Dir.keyOf
      cases e.masked <;> rfl
    · change e.msgOpcode ≤ 2
      rwa [hop]
    · change (maskBy (e.keyOf e.msgKey) raw).length ≤ cf.bodyLimit
      rw [length_maskBy, hrl]
      omega
    · change e.msgOpcode ≠ 0
      rwa [hop]

theorem Account.single (hc : d.Clear) (hh : At d h) (ho : h.opcode ≤ 2) (hp : Placed cf d h)
    (hl : d.total h ≤ cf.bodyLimit) (hr : h.rsv = 0) (hv : h.size ≤ d.view.length)
    (hm : d.msg = false) (hf : cf.assembles d = true → h.fin = true) {p : Bytes}
    {key : Option Key} :
    Account cf ⟨(d.counted.holding h.size h.opcode h.fin).begun p key, true, k⟩ := by
  have hs := hacc.idle_of_placed hh hp hm
  obtain ⟨g, rfl, hview⟩ := frame_at hh hv
  rw [view_of_idle hm] at hview
  refine ⟨hacc.mode, hacc.bytes.edit hs hs rfl rfl rfl, ?_⟩
  refine .held hc hm hs hview rfl ?_ rfl rfl
  refine ⟨hh.mask, hr, ho, ?_, fun ha => ?_⟩
  · exact le_trans (Nat.le_add_right _ _) hl
  · have h0 : g.opcode ≠ 0 := fun h0 => absurd (hm.symm.trans ((hp ha).1 h0).1) (by decide)
    exact ⟨hf ha, h0, ((hp ha).2 h0).2⟩

/-- **One turn.** -/
theorem Account.turn {now : ℕ} {set : AuditSet} (hc : d.Clear)
    (hb : cf.bodyLimitPolicy = .block) : Kept cf d k (parseStep cf now set d) := by
  have hmode : d.mode = .inspect := hacc.mode
  have hout := parseStep_out cf now set d
  generalize parseStep cf now set d = sc at hout
  cases hout with
  | skipMore hs | skipDone hs => exact hacc.skipOver hc hs
  | noHeader | controlShort | dataShort => exact hacc
  | close => rfl
  | control t l hh ho _ ha => exact hacc.control hc hh ho ha
  | controlCut t l hh ho => exact hacc.controlCut hc hh ho
  | pass _ _ hm => exact absurd (hm.symm.trans hmode) (by decide)
  | skipped hh _ ha h0 hk => exact hacc.skipped hc hh ha h0 hk
  | tooBig _ _ _ _ _ hn => exact absurd ⟨hb, hmode⟩ hn
  | extension hh ho _ hp hl hr => exact hacc.extension hc hh ho hp hl hr
  | unjournaled hm | journal _ _ hm => exact absurd (hm.symm.trans hmode) (by decide)
  | start hh ho _ hp hl _ hv ha _ h0 => exact hacc.start hc hh ho hp hl hv ha h0
  | append _ _ _ _ hl _ hv _ hm => exact hacc.append hc hl hv hm
  | merged _ _ _ _ hl _ hv _ hm => exact hacc.merged hc hl hv hm
  | single hh ho _ hp hl hr hv hm hf => exact hacc.single hc hh ho hp hl hr hv hm hf

end Turn

/-! ### The other moves -/

/-- More bytes can come, and what is released can be sent. -/
theorem Accounted.keep (h : Accounted a d) (hs : e.skip = d.skip) (hr : d.rest <+: e.rest)
    (hb : e.sent ++ e.ready ++ e.out = d.sent ++ d.ready ++ d.out) (hm : e.msgSkip = d.msgSkip)
    (hl : e.log = d.log) : Accounted a e := by
  intro y hy hn
  obtain ⟨out, ho, hsift⟩ := h y (by rw [hy, Dir.owed, Dir.owed, hs]) (next_shorter hr hn)
  exact ⟨out, by rw [hb, ho], hm ▸ hl ▸ hsift⟩

theorem Account.shut (h : Account cf ⟨d, b, k⟩) : Account cf ⟨d, b, k'⟩ := by
  refine ⟨h.mode, h.bytes, ?_⟩
  have hfore := h.fore
  cases hfore with
  | idle hc hm hs => exact .idle hc hm hs
  | passing hc hm hs hlt => exact .passing hc hm hs hlt
  | stuck hc hm hs hr hn ha h0 hf => exact .stuck hc hm hs hr hn ha h0 hf
  | opened hc hm hs ha hk hl hn ho h0 => exact .opened hc hm hs ha hk hl hn ho h0
  | held hc hm hs hr hh hg hf ho => exact .held hc hm hs hr hh hg hf ho
  | replaced hm hs hr => exact .replaced hm hs hr

/-- Sending, moving and receiving bytes. -/
theorem Account.flow {o : ℕ} {r v x z w : Bytes} (h : Account cf ⟨d, b, k⟩)
    (he : e = { d with off := o, ready := r, rest := z, sent := v, received := w })
    (hz : z = d.rest ++ x) (hb : v ++ r = d.sent ++ d.ready) (hr : d.ready = [] → r = []) :
    Account cf ⟨e, b, k⟩ := by
  subst he hz
  refine ⟨h.mode, ?_, ?_⟩
  · refine h.bytes.keep rfl (List.prefix_append _ _) ?_ rfl rfl
    change v ++ r ++ d.out = _
    rw [hb]
  · have hfore := h.fore
    cases hfore with
    | idle hc hm hs => exact .idle hc hm hs
    | passing hc hm hs hlt => exact .passing hc hm hs hlt
    | stuck hc hm hs hr hn ha h0 hf => exact .stuck hc hm hs (readHeader_append hr x) hn ha h0 hf
    | opened hc hm hs ha hk hl hn ho h0 =>
      refine .opened hc hm hs ha hk ?_ hn ho h0
      change d.msgHlen + d.msgLen ≤ (d.rest ++ x).length
      rw [List.length_append]
      omega
    | @held _ _ g u hc hm hs hr hh hg hf ho =>
      refine .held (g := g) (u := u ++ x) hc hm hs ?_ hh ?_ hf ho
      · change d.rest ++ x = _
        rw [hr, List.append_assoc]
      · exact ⟨hg.mask, hg.rsv, hg.opcode, hg.length, hg.alone⟩
    | replaced hm hs hr' => exact .replaced hm hs fun hd => hr (hr' hd)

theorem free_inspect (hmode : d.mode = .inspect) (hf : Free d b) : b = false ∧ d.Clear :=
  ⟨hf.1.resolve_right fun hp => absurd (hp.symm.trans hmode) (by decide), hf.2⟩

/-- What is inspected is one sane frame. -/
theorem Account.held (h : Account cf ⟨d, true, k⟩) : d.Clear ∧ d.msg = false ∧ d.skip = 0 ∧
    ∃ g u, d.rest = g.encode ++ u ∧ d.held = g.header.size ∧ Sane cf d g ∧ d.fin = g.fin ∧
      d.opcode = g.opcode := by
  have hfore := h.fore
  cases hfore with
  | held hc hm hs hr hh hg hf ho => exact ⟨hc, hm, hs, _, _, hr, hh, hg, hf, ho⟩

theorem size_ne_zero (g : Frame) : g.header.size ≠ 0 := by
  have := g.header.two_le_hlen
  unfold Header.size
  omega

/-- A frame `f` goes on for the sane frame `g`. -/
theorem Sifted.pass {o : Outcome} (hsift : Sifted (cf.assembles d) d.msgSkip log out)
    (hg : Sane cf d g) (hfin : f.fin = g.fin) (hop : f.opcode = g.opcode) (hr : f.rsv = 0)
    (ho : o.passed = some f.encode) :
    Sifted (cf.assembles d) d.msgSkip (log ++ [o]) (out ++ [f]) := by
  have hk : d.msgSkip = false := by
    cases ha : cf.assembles d with
    | true => exact (hg.alone ha).2.2
    | false =>
      rw [ha] at hsift
      exact hsift.alone
  rw [hk] at hsift ⊢
  refine hsift.settled (data_of_le (by rw [hop]; exact hg.opcode)) hr ?_ ho
  cases ha : cf.assembles d with
  | true =>
    rw [hfin, (hg.alone ha).1]
    rfl
  | false => simp

theorem Account.allow (h : Account cf ⟨d, true, k⟩) : Account cf ⟨d.settleOk, false, k'⟩ := by
  obtain ⟨hc, hm, hs, g, u, hrest, hheld, hg, -⟩ := h.held
  have htake : d.rest.take d.held = g.encode := by
    rw [hrest, hheld, List.take_left' g.length_encode]
  have h0 : d.held ≠ 0 := by
    rw [hheld]
    exact size_ne_zero g
  have hlog : d.settleOk.log = d.log ++ [.allowed g.encode] := by
    simp only [Dir.settleOk, if_neg h0, htake]
  refine ⟨h.mode, ?_, .idle hc hm hs⟩
  refine h.bytes.append (f := g) hs hs ?_ fun out hsift => ?_
  · change d.sent ++ (d.ready ++ d.rest.take d.held) ++ d.out = _
    rw [htake, hc.2]
    simp only [List.append_nil, List.append_assoc]
  · rw [hlog]
    exact hsift.pass hg rfl rfl hg.rsv rfl

theorem Account.refuse (h : Account cf ⟨d, true, k⟩) : Account cf ⟨d.settleErr, false, k'⟩ := by
  obtain ⟨hc, hm, hs, -⟩ := h.held
  refine ⟨h.mode, h.bytes.edit hs hs rfl rfl ?_, .idle hc hm hs⟩
  simp [Dir.settleErr, Outcome.passed]

/-- The account of a frame that is replaced. -/
theorem Accounted.swapped {size : ℕ} {data : Bytes} {sha : Bool} (h : Account cf ⟨d, true, k⟩)
    (he : d.swap cf size data sha = some e) : Accounted (cf.assembles d) e ∧ e.skip = 0 ∧
      e.msg = false ∧ e.drop ≠ 0 ∧ e.held = 0 := by
  obtain ⟨hc, hm, hs, g, u, hrest, hheld, hg, hfin, hop⟩ := h.held
  have hle := Dir.swap_le he
  have hlimit := cf.bodyLimit_lt
  have hlen : data.length < 2 ^ 63 := by
    rw [Dir.newFrame, List.length_append, length_maskBy] at hle
    simp only [bufMin, headerMax] at hle
    omega
  obtain rfl := Dir.swap_eq he
  refine ⟨?_, hs, hm, by rw [Dir.swapped, hheld]; exact size_ne_zero g, rfl⟩
  obtain ⟨f, hnew, hff, hfo, hfr⟩ : ∃ f : Frame, d.newFrame data = f.encode ∧ f.fin = d.fin ∧
      f.opcode = d.opcode ∧ f.rsv = 0 :=
    ⟨⟨d.fin, 0, d.opcode, Form.least data.length, d.keyOf d.mask, data, Form.fits_least hlen⟩,
      rfl, rfl, rfl, rfl⟩
  rw [hnew]
  refine h.bytes.append (f := f) hs hs ?_ fun out hsift => ?_
  · change d.sent ++ d.ready ++ f.encode = d.sent ++ d.ready ++ d.out ++ f.encode
    rw [hc.2, List.append_nil]
  · exact hsift.pass hg (hff.trans hfin) (hfo.trans hop) hfr rfl

/-- **One move.** -/
theorem Account.move {l l' : Lane} (h : Account cf l) (hb : cf.bodyLimitPolicy = .block)
    (hm : Move cf l l') : Account cf l' := by
  have hmode := h.mode
  cases hm with
  | next hf hstep =>
    obtain ⟨rfl, hc⟩ := free_inspect hmode hf
    have hkept := hstep ▸ h.turn hc hb
    exact hkept
  | again hf hstep =>
    obtain ⟨rfl, hc⟩ := free_inspect hmode hf
    have hkept := hstep ▸ h.turn hc hb
    exact hkept
  | close hf hstep =>
    obtain ⟨rfl, hc⟩ := free_inspect hmode hf
    have hkept := hstep ▸ h.turn hc hb
    cases hkept
    exact h.shut
  | journal hf hstep =>
    have hkept := hstep ▸ h.turn hf.2 hb
    exact absurd hkept id
  | ask hf hstep =>
    have hkept := hstep ▸ h.turn hf.2 hb
    exact hkept
  | allow => exact h.allow
  | refuse => exact h.refuse
  | @replace d e _ _ _ hswap =>
    obtain ⟨hbytes, hs, hm, hd, hh⟩ := Accounted.swapped h hswap
    have hmode' : e.mode = d.mode := by rw [Dir.swap_eq hswap]; rfl
    have ha : cf.assembles e = cf.assembles d := by rw [Conf.assembles, Conf.assembles, hmode']
    refine ⟨hmode'.trans hmode, ?_, .replaced hm hs fun hd' => absurd hd' hd⟩
    change Accounted (cf.assembles e) _
    rw [ha]
    refine hbytes.edit hs hs ?_ rfl ?_
    · simp [Dir.settleOk, Dir.advance, hh]
    · simp [Dir.settleOk, hh]
  | send n =>
    refine h.flow rfl (List.append_nil _).symm ?_ ?_
    · rw [List.append_assoc, List.take_append_drop]
    · intro hr
      rw [hr, List.drop_nil]
  | dropFront hd hr =>
    have hfore := h.fore
    cases hfore with
    | idle hc | passing hc | stuck hc | opened hc | held hc => exact absurd hc.1 hd
    | replaced hm hs _ =>
      exact ⟨hmode, h.bytes.edit hs hs rfl rfl rfl, .replaced hm hs fun _ => hr⟩
  | @sendOut d _ _ n hd =>
    have hclear : d.out = [] → Account cf ⟨d.sendOut n, _, _⟩ := fun ho => by
      rw [Dir.sendOut_nil ho]
      exact h
    have hfore := h.fore
    cases hfore with
    | idle hc | passing hc | stuck hc | opened hc | held hc => exact hclear hc.2
    | replaced hm hs hr =>
      refine ⟨hmode, h.bytes.edit hs hs ?_ rfl rfl, .replaced hm hs fun _ => hr hd⟩
      change d.sent ++ d.out.take n ++ d.ready ++ d.out.drop n = d.sent ++ d.ready ++ d.out
      rw [hr hd, List.append_nil, List.append_nil, List.append_assoc, List.take_append_drop]
  | compact => exact h.flow rfl (List.append_nil _).symm rfl id
  | recv bs => exact h.flow rfl rfl rfl id
  | fail => exact h.shut

theorem Account.moves {l l' : Lane} (h : Account cf l) (hb : cf.bodyLimitPolicy = .block)
    (hm : Moves cf l l') : Account cf l' := by
  induction hm with
  | refl => exact h
  | tail _ hm ih => exact ih.move hb hm

/-! ### After a refusal -/

/-- A sane frame stands at the front, and the parser will look at it. -/
structure Poised (cf : Conf) (d : Dir) : Prop where
  clear : d.Clear
  mode : d.mode = .inspect
  msg : d.msg = false
  skip : d.skip = 0
  front : ∃ g u, d.rest = g.encode ++ u ∧ Sane cf d g

/-- The parser comes to the same frame again. -/
theorem Poised.turn {now : ℕ} {set : AuditSet} (h : Poised cf d) :
    ∃ e p key, parseStep cf now set d = .inspect e p key := by
  obtain ⟨g, u, hrest, hg⟩ := h.front
  have hview : d.view = g.encode ++ u := by rw [view_of_idle h.msg, hrest]
  have hread : readHeader d.view = some g.header := by
    rw [hview]
    exact g.readHeader_encode u
  have hsame : ∀ {h' : Header}, readHeader d.view = some h' → h' = g.header := fun hr =>
    (Option.some.inj (hread.symm.trans hr)).symm
  have hlen : g.header.size ≤ d.view.length := by
    rw [hview, List.length_append, g.length_encode]
    omega
  have htotal : d.total g.header ≤ cf.bodyLimit := by
    rw [Dir.total, h.msg]
    exact hg.length
  have hop : ¬(8 ≤ g.header.opcode) := fun h8 =>
    absurd (le_trans h8 hg.opcode) (by decide)
  have hout := parseStep_out cf now set d
  generalize parseStep cf now set d = sc at hout
  cases hout with
  | single => exact ⟨_, _, _, rfl⟩
  | skipMore hs | skipDone hs => exact absurd hs (by rw [h.skip]; decide)
  | noHeader _ hr =>
    rw [hread] at hr
    cases hr
  | close _ _ hr hb =>
    obtain rfl := hsame hr
    exfalso
    cases hb with
    | long hl => exact absurd (Form.lt_of_fits g.fits) (not_lt.2 hl)
    | mask hm => exact hm hg.mask
    | control ho => exact hop ho
    | reserved ho => exact absurd (lt_of_lt_of_le ho hg.opcode) (lt_irrefl _)
    | alone ha ho => exact (hg.alone ha).2.1 ho
    | interrupts ha _ _ hb =>
      rcases hb with hb | hb
      · exact absurd (h.msg.symm.trans hb) (by decide)
      · exact absurd ((hg.alone ha).2.2.symm.trans hb) (by decide)
    | tooBig _ hl => exact absurd htotal (not_le.2 hl)
  | controlShort hh ho | control _ _ hh ho | controlCut _ _ hh ho =>
    obtain rfl := hsame hh.read
    exact absurd ho hop
  | pass _ _ hm => exact absurd (hm.symm.trans h.mode) (by decide)
  | skipped hh _ ha ho =>
    obtain rfl := hsame hh.read
    exact absurd ho (hg.alone ha).2.1
  | tooBig hh _ _ _ hl =>
    obtain rfl := hsame hh.read
    exact absurd htotal (not_le.2 hl)
  | extension hh _ _ _ _ hr =>
    obtain rfl := hsame hh.read
    exact absurd hg.rsv hr
  | dataShort hh _ _ _ _ _ hv =>
    obtain rfl := hsame hh.read
    exact absurd hlen (not_le.2 hv)
  | unjournaled hm | journal _ _ hm => exact absurd (hm.symm.trans h.mode) (by decide)
  | start hh _ _ _ _ _ _ ha hf =>
    obtain rfl := hsame hh.read
    exact absurd (hf.symm.trans (hg.alone ha).1) (by decide)
  | append _ _ _ _ _ _ _ _ hm | merged _ _ _ _ _ _ _ _ hm =>
    exact absurd (h.msg.symm.trans hm) (by decide)

/-- After a refusal the connection closes, nothing more is released, and the frame stays. -/
def Halts (cf : Conf) (l : Lane) : Prop :=
  ∀ b w, .refused b w ∈ l.dir.log →
    l.dir.sent ++ l.dir.ready = w ∧ l.closing = true ∧ (l.busy = false → Poised cf l.dir)

theorem Account.poised (h : Account cf ⟨d, true, k⟩) : Poised cf d := by
  obtain ⟨hc, hm, hs, g, u, hrest, -, hg, -⟩ := h.held
  exact ⟨hc, h.mode, hm, hs, g, u, hrest, hg⟩

/-- Where the parser goes on, no frame has been refused. -/
theorem Halts.unrefused {now : ℕ} {set : AuditSet} {sc : Scan} (h : Halts cf ⟨d, false, k⟩)
    (hstep : parseStep cf now set d = sc) (hne : ∀ e p key, sc ≠ .inspect e p key) :
    d.Unrefused := by
  intro b w hmem
  obtain ⟨e, p, key, he⟩ := @Poised.turn _ _ now set ((h b w hmem).2.2 rfl)
  exact hne e p key (hstep.symm.trans he)

theorem Halts.flow {o : ℕ} {r v x z w : Bytes} (h : Halts cf ⟨d, b, k⟩)
    (he : e = { d with off := o, ready := r, rest := z, sent := v, received := w })
    (hz : z = d.rest ++ x) (hb : v ++ r = d.sent ++ d.ready) (hk : k = true → k' = true) :
    Halts cf ⟨e, b, k'⟩ := by
  subst he hz
  intro c w' hmem
  obtain ⟨hw, hclosing, hp⟩ := h c w' hmem
  refine ⟨hb.trans hw, hk hclosing, fun hbusy => ?_⟩
  obtain ⟨hc, hmode, hm, hs, g, u, hrest, hg⟩ := hp hbusy
  refine ⟨hc, hmode, hm, hs, g, u ++ x, ?_, ⟨hg.mask, hg.rsv, hg.opcode, hg.length, hg.alone⟩⟩
  change d.rest ++ x = _
  rw [show d.rest = _ from hrest, List.append_assoc]

/-- **One move.** -/
theorem Halts.move {l l' : Lane} (h : Halts cf l) (hacc : Account cf l) (hm : Move cf l l') :
    Halts cf l' := by
  have hmode := hacc.mode
  cases hm with
  | next hf hstep =>
    obtain ⟨rfl, -⟩ := free_inspect hmode hf
    have hun := h.unrefused hstep fun _ _ _ he => by cases he
    exact fun b w hmem => absurd ((keeps_of hstep).log ▸ hmem) (hun b w)
  | again hf hstep =>
    obtain ⟨rfl, -⟩ := free_inspect hmode hf
    have hun := h.unrefused hstep fun _ _ _ he => by cases he
    exact fun b w hmem => absurd ((keeps_of hstep).log ▸ hmem) (hun b w)
  | close hf hstep =>
    obtain ⟨rfl, -⟩ := free_inspect hmode hf
    have hun := h.unrefused hstep fun _ _ _ he => by cases he
    exact fun b w hmem => absurd ((keeps_of hstep).log ▸ hmem) (hun b w)
  | journal hf hstep => exact absurd ((mode_of_journal hstep).symm.trans hmode) (by decide)
  | @ask d e _ _ _ p key hf hstep =>
    intro b w hmem
    have hkeep : Keeps d e := keeps_of hstep
    obtain ⟨hw, hclosing, -⟩ := h b w (hkeep.log ▸ hmem)
    refine ⟨?_, hclosing, fun hb => by cases hb⟩
    change e.sent ++ e.ready = w
    rw [hkeep.sent, ready_of_inspect hstep]
    exact hw
  | @allow d =>
    intro b w hmem
    have hold : .refused b w ∈ d.log := by
      simp only [Dir.settleOk] at hmem
      split at hmem
      · exact hmem
      · simpa using hmem
    cases (h b w hold).2.1
  | @refuse d k =>
    intro b w hmem
    have hp := hacc.poised
    refine ⟨?_, rfl, fun _ => ⟨hp.clear, hp.mode, hp.msg, hp.skip, hp.front.imp fun g => ?_⟩⟩
    · rcases List.mem_append.1 hmem with hold | hnew
      · exact (h b w hold).1
      · cases List.mem_singleton.1 hnew
        rfl
    · rintro ⟨u, hrest, hg⟩
      exact ⟨u, hrest, hg.mask, hg.rsv, hg.opcode, hg.length, hg.alone⟩
  | @replace d e _ _ _ hswap =>
    obtain rfl := Dir.swap_eq hswap
    intro b w hmem
    have hold : .refused b w ∈ d.log := by
      simpa [Dir.settleOk, Dir.swapped] using hmem
    cases (h b w hold).2.1
  | send n =>
    refine h.flow rfl (List.append_nil _).symm ?_ id
    rw [List.append_assoc, List.take_append_drop]
  | @dropFront d b k hd hr =>
    intro c w hmem
    obtain ⟨-, -, hp⟩ := h c w hmem
    have hclear : d.Clear := by
      cases b with
      | false => exact (hp rfl).clear
      | true => exact hacc.poised.clear
    exact absurd hclear.1 hd
  | @sendOut d b k n hd =>
    intro c w hmem
    have hclear : d.Clear := by
      cases b with
      | false => exact ((h c w hmem).2.2 rfl).clear
      | true => exact hacc.poised.clear
    rw [Dir.sendOut_nil hclear.2] at hmem ⊢
    exact h c w hmem
  | compact => exact h.flow rfl (List.append_nil _).symm rfl id
  | recv bs => exact h.flow rfl rfl rfl id
  | fail => exact h.flow rfl (List.append_nil _).symm rfl fun _ => rfl

theorem Halts.moves {l l' : Lane} (h : Halts cf l) (hacc : Account cf l)
    (hb : cf.bodyLimitPolicy = .block) (hm : Moves cf l l') : Halts cf l' := by
  induction hm with
  | refl => exact h
  | tail hms hm ih => exact ih.move (hacc.moves hb hms) hm

theorem account_init {masked : Bool} {seed : Bytes}
    (h : dirInit cf .inspect masked seed = some d) :
    Account cf ⟨d, false, false⟩ ∧ Halts cf ⟨d, false, false⟩ := by
  unfold dirInit at h
  split at h
  · cases h
  · obtain rfl := Option.some.inj h
    refine ⟨⟨rfl, ?_, .idle ⟨rfl, rfl⟩ rfl rfl⟩, fun b w hmem => by cases hmem⟩
    exact accounted_of_out rfl ⟨[], rfl, rfl, rfl⟩

/-- The end of a connection leaves the account as it is. -/
theorem End.account {l l' : Lane} (h : End cf l l') (hacc : Account cf l) (hh : Halts cf l)
    (hb : cf.bodyLimitPolicy = .block) : Accounted (cf.assembles l.dir) l'.dir ∧
      ∀ b w, .refused b w ∈ l'.dir.log → l'.dir.sent ++ l'.dir.ready = w := by
  have hmode := hacc.mode
  cases h with
  | finish => exact ⟨hacc.bytes, fun b w hmem => (hh b w hmem).1⟩
  | noJournal _ h => exact absurd ((mode_of_journal h).symm.trans hmode) (by decide)
  | @noMemory d e k _ _ p key hf h =>
    have hkeep : Keeps d e := keeps_of h
    have hkept : Kept cf d k (.inspect e p key) := by
      rw [← h]
      exact hacc.turn hf.2 hb
    have ha : cf.assembles e = cf.assembles d := by
      rw [Conf.assembles, Conf.assembles, hkeep.mode]
    have hskip : e.skip = 0 := (Account.held hkept).2.2.1
    refine ⟨?_, fun b w hmem => ?_⟩
    · have hbytes : Accounted (cf.assembles e) (e.begun p key) := Account.bytes hkept
      rw [ha] at hbytes
      exact hbytes.edit hskip hskip rfl rfl rfl
    · change e.sent ++ e.ready = w
      rw [hkeep.sent, ready_of_inspect h]
      exact (hh b w (hkeep.log ▸ hmem)).1
  | @noReplace d e _ _ _ _ h =>
    obtain ⟨hbytes, hs, -, -⟩ := Accounted.swapped hacc h
    refine ⟨?_, fun b w hmem => ?_⟩
    · refine hbytes.edit hs hs rfl rfl ?_
      simp [Dir.settleErr, Outcome.passed]
    · obtain rfl := Dir.swap_eq h
      rcases List.mem_append.1 hmem with hold | hnew
      · have hold' : .refused b w ∈ d.log := by simpa [Dir.swapped] using hold
        exact (hh b w hold').1
      · cases List.mem_singleton.1 hnew
        rfl

/-! ### Every run -/

/-- **Nothing uninspected is released.** In every run, for any bytes, chunks and verdicts: the plain
data frames among those released are the ones that were allowed, or their replacements, in the order
of the verdicts; and after a frame is refused nothing more is released. -/
theorem released_settled {cf : Side → Conf} {mode : Side → Mode} {seed : Side → Bytes}
    {c c' : Conn} {es : List Ev} {s : Side} (h0 : attach cf mode seed = some c)
    (hmode : mode s = .inspect) (hb : (cf s).bodyLimitPolicy = .block)
    (h : runs cf es c = some c') :
    (∀ y, y.length = (c'.dir s).owed → Next (c'.dir s).rest y → ∃ out,
      (c'.dir s).sent ++ (c'.dir s).ready ++ (c'.dir s).out ++ y = encodeAll out ∧
        (plainFrames (cf s).frameReassemble out).map Frame.encode =
          (c'.dir s).log.filterMap Outcome.passed) ∧
      ∀ b w, .refused b w ∈ (c'.dir s).log → (c'.dir s).sent ++ (c'.dir s).ready = w := by
  have hinit := (attach_spec h0 s).1
  rw [hmode] at hinit
  obtain ⟨hacc, hhalts⟩ := account_init hinit
  have hfrom : ∀ l, Moves (cf s) ⟨c.dir s, false, false⟩ l → Account (cf s) l ∧ Halts (cf s) l ∧
      (cf s).assembles l.dir = (cf s).frameReassemble := by
    intro l hm
    have hl := hacc.moves hb hm
    refine ⟨hl, hhalts.moves hacc hb hm, ?_⟩
    rw [Conf.assembles, hl.mode]
    exact Bool.and_true _
  obtain ⟨o, hl, -⟩ := runs_gets h0 h s
  have hfinal : Accounted (cf s).frameReassemble (c'.dir s) ∧
      ∀ b w, .refused b w ∈ (c'.dir s).log → (c'.dir s).sent ++ (c'.dir s).ready = w := by
    cases o with
    | false =>
      obtain ⟨ha, hh, hre⟩ := hfrom _ hl
      exact ⟨hre ▸ ha.bytes, fun b w hmem => (hh b w hmem).1⟩
    | true =>
      obtain ⟨l, hm, hend⟩ := hl
      obtain ⟨ha, hh, hre⟩ := hfrom l hm
      rw [← hre]
      exact hend.account ha hh hb
  refine ⟨fun y hy hn => ?_, hfinal.2⟩
  obtain ⟨out, hbytes, hsift⟩ := hfinal.1 y hy hn
  exact ⟨out, hbytes, hsift.plainFrames_eq⟩

theorem released_settled_message :
    ∃ c c', attach (fun _ => sampleConf) (fun _ => .inspect)
        (Side.pick (encodeAll shortFrames) []) = some c ∧
      runs (fun _ => sampleConf) [.process .c2s [allowIo, allowIo] true] c = some c' ∧
      (c'.dir .c2s).log = [.allowed [0x81, 0x84, 0, 0, 0, 0, 1, 2, 3, 5]] ∧
      ∃ out, (c'.dir .c2s).sent ++ (c'.dir .c2s).ready ++ (c'.dir .c2s).out ++ [] = encodeAll out ∧
        (plainFrames true out).map Frame.encode = (c'.dir .c2s).log.filterMap Outcome.passed := by
  refine ⟨_, _, rfl, rfl, rfl, ?_⟩
  exact (@released_settled (fun _ => sampleConf) (fun _ => .inspect)
    (Side.pick (encodeAll shortFrames) []) _ _ [.process .c2s [allowIo, allowIo] true] .c2s
    rfl rfl rfl rfl).1 [] rfl (.inr List.nil_prefix)

/-- A plain first fragment and a continuation with an extension bit. -/
def extendedFrames : List Frame :=
  [⟨false, 0, 1, .short, some zeroKey, [97], by decide⟩,
    ⟨true, 4, 0, .short, some zeroKey, [98], by decide⟩]

/-- The fragment, whose own extension bits are clear, goes on without an inspection. -/
theorem fragment_released_uninspected :
    ∃ c c', attach (fun _ => sampleConf) (fun _ => .inspect)
        (Side.pick (encodeAll extendedFrames) []) = some c ∧
      runs (fun _ => sampleConf) [.process .c2s [idleIo] true] c = some c' ∧
      (c'.dir .c2s).ready = encodeAll extendedFrames ∧ (c'.dir .c2s).handed = [] ∧
      (c'.dir .c2s).log = [] :=
  ⟨_, _, rfl, rfl, rfl, rfl, rfl⟩

end Frames
