import PlacitumNode.Wave.Effects

/-!
# Everything one step of a phase can do

While a wave is awaited, an event either records a reply, counts inspectors as silent, or is the
deadline of the phase; each then lets the wave go on, settles it or concludes the phase.

* `Silent`: inspectors are counted as silent, and a mandatory one fails the phase;
* `onReply_cases`, `skip_cases`, `onDeadline_cases`, `step_cases`: the inversion of a step;
* `publishWave_spec`: a wave that has just been published.
-/

namespace Waves

open Flags Octets Slots Run

/-! ### Silent inspectors -/

/-- From `s` to `t` inspectors are counted as silent in the slot, and nothing else happens to the
wave; a mandatory one fails the phase. -/
structure Silent (c : Conf) (w : Wave) (s : St) (slot : SlotRec) (t : St) (slot' : SlotRec) :
    Prop where
  held : t.slot = some slot'
  wave : t.wave = s.wave
  state : t.state = s.state
  waiting : t.waiting = s.waiting
  ctl : t.ctl = s.ctl
  score : t.score = s.score
  denied : slot'.denied = slot.denied
  awaited : slot'.awaited = slot.awaited
  got : ∀ i, has slot.got i = true → has slot'.got i = true
  replies : ∀ i, ∃ e, t.replies i = { s.replies i with state := e }
  fail : t.fail = s.fail ∨ t.fail ≠ .none
  missed : ∀ i, has slot.got i = false → has slot'.got i = true →
    has (waveMandatory c s w) i = true → t.fail ≠ .none

variable {c : Conf} {w : Wave} {s t u : St} {slot slot' slot'' : SlotRec}

theorem Silent.refl (h : s.slot = some slot) : Silent c w s slot s slot :=
  ⟨h, rfl, rfl, rfl, rfl, rfl, rfl, rfl, fun _ h => h, fun _ => ⟨_, rfl⟩, Or.inl rfl,
    fun _ h h' => by rw [h] at h'; cases h'⟩

theorem Silent.fail_ne (h : Silent c w s slot t slot') (hf : s.fail ≠ .none) : t.fail ≠ .none := by
  rcases h.fail with he | hne
  · rwa [he]
  · exact hne

theorem Silent.trans (h : Silent c w s slot t slot') (h' : Silent c w t slot' u slot'') :
    Silent c w s slot u slot'' := by
  refine ⟨h'.held, h'.wave.trans h.wave, h'.state.trans h.state, h'.waiting.trans h.waiting,
    h'.ctl.trans h.ctl, h'.score.trans h.score, h'.denied.trans h.denied,
    h'.awaited.trans h.awaited, fun i hi => h'.got i (h.got i hi), fun i => ?_, ?_, ?_⟩
  · obtain ⟨e, he⟩ := h.replies i
    obtain ⟨e', he'⟩ := h'.replies i
    exact ⟨e', by rw [he', he]⟩
  · rcases h'.fail with he' | hne'
    · rw [he']
      exact h.fail
    · exact Or.inr hne'
  · intro i hi hi'' hm
    by_cases hmid : has slot'.got i = true
    · exact h'.fail_ne (h.missed i hi hmid hm)
    · refine h'.missed i (by simpa using hmid) hi'' ?_
      rw [(modes_congr (congrFun h.ctl c.phase)).2.2.1]
      exact hm

theorem mark_replies (s : St) (mask : Mask) (e : Entry) (i : Index) :
    ∃ e', (s.mark mask e).replies i = { s.replies i with state := e' } := by
  unfold St.mark
  simp only
  split_ifs
  · exact ⟨e, rfl⟩
  · exact ⟨_, rfl⟩

theorem silent_countSilent {mask : Mask} {e : Entry} {code : Code} (hcode : code ≠ .none) :
    Silent c w s slot (countSilent c w s slot mask e code)
      { slot with got := slot.got ||| mask } := by
  unfold countSilent
  simp only
  generalize ht : St.mark { s with slot := some { slot with got := slot.got ||| mask } } mask e = t
  have hrep : ∀ i, ∃ e', t.replies i = { s.replies i with state := e' } := by
    subst ht
    exact mark_replies { s with slot := some { slot with got := slot.got ||| mask } } mask e
  have hmono : ∀ i, has slot.got i = true → has (slot.got ||| mask) i = true := by
    intro i hi
    simp [hi]
  have hslot : t.slot = some { slot with got := slot.got ||| mask } := by subst ht; rfl
  have hctl : t.ctl = s.ctl := by subst ht; rfl
  have hmand : waveMandatory c t w = waveMandatory c s w :=
    (modes_congr (congrFun hctl c.phase)).2.2.1
  have hrest : t.wave = s.wave ∧ t.state = s.state ∧ t.waiting = s.waiting ∧ t.score = s.score ∧
      t.fail = s.fail := by subst ht; exact ⟨rfl, rfl, rfl, rfl, rfl⟩
  obtain ⟨hw, hst, hwt, hsc, hf⟩ := hrest
  rw [hmand]
  split_ifs with hm
  · exact ⟨hslot, hw, hst, hwt, hctl, hsc, rfl, rfl, hmono, hrep, Or.inr hcode,
      fun _ _ _ _ => hcode⟩
  · refine ⟨hslot, hw, hst, hwt, hctl, hsc, rfl, rfl, hmono, hrep, Or.inl hf, ?_⟩
    intro i hi hi' hmi
    exact absurd (and_ne_zero_iff.2 ⟨i, by simpa [hi] using hi', hmi⟩) hm

/-! ### A reply -/

/-- From `s` to `t` the reply `r` of the inspector `i` is recorded in the wave `w` with the mode
`i` has at this moment, and its actions are carried out. -/
structure Heard (c : Conf) (w : Wave) (i : Index) (r : Reply) (s : St) (slot : SlotRec) (t : St)
    (slot' : SlotRec) : Prop where
  held : t.slot = some slot'
  wave : t.wave = s.wave
  state : t.state = s.state
  waiting : t.waiting = s.waiting
  got : slot'.got = slot.got ||| bit i
  awaited : slot'.awaited = slot.awaited
  denied : slot'.denied =
    if r.verdict = .deny ∨ r.verdict = .redirect then slot.denied ||| bit i else slot.denied
  other : ∀ j, j ≠ i → t.replies j = s.replies j
  own : ∃ x o l, t.replies i =
    { r with
      received := true, state := .answered
      passive := has (wavePassive c s w) i, vote := has (waveVote c s w) i
      latency := l, wave := slot.wave, score := x, order := o }
  fail : t.fail = s.fail ∨ t.fail ≠ .none
  gating : ∀ j, has (waveGating c t w) j = true →
    has (waveGating c s w) j = true ∨ r.activates c j
  modes : ∀ j, ¬r.controls c j →
    has (waveMandatory c t w) j = has (waveMandatory c s w) j

/-- The two ways a recorded reply goes on: the wave is settled, or the phase is resumed at once
because it has failed or a gating inspector refuses in fast mode. -/
def Goes (c : Conf) (w : Wave) (i : Index) (t : St) (slot' : SlotRec) (s' : St) : Prop :=
  s' = settle c t ∨
    s' = resume c t ∧ (t.fail ≠ .none ∨ has slot'.denied i = true ∧ has (waveGating c t w) i = true)

theorem onReply_of_unexpected {i : Index} {r : Reply} {now : ℕ} (hslot : s.slot = some slot)
    (hw : currentWave c s = some w) (h : has w.all i = false ∨ has slot.got i = true) :
    onReply c s i r now = s := by
  unfold onReply
  rw [hslot, hw]
  simp only [replyIn]
  rw [if_pos (by rcases h with h | h <;> simp [h])]

/-- **A reply.** The codec hands over no redirect outside the request phase. -/
theorem onReply_cases {i : Index} {r : Reply} {now : ℕ} (hslot : s.slot = some slot)
    (hw : currentWave c s = some w) (hall : has w.all i = true) (hgot : has slot.got i = false)
    (hred : r.verdict = .redirect → c.phase = .request) :
    ∃ t slot', Heard c w i r s slot t slot' ∧ Goes c w i t slot' (onReply c s i r now) := by
  have hfr := @frame_accept c s slot w i _ now hred
  obtain ⟨x, o, hown⟩ := hfr.own
  have hown' : (accept c s slot w i r now).replies i =
      { r with
        received := true, state := .answered
        passive := has (wavePassive c s w) i, vote := has (waveVote c s w) i
        latency := now - slot.published, wave := slot.wave, score := x, order := o } := by
    rw [hown]
    simp [recorded, St.setReply]
  have hother : ∀ j, j ≠ i → (accept c s slot w i r now).replies j = s.replies j := by
    intro j hj
    rw [hfr.other j hj]
    simp [recorded, St.setReply, Function.update_of_ne hj]
  have hsl : (accept c s slot w i r now).slot = some { slot with got := slot.got ||| bit i } :=
    hfr.slot
  have hf : (accept c s slot w i r now).fail = s.fail := hfr.fail
  unfold onReply
  rw [hslot, hw]
  simp only [replyIn]
  rw [if_neg (by simp [hall, hgot])]
  by_cases herr : r.verdict = .error
  · have hden : ¬(r.verdict = .deny ∨ r.verdict = .redirect) := by simp [herr]
    rw [if_pos herr]
    have hcode : r.failCode ≠ .none := by
      unfold Reply.failCode
      split_ifs <;> decide
    split_ifs with hg
    · exact ⟨{ accept c s slot w i r now with fail := r.failCode },
        { slot with got := slot.got ||| bit i },
        ⟨hsl, hfr.wave, hfr.state, hfr.waiting, rfl, rfl, (if_neg hden).symm, hother,
          ⟨x, o, _, hown'⟩, Or.inr hcode, fun j => gating_accept,
          fun j hj => (modes_accept hj).2.2.1⟩,
        Or.inr ⟨rfl, Or.inl hcode⟩⟩
    · exact ⟨accept c s slot w i r now, { slot with got := slot.got ||| bit i },
        ⟨hsl, hfr.wave, hfr.state, hfr.waiting, rfl, rfl, (if_neg hden).symm, hother,
          ⟨x, o, _, hown'⟩, Or.inl hf, fun j => gating_accept,
          fun j hj => (modes_accept hj).2.2.1⟩,
        Or.inl rfl⟩
  · rw [if_neg herr]
    by_cases hden : r.verdict = .deny ∨ r.verdict = .redirect
    · rw [if_pos hden]
      have hheard : Heard c w i r s slot
          { accept c s slot w i r now with
            slot := (accept c s slot w i r now).slot.map fun slot =>
              { slot with denied := slot.denied ||| bit i } }
          { slot with got := slot.got ||| bit i, denied := slot.denied ||| bit i } :=
        ⟨by simp only [hsl]; rfl, hfr.wave, hfr.state, hfr.waiting, rfl, rfl, (if_pos hden).symm,
          hother, ⟨x, o, _, hown'⟩, Or.inl hf, fun j => gating_accept,
          fun j hj => (modes_accept hj).2.2.1⟩
      split_ifs with hg
      · exact ⟨_, _, hheard, Or.inr ⟨rfl, Or.inr ⟨by simp, hg.2⟩⟩⟩
      · exact ⟨_, _, hheard, Or.inl rfl⟩
    · rw [if_neg hden]
      exact ⟨accept c s slot w i r now, { slot with got := slot.got ||| bit i },
        ⟨hsl, hfr.wave, hfr.state, hfr.waiting, rfl, rfl, (if_neg hden).symm, hother,
          ⟨x, o, _, hown'⟩, Or.inl hf, fun j => gating_accept,
          fun j hj => (modes_accept hj).2.2.1⟩,
        Or.inl rfl⟩

/-! ### Silence and the deadline -/

theorem skip_cases {i : Index} {code : Code} (hcode : code ≠ .none) (hslot : s.slot = some slot)
    (hw : currentWave c s = some w) :
    skip c s i code = s ∨
      ∃ t slot', Silent c w s slot t slot' ∧ skip c s i code = settle c t := by
  unfold skip
  rw [hslot, hw]
  simp only [skipIn]
  split
  · exact Or.inl rfl
  · refine Or.inr ⟨_, { slot with got := slot.got ||| bit i }, ?_, rfl⟩
    have hs : Silent c w s slot { s with skipped := s.skipped ||| bit i } slot :=
      ⟨hslot, rfl, rfl, rfl, rfl, rfl, rfl, rfl, fun _ h => h, fun _ => ⟨_, rfl⟩, Or.inl rfl,
        fun _ h h' => by rw [h] at h'; cases h'⟩
    exact hs.trans (silent_countSilent hcode)

/-- A no-responder notice. -/
theorem busAbsent_cases {i : Index} {sent : Bool} (hslot : s.slot = some slot)
    (hw : currentWave c s = some w) :
    ∃ t slot', Silent c w s slot t slot' ∧
      (busAbsent c s i sent = t ∨ busAbsent c s i sent = settle c t) := by
  have hskip : ∀ {s₀ : St} {code : Code}, code ≠ .none → Silent c w s slot s₀ slot →
      ∃ t slot', Silent c w s slot t slot' ∧
        (skip c s₀ i code = t ∨ skip c s₀ i code = settle c t) := by
    intro s₀ code hcode hs
    have hw₀ : currentWave c s₀ = some w := by
      unfold currentWave at hw ⊢
      rw [hs.wave, hw]
    rcases skip_cases (i := i) hcode hs.held hw₀ with h | ⟨t, slot', ht, h⟩
    · exact ⟨s₀, slot, hs, Or.inl h⟩
    · exact ⟨t, slot', hs.trans ht, Or.inr h⟩
  have hpers : Silent c w s slot { s with personal := s.personal &&& ~~~bit i } slot :=
    ⟨hslot, rfl, rfl, rfl, rfl, rfl, rfl, rfl, fun _ h => h, fun _ => ⟨_, rfl⟩, Or.inl rfl,
      fun _ h h' => by rw [h] at h'; cases h'⟩
  unfold busAbsent
  by_cases hn : c.ninspectors ≤ i.val
  · rw [if_pos hn]
    exact ⟨s, slot, Silent.refl hslot, Or.inl rfl⟩
  rw [if_neg hn]
  by_cases hp : !has s.personal i ∨ has s.got i
  · rw [if_pos hp]
    exact hskip (by decide) (Silent.refl hslot)
  rw [if_neg hp]
  cases c.bindingFind i c.phase with
  | none => exact hskip (by decide) hpers
  | some b =>
    simp only
    split_ifs
    · exact hskip (by decide) hpers
    · exact ⟨_, slot, hpers, Or.inl rfl⟩
    · exact hskip (by decide) hpers

/-- The phase's deadline fires: its time is up and the phase still waits. -/
def DeadlineFires (s : St) (now : ℕ) : Prop :=
  s.waiting = true ∧ Machine.signed ((s.due : ℤ) - now) ≤ 0

instance (s : St) (now : ℕ) : Decidable (DeadlineFires s now) := by
  unfold DeadlineFires; infer_instance

/-- A timer event is the timeouts of inspectors or the deadline of the phase. -/
theorem onDeadline_cases {now : ℕ} (hslot : s.slot = some slot) (hw : currentWave c s = some w) :
    (∃ t slot', Silent c w s slot t slot' ∧
      (onDeadline c s now = t ∨ onDeadline c s now = settle c t)) ∨
    DeadlineFires s now ∧
      (onDeadline c s now = resume c s ∧
          slot.got &&& waveMandatory c s w = waveMandatory c s w ∨
        onDeadline c s now = resume c { s with fail := .failTimeout }) := by
  unfold onDeadline
  split
  · rename_i hnone
    rw [hslot] at hnone
    cases hnone
  rename_i slot₁ hslot₁
  obtain rfl : slot₁ = slot := Option.some.inj (hslot₁.symm.trans hslot)
  split_ifs with hwait htime
  · exact Or.inl ⟨s, slot₁, Silent.refl hslot, Or.inl rfl⟩
  · refine Or.inl ?_
    simp only [expire, hw]
    split_ifs
    · exact ⟨s, slot₁, Silent.refl hslot, Or.inl rfl⟩
    · exact ⟨_, _, silent_countSilent (by decide), Or.inr rfl⟩
  · refine Or.inr ⟨⟨by simpa using hwait, by omega⟩, ?_⟩
    simp only [failDeadline, hw]
    split_ifs with hm
    · exact Or.inl ⟨rfl, hm⟩
    · exact Or.inr rfl

/-! ### The start of a wave -/

theorem settle_of_not_waiting (h : s.waiting = false) : settle c s = s := by
  unfold settle
  split
  · rfl
  · rw [if_pos (by simp [h])]

/-- Publication counts inspectors whose breaker is open as silent. -/
theorem publishLoop_silent (io : StartIo) (is : List Index) :
    ∀ {n : ℕ} {s : St} {slot : SlotRec}, s.slot = some slot → s.waiting = false →
      currentWave c s = some w →
      ∃ slot', Silent c w s slot (publishLoop c io is n s).2 slot' := by
  induction is with
  | nil => intro n s slot hslot _ _; exact ⟨slot, Silent.refl hslot⟩
  | cons i is ih =>
    intro n s slot hslot hwait hw
    unfold publishLoop
    -- recording that `i` was asked touches nothing the wave depends on
    have hpub : ∀ {published personal : Mask}, Silent c w s slot
        { s with published := published, personal := personal } slot := by
      intro _ _
      exact ⟨hslot, rfl, rfl, rfl, rfl, rfl, rfl, rfl, fun _ h => h, fun _ => ⟨_, rfl⟩,
        Or.inl rfl, fun _ h h' => by rw [h] at h'; cases h'⟩
    have hgo : ∀ {n : ℕ} {t : St} {slot₁ : SlotRec}, Silent c w s slot t slot₁ →
        ∃ slot', Silent c w s slot (publishLoop c io is n t).2 slot' := by
      intro n t slot₁ ht
      have hw' : currentWave c t = some w := by
        unfold currentWave at hw ⊢
        rw [ht.wave, hw]
      obtain ⟨slot', h'⟩ := ih (n := n) ht.held (ht.waiting.trans hwait) hw'
      exact ⟨slot', ht.trans h'⟩
    by_cases hn : c.ninspectors ≤ i.val
    · rw [if_pos hn]
      exact hgo (Silent.refl hslot)
    rw [if_neg hn]
    cases hb : io.breaker i with
    | false =>
      simp only [Bool.not_false, if_true]
      rcases @skip_cases _ _ { s with published := s.published ||| bit i } _ i .failTimeout
        (by decide) hslot hw with h | ⟨t, slot₁, ht, h⟩
      · rw [h]
        exact hgo hpub
      · rw [h, settle_of_not_waiting (ht.waiting.trans hwait)]
        exact hgo (hpub.trans ht)
    | true =>
      simp only [Bool.not_true, Bool.false_eq_true, if_false]
      cases hp : io.publish i with
      | false => exact ⟨slot, hpub⟩
      | true =>
        simp only [Bool.not_true, Bool.false_eq_true, if_false]
        exact hgo hpub

/-- A wave just published from the state `s`: its slot awaits every mandatory inspector whose
condition holds, and one that is already counted as silent has failed the phase. -/
structure Published (c : Conf) (w : Wave) (s t : St) (slot : SlotRec) : Prop where
  held : t.slot = some slot
  wave : t.wave = s.wave
  state : t.state = s.state
  waiting : t.waiting = s.waiting
  ctl : t.ctl = s.ctl
  score : t.score = s.score
  denied : slot.denied = 0#64
  replies : ∀ i, ∃ e, t.replies i = { s.replies i with state := e }
  fail : t.fail = s.fail ∨ t.fail ≠ .none
  awaited : ∀ i, has (waveMandatory c s w) i = true → has c.condOff i = false →
    has slot.awaited i = true ∧ (has slot.got i = true → t.fail ≠ .none)

/-- Leaving inspectors out changes the slot's `got` and the entries' states. -/
theorem omitOpen_spec (s : St) (mask : Mask) (e : Entry) (hslot : s.slot = some slot) :
    ∃ skipped controlled, ∃ replies : Index → Reply,
      (∀ i, ∃ e', replies i = { s.replies i with state := e' }) ∧
      omitOpen s mask e = { s with
        slot := some { slot with got := slot.got ||| (mask &&& ~~~slot.got) }
        skipped := skipped, controlled := controlled, replies := replies } := by
  unfold omitOpen
  rw [hslot]
  simp only
  split_ifs with hm
  · unfold omitMask
    split_ifs with he
    · exact ⟨_, _, _, mark_replies s (mask &&& ~~~slot.got) e, by simp only [hslot]; rfl⟩
    · exact ⟨_, _, _, mark_replies s (mask &&& ~~~slot.got) e, by simp only [hslot]; rfl⟩
  · rw [not_not] at hm
    refine ⟨s.skipped, s.controlled, s.replies, fun i => ⟨_, rfl⟩, ?_⟩
    rw [hm]
    simp [← hslot]

/-- The slot of a wave about to be published. -/
theorem awaiting_spec (c : Conf) (w : Wave) (s : St) (now : ℕ) :
    ∃ slot, Published c w s (awaiting c s w now) slot ∧
      (awaiting c s w now).fail = s.fail ∧
      ∀ i, has (waveMandatory c s w) i = true → has c.condOff i = false →
        has slot.got i = false := by
  obtain ⟨k₁, k₂, f, hf, h₁⟩ := omitOpen_spec
    { s with slot := some ⟨s.wave, 0#64, 0#64, 0#64, now⟩ } (c.condOff &&& w.all) .skipped rfl
  generalize hs₁ : omitOpen { s with slot := some ⟨s.wave, 0#64, 0#64, 0#64, now⟩ }
    (c.condOff &&& w.all) .skipped = s₁ at h₁
  have hslot₁ : s₁.slot = some { (⟨s.wave, 0#64, 0#64, 0#64, now⟩ : SlotRec) with
      got := 0#64 ||| (c.condOff &&& w.all &&& ~~~0#64) } := by rw [h₁]
  have hctl₁ : s₁.ctl = s.ctl := by rw [h₁]
  have hoff : waveOff c s₁ w = waveOff c s w := by simp [waveOff, hctl₁]
  obtain ⟨k₃, k₄, g, hg, h₂⟩ := omitOpen_spec s₁ (waveOff c s₁ w) .off hslot₁
  generalize hs₂ : omitOpen s₁ (waveOff c s₁ w) .off = s₂ at h₂
  have hctl₂ : s₂.ctl = s.ctl := by rw [h₂]; exact hctl₁
  obtain ⟨hp, -, hm, -⟩ := modes_congr (c := c) (w := w) (congrFun hctl₂ c.phase)
  have haw : awaiting c s w now =
      { s₂ with
        wavePublished := now
        slot := s₂.slot.map fun slot => { slot with
          awaited := (waveMandatory c s₂ w ||| wavePassive c s₂ w) &&& ~~~slot.got } } := by
    simp only [awaiting, omitted, hs₁, hs₂]
  have hslot₂ : s₂.slot = some ⟨s.wave, 0#64 ||| (c.condOff &&& w.all &&& ~~~0#64) |||
      (waveOff c s₁ w &&& ~~~(0#64 ||| (c.condOff &&& w.all &&& ~~~0#64))), 0#64, 0#64, now⟩ := by
    rw [h₂]
  have hopen : ∀ i, has (waveMandatory c s w) i = true → has c.condOff i = false →
      has (0#64 ||| (c.condOff &&& w.all &&& ~~~0#64) |||
        (waveOff c s₁ w &&& ~~~(0#64 ||| (c.condOff &&& w.all &&& ~~~0#64)))) i = false := by
    intro i hi hc
    simp only [waveMandatory, has_and, has_not, Bool.and_eq_true, Bool.not_eq_true'] at hi
    simp [hc, hoff, hi.1.2]
  refine ⟨_, ⟨by rw [haw, hslot₂]; rfl, ?_, ?_, ?_, ?_, ?_, rfl, ?_, ?_, ?_⟩, ?_, hopen⟩
  · rw [haw, h₂, h₁]
  · rw [haw, h₂, h₁]
  · rw [haw, h₂, h₁]
  · rw [haw]; exact hctl₂
  · rw [haw, h₂, h₁]
  · intro i
    obtain ⟨e₁, he₁⟩ := hf i
    obtain ⟨e₂, he₂⟩ := hg i
    refine ⟨e₂, ?_⟩
    rw [haw, h₂]
    simp only
    rw [he₂, h₁]
    simp only
    rw [he₁]
  · rw [haw, h₂, h₁]; exact Or.inl rfl
  · intro i hi hc
    have ho := hopen i hi hc
    rw [hm, hp]
    simp only
    refine ⟨?_, fun h => ?_⟩
    · rw [has_and, has_or, has_not, hi, ho]
      rfl
    · rw [ho] at h
      cases h
  · rw [haw, h₂, h₁]

/-- Counting inspectors as silent keeps a published wave published. -/
theorem Published.silent (h : Published c w s t slot) (h' : Silent c w t slot u slot') :
    Published c w s u slot' := by
  refine ⟨h'.held, h'.wave.trans h.wave, h'.state.trans h.state, h'.waiting.trans h.waiting,
    h'.ctl.trans h.ctl, h'.score.trans h.score, h'.denied.trans h.denied, fun i => ?_, ?_, ?_⟩
  · obtain ⟨e, he⟩ := h.replies i
    obtain ⟨e', he'⟩ := h'.replies i
    exact ⟨e', by rw [he', he]⟩
  · rcases h'.fail with he | hne
    · rw [he]
      exact h.fail
    · exact Or.inr hne
  · intro i hi hc
    obtain ⟨ha, hg⟩ := h.awaited i hi hc
    rw [h'.awaited]
    refine ⟨ha, fun hgot => ?_⟩
    by_cases hg' : has slot.got i = true
    · exact h'.fail_ne (hg hg')
    · refine h'.missed i (by simpa using hg') hgot ?_
      rw [(modes_congr (congrFun h.ctl c.phase)).2.2.1]
      exact hi

/-- **Publication.** Whether it succeeds or not, the state it leaves is that of a published wave. -/
theorem publishWave_spec (io : StartIo) (hwait : s.waiting = false)
    (hw : currentWave c s = some w) :
    ∃ slot, Published c w s (publishWave c s io).2 slot := by
  obtain ⟨slot, hpub, -, -⟩ := awaiting_spec c w s io.now
  have hw' : currentWave c (awaiting c s w io.now) = some w := by
    unfold currentWave at hw ⊢
    rw [hpub.wave, hw]
  have hcases : ∃ slot', Silent c w (awaiting c s w io.now) slot (publishWave c s io).2 slot' := by
    unfold publishWave
    rw [hw]
    simp only
    obtain ⟨slot', h'⟩ := publishLoop_silent (c := c) io
      ((List.finRange 64).filter fun i =>
        has (w.all &&& ~~~(awaiting c s w io.now).slotGot) i) (n := 0) hpub.held
      (hpub.waiting.trans hwait) hw'
    generalize publishLoop c io _ 0 (awaiting c s w io.now) = x at h' ⊢
    obtain ⟨_ | n, t⟩ := x <;> exact ⟨slot', h'⟩
  obtain ⟨slot', h'⟩ := hcases
  exact ⟨slot', hpub.silent h'⟩

/-! ### One step -/

/-- No wave is awaited: before a wave, or after the end of the phase. -/
structure Idle (s : St) : Prop where
  waiting : s.waiting = false
  slot : s.slot = none
  state : s.state ≠ .waiting

/-- The wave `w` is awaited. -/
structure Awaits (c : Conf) (s : St) (slot : SlotRec) (w : Wave) : Prop where
  waiting : s.waiting = true
  slot : s.slot = some slot
  state : s.state = .waiting
  wave : currentWave c s = some w

/-- The reply of `i` would be accounted now. -/
def Accounts (c : Conf) (slot : SlotRec) (w : Wave) (i : Index) : Prop :=
  i.val < c.ninspectors ∧ has w.all i = true ∧ has slot.got i = false

/-- The start of a wave publishes it. -/
def Publishes (c : Conf) (s : St) (io : StartIo) : Prop :=
  s.state = .nextWave ∧ io.prepare = .ready ∧
    (publishWave c { s with due := if s.due = 0 then io.now + c.deadline else s.due } io).1 = true

/-- Of the entries only the states changed. -/
def SameReplies (s t : St) : Prop := ∀ i, ∃ e, t.replies i = { s.replies i with state := e }

/-- What a step from an idle state can do. -/
inductive IdleStep (c : Conf) (s : St) (e : Event) : St → Prop
  | stay : (∀ io, e = .start io → s.state ≠ .nextWave ∨ io.prepare ≠ .ready) → IdleStep c s e s
  | state (st : State) : (s.state = .nextWave ∨ s.state = .needBody ∨ s.state = .placingMeta) →
      (st = .nextWave ∨ st = .needBody ∨ st = .placingMeta) →
      (∀ io, e = .start io → ¬Publishes c s io) → IdleStep c s e { s with state := st }
  | failed (t : St) (code : Code) : code ≠ .none → t.wave = s.wave → SameReplies s t →
      t.waiting = s.waiting → (∀ io, e = .start io → ¬Publishes c s io) →
      IdleStep c s e (startFailed t code)
  | closed (io : StartIo) (w : Wave) (t : St) (slot : SlotRec) : e = .start io →
      Publishes c s io → currentWave c s = some w → Published c w s t slot → waveClosed slot →
      IdleStep c s e (endWave c t slot)
  | awaits (io : StartIo) (w : Wave) (t : St) (slot : SlotRec) : e = .start io →
      Publishes c s io → currentWave c s = some w → Published c w s t slot → ¬waveClosed slot →
      IdleStep c s e { t with state := .waiting, waiting := true }

/-- What a step can do while a wave is awaited. -/
inductive AwaitStep (c : Conf) (w : Wave) (s : St) (slot : SlotRec) (e : Event) : St → Prop
  | stay : (∀ i r now, e = .reply i r now → ¬Accounts c slot w i) → AwaitStep c w s slot e s
  | reply (i : Index) (r : Reply) (now : ℕ) (t : St) (slot' : SlotRec) (s' : St) :
      e = .reply i r now → Accounts c slot w i →
      Heard c w i (msgReply c.phase r) s slot t slot' → Goes c w i t slot' s' →
      AwaitStep c w s slot e s'
  | silent (t : St) (slot' : SlotRec) (s' : St) : (∀ i r now, e ≠ .reply i r now) →
      Silent c w s slot t slot' → (s' = t ∨ s' = settle c t) → AwaitStep c w s slot e s'
  | deadline (now : ℕ) : e = .timer now → DeadlineFires s now →
      slot.got &&& waveMandatory c s w = waveMandatory c s w → AwaitStep c w s slot e (resume c s)
  | late (now : ℕ) : e = .timer now → DeadlineFires s now →
      AwaitStep c w s slot e (resume c { s with fail := .failTimeout })

theorem msgReply_redirect (phase : Phase) (r : Reply)
    (h : (msgReply phase r).verdict = .redirect) : phase = .request := by
  by_contra hp
  unfold msgReply at h
  simp only [ne_eq, hp, not_false_eq_true, and_true] at h
  split_ifs at h <;> simp_all

theorem step_await (h : Awaits c s slot w) (e : Event) :
    AwaitStep c w s slot e (step c s e) := by
  cases e with
  | start io =>
    have : step c s (.start io) = s := if_neg (by rw [h.state]; decide)
    rw [this]
    exact .stay (by rintro i r now ⟨⟩)
  | resumed ok =>
    have : step c s (.resumed ok) = s := if_neg (by rw [h.state]; decide)
    rw [this]
    exact .stay (by rintro i r now ⟨⟩)
  | reply i r now =>
    by_cases hacc : Accounts c slot w i
    · obtain ⟨hn, hall, hgot⟩ := hacc
      have : step c s (.reply i r now) = onReply c s i (msgReply c.phase r) now :=
        if_pos ⟨h.waiting, hn⟩
      rw [this]
      obtain ⟨t, slot', ht, hgo⟩ := @onReply_cases _ _ _ _ _ _ now h.slot h.wave hall hgot
        (msgReply_redirect c.phase r)
      exact .reply i r now t slot' _ rfl ⟨hn, hall, hgot⟩ ht hgo
    · have : step c s (.reply i r now) = s := by
        simp only [step]
        split_ifs with hn
        · apply onReply_of_unexpected h.slot h.wave
          by_contra hcon
          push Not at hcon
          exact hacc ⟨hn.2, by simpa using hcon.1, by simpa using hcon.2⟩
        · rfl
      rw [this]
      refine .stay ?_
      rintro j r' now' ⟨⟩
      exact hacc
  | absent i sent =>
    have : step c s (.absent i sent) = busAbsent c s i sent := if_pos h.waiting
    rw [this]
    obtain ⟨t, slot', ht, hor⟩ := @busAbsent_cases _ _ _ _ i sent h.slot h.wave
    exact .silent t slot' _ (by rintro i r now ⟨⟩) ht hor
  | timer now =>
    rcases @onDeadline_cases _ _ _ _ now h.slot h.wave with ⟨t, slot', ht, hor⟩ | ⟨hd, ⟨heq, hm⟩ | heq⟩
    · exact .silent t slot' _ (by rintro i r now ⟨⟩) ht hor
    · rw [show step c s (.timer now) = resume c s from heq]
      exact .deadline now rfl hd hm
    · rw [show step c s (.timer now) = resume c { s with fail := .failTimeout } from heq]
      exact .late now rfl hd

theorem waveStart_idle (h : Idle s) (hst : s.state = .nextWave) (io : StartIo) :
    IdleStep c s (.start io) (waveStart c s io) := by
  unfold waveStart
  cases hp : io.prepare with
  | needBody =>
    exact .state .needBody (Or.inl hst) (by simp) (by rintro io' ⟨⟩ ⟨-, hr, -⟩; simp [hp] at hr)
  | placingMeta =>
    exact .state .placingMeta (Or.inl hst) (by simp)
      (by rintro io' ⟨⟩ ⟨-, hr, -⟩; simp [hp] at hr)
  | slotBusy =>
    exact .failed s .failBus (by decide) rfl (fun i => ⟨_, rfl⟩) rfl
      (by rintro io' ⟨⟩ ⟨-, hr, -⟩; simp [hp] at hr)
  | placeFailed =>
    exact .failed s .failBody (by decide) rfl (fun i => ⟨_, rfl⟩) rfl
      (by rintro io' ⟨⟩ ⟨-, hr, -⟩; simp [hp] at hr)
  | ready =>
    simp only
    generalize hs₀ : ({ s with due := if s.due = 0 then io.now + c.deadline else s.due } : St) = s₀
    have hwait₀ : s₀.waiting = false := by rw [← hs₀]; exact h.waiting
    cases hw : currentWave c s with
    | none =>
      have hw₀ : currentWave c s₀ = none := by rw [← hs₀]; exact hw
      have hpub : publishWave c s₀ io = (false, s₀) := by
        unfold publishWave
        rw [hw₀]
      rw [hpub]
      refine .failed s₀ .failBus (by decide) (by rw [← hs₀]) (fun i => ⟨_, by rw [← hs₀]⟩)
        (by rw [← hs₀]) ?_
      rintro io' ⟨⟩ ⟨-, -, ht⟩
      rw [hs₀, hpub] at ht
      cases ht
    | some w =>
      have hw₀ : currentWave c s₀ = some w := by rw [← hs₀]; exact hw
      obtain ⟨slot, hpub⟩ := publishWave_spec (c := c) io hwait₀ hw₀
      have hpub' : Published c w s (publishWave c s₀ io).2 slot := by
        subst hs₀
        exact ⟨hpub.held, hpub.wave, hpub.state, hpub.waiting, hpub.ctl, hpub.score, hpub.denied,
          hpub.replies, hpub.fail, hpub.awaited⟩
      cases hok : (publishWave c s₀ io).1 with
      | false =>
        have hnot : ∀ io', Event.start io = .start io' → ¬Publishes c s io' := by
          rintro io' ⟨⟩ ⟨-, -, ht⟩
          rw [hs₀, hok] at ht
          cases ht
        generalize publishWave c s₀ io = x at hok hpub'
        obtain ⟨_, t⟩ := x
        cases hok
        exact .failed t .failBus (by decide) hpub'.wave hpub'.replies hpub'.waiting hnot
      | true =>
        have hyes : Publishes c s io := ⟨hst, hp, by rw [hs₀]; exact hok⟩
        generalize publishWave c s₀ io = x at hok hpub'
        obtain ⟨_, t⟩ := x
        cases hok
        have hslot : t.slot = some slot := hpub'.held
        simp only
        split
        · rename_i hnone
          rw [hslot] at hnone
          cases hnone
        rename_i slot₁ hslot₁
        obtain rfl : slot₁ = slot := Option.some.inj (hslot₁.symm.trans hslot)
        split_ifs with hc
        · exact .closed io w t slot₁ rfl hyes hw hpub' hc
        · exact .awaits io w t slot₁ rfl hyes hw hpub' hc

theorem step_idle (h : Idle s) (e : Event) : IdleStep c s e (step c s e) := by
  cases e with
  | start io =>
    by_cases hst : s.state = .nextWave
    · rw [show step c s (.start io) = waveStart c s io from if_pos hst]
      exact waveStart_idle h hst io
    · rw [show step c s (.start io) = s from if_neg hst]
      exact .stay (by rintro io' ⟨⟩; exact Or.inl hst)
  | resumed ok =>
    by_cases hst : s.state = .needBody ∨ s.state = .placingMeta
    · cases ok with
      | true =>
        rw [show step c s (.resumed true) = { s with state := .nextWave } from if_pos hst]
        exact .state .nextWave (Or.inr hst) (Or.inl rfl) (by rintro io ⟨⟩)
      | false =>
        rw [show step c s (.resumed false) = startFailed s .failBody from if_pos hst]
        exact .failed s .failBody (by decide) rfl (fun i => ⟨_, rfl⟩) rfl (by rintro io ⟨⟩)
    · rw [show step c s (.resumed ok) = s from if_neg hst]
      exact .stay (by rintro io ⟨⟩)
  | reply i r now =>
    rw [show step c s (.reply i r now) = s from if_neg (by rw [h.waiting]; simp)]
    exact .stay (by rintro io ⟨⟩)
  | absent i sent =>
    rw [show step c s (.absent i sent) = s from if_neg (by rw [h.waiting]; simp)]
    exact .stay (by rintro io ⟨⟩)
  | timer now =>
    have : step c s (.timer now) = s := by
      simp only [step, onDeadline, h.slot]
    rw [this]
    exact .stay (by rintro io ⟨⟩)

end Waves
