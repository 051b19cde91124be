import PlacitumNode.Wave.DenyDecided
import PlacitumNode.Wave.Score

/-!
# The books of a phase

The score of a phase is kept twice: as a total, and as one amount for each reply.  The totals are
adjusted when a reply is accounted and by every score action, with the amount of the reply.

* `Reply.counted`, `Balanced`: the totals are the sums of the amounts;
* `SameBooks`: a step that leaves the books alone;
* `balanced_account`, `balanced_scoreApply`: the two places where they change;
* `books_balanced`: they agree after every event of every run.
-/

namespace Waves

open Flags Octets Slots Run

variable {c : Conf} {s t u : St} {i : Index}

/-- What an entry adds to the total of the replies with this mode. -/
def Reply.counted (p : Bool) (r : Reply) : ℤ := if r.received = true ∧ r.passive = p then r.score else 0

/-- **The books agree**: each total is the sum of the amounts of its replies. -/
structure Balanced (s : St) : Prop where
  nonneg : 0 ≤ s.score
  total : s.score = ∑ i, (s.replies i).counted false
  shadow : s.shadow = ∑ i, (s.replies i).counted true
  range : ∀ i, -100 ≤ (s.replies i).score ∧ (s.replies i).score ≤ 100

/-- A phase whose context has just been allocated. -/
structure St.Opened (s : St) : Prop extends s.Fresh where
  shadow : s.shadow = 0
  scores : ∀ i, (s.replies i).score = 0

theorem St.Opened.balanced (h : s.Opened) : Balanced s := by
  have hzero : ∀ p, ∑ i, (s.replies i).counted p = 0 := by
    intro p
    refine Finset.sum_eq_zero fun i _ => ?_
    simp [Reply.counted, h.replies i]
  refine ⟨h.score.ge, ?_, ?_, fun i => ?_⟩
  · rw [hzero, h.score]
  · rw [hzero, h.shadow]
  · rw [h.scores i]
    norm_num

/-! ### Steps that leave the books alone -/

/-- Of the totals and the entries only the states of the entries changed. -/
structure SameBooks (s t : St) : Prop where
  score : t.score = s.score
  shadow : t.shadow = s.shadow
  replies : SameReplies s t

theorem SameBooks.refl (s : St) : SameBooks s s := ⟨rfl, rfl, fun _ => ⟨_, rfl⟩⟩

theorem SameBooks.trans (h : SameBooks s t) (h' : SameBooks t u) : SameBooks s u := by
  refine ⟨h'.score.trans h.score, h'.shadow.trans h.shadow, fun i => ?_⟩
  obtain ⟨e, he⟩ := h.replies i
  obtain ⟨e', he'⟩ := h'.replies i
  exact ⟨e', by rw [he', he]⟩

/-- Other fields than those of the books. -/
theorem sameBooks_of_eq (h₁ : t.score = s.score) (h₂ : t.shadow = s.shadow)
    (h₃ : t.replies = s.replies) : SameBooks s t :=
  ⟨h₁, h₂, fun i => ⟨(s.replies i).state, by rw [h₃]⟩⟩

theorem SameBooks.of_eq (h : SameBooks t u) (h₁ : t.score = s.score) (h₂ : t.shadow = s.shadow)
    (h₃ : t.replies = s.replies) : SameBooks s u := (sameBooks_of_eq h₁ h₂ h₃).trans h

theorem Balanced.same (hb : Balanced s) (h : SameBooks s t) : Balanced t := by
  have hcount : ∀ p i, (t.replies i).counted p = (s.replies i).counted p := by
    intro p i
    obtain ⟨e, he⟩ := h.replies i
    rw [he]
    rfl
  refine ⟨?_, ?_, ?_, fun i => ?_⟩
  · rw [h.score]
    exact hb.nonneg
  · simp only [h.score, hcount]
    exact hb.total
  · simp only [h.shadow, hcount]
    exact hb.shadow
  · obtain ⟨e, he⟩ := h.replies i
    rw [he]
    exact hb.range i

theorem sameBooks_mark (s : St) (mask : Mask) (e : Entry) : SameBooks s (s.mark mask e) :=
  ⟨rfl, rfl, fun i => mark_replies s mask e i⟩

theorem sameBooks_rewriteSettle (c : Conf) (s : St) (slot : SlotRec) :
    SameBooks s (rewriteSettle c s slot) := by
  unfold rewriteSettle
  split
  · exact .refl s
  · split_ifs
    · exact sameBooks_of_eq rfl rfl rfl
    · split <;> exact sameBooks_of_eq rfl rfl rfl
  · exact sameBooks_of_eq rfl rfl rfl

theorem sameBooks_conclude (c : Conf) (s : St) : SameBooks s (conclude c s) := by
  unfold conclude failPass resolveVerdict
  simp only
  split
  · split_ifs <;> exact sameBooks_of_eq rfl rfl rfl
  · split
    · split_ifs <;> exact sameBooks_of_eq rfl rfl rfl
    · split <;> split_ifs <;> exact sameBooks_of_eq rfl rfl rfl

theorem sameBooks_resume (c : Conf) (s : St) : SameBooks s (resume c s) := by
  unfold resume
  split
  · exact .refl s
  · exact (sameBooks_rewriteSettle c s _).trans (sameBooks_conclude c _)

theorem sameBooks_endWave (c : Conf) (s : St) (slot : SlotRec) : SameBooks s (endWave c s slot) := by
  refine (sameBooks_rewriteSettle c s slot).trans ?_
  rcases endWave_cases c s slot with ⟨-, heq⟩ | ⟨-, heq⟩
  · rw [heq]
    exact sameBooks_of_eq rfl rfl rfl
  · rw [heq]
    exact sameBooks_conclude c _

theorem sameBooks_settle (c : Conf) (s : St) : SameBooks s (settle c s) := by
  unfold settle
  split
  · exact .refl s
  · split_ifs
    · exact .refl s
    · exact sameBooks_endWave c s _

theorem sameBooks_countSilent (c : Conf) (w : Wave) (s : St) (slot : SlotRec) (mask : Mask)
    (e : Entry) (code : Code) : SameBooks s (countSilent c w s slot mask e code) := by
  have hmark : SameBooks s
      (St.mark { s with slot := some { slot with got := slot.got ||| mask } } mask e) :=
    (sameBooks_mark _ mask e).of_eq rfl rfl rfl
  unfold countSilent
  simp only
  split_ifs
  · exact hmark.trans (sameBooks_of_eq rfl rfl rfl)
  · exact hmark

theorem sameBooks_skip (c : Conf) (s : St) (i : Index) (code : Code) :
    SameBooks s (skip c s i code) := by
  unfold skip
  split
  · next slot w _ _ =>
    simp only [skipIn]
    by_cases h : !has w.all i ∨ has slot.got i
    · rw [if_pos h]
      exact .refl s
    · rw [if_neg h]
      have hcount := (sameBooks_countSilent c w { s with skipped := s.skipped ||| bit i } slot (bit i)
        (if code = .failAbsent then .absent else .skipped) code).of_eq (s := s) rfl rfl rfl
      exact hcount.trans (sameBooks_settle c _)
  · exact .refl s

theorem sameBooks_failDeadline (c : Conf) (s : St) (slot : SlotRec) :
    SameBooks s (failDeadline c s slot) := by
  have hlate : SameBooks s (resume c { s with fail := .failTimeout }) :=
    (sameBooks_resume c _).of_eq rfl rfl rfl
  unfold failDeadline
  split
  · split_ifs
    · exact sameBooks_resume c s
    · exact hlate
  · exact hlate

theorem sameBooks_onDeadline (c : Conf) (s : St) (now : ℕ) : SameBooks s (onDeadline c s now) := by
  unfold onDeadline
  split
  · exact .refl s
  · next slot _ =>
    split_ifs
    · exact .refl s
    · unfold expire
      split
      · simp only
        split_ifs
        · exact .refl s
        · exact (sameBooks_countSilent c _ s slot _ _ _).trans (sameBooks_settle c _)
      · exact sameBooks_failDeadline c s slot
    · exact sameBooks_failDeadline c s slot

theorem sameBooks_busAbsent (c : Conf) (s : St) (i : Index) (sent : Bool) :
    SameBooks s (busAbsent c s i sent) := by
  have hdrop : SameBooks s { s with personal := s.personal &&& ~~~bit i } :=
    sameBooks_of_eq rfl rfl rfl
  unfold busAbsent
  simp only
  by_cases h₁ : c.ninspectors ≤ i.val
  · rw [if_pos h₁]
    exact .refl s
  rw [if_neg h₁]
  by_cases h₂ : !has s.personal i ∨ has s.got i
  · rw [if_pos h₂]
    exact sameBooks_skip c s i _
  rw [if_neg h₂]
  split
  · split_ifs
    · exact hdrop.trans (sameBooks_skip c _ i _)
    · exact hdrop
    · exact hdrop.trans (sameBooks_skip c _ i _)
  · exact hdrop.trans (sameBooks_skip c _ i _)

theorem sameBooks_publishLoop (c : Conf) (io : StartIo) (is : List Index) (n : ℕ) (s : St) :
    SameBooks s (publishLoop c io is n s).2 := by
  induction is generalizing n s with
  | nil => exact .refl s
  | cons i is ih =>
    have hpub : SameBooks s { s with published := s.published ||| bit i } :=
      sameBooks_of_eq rfl rfl rfl
    simp only [publishLoop]
    split_ifs
    · exact ih n s
    · exact (hpub.trans (sameBooks_skip c _ i _)).trans (ih n _)
    · exact hpub
    · exact (ih (n + 1) _).of_eq rfl rfl rfl
    · exact (ih (n + 1) _).of_eq rfl rfl rfl

theorem sameBooks_omitOpen (s : St) (mask : Mask) (e : Entry) : SameBooks s (omitOpen s mask e) := by
  unfold omitOpen
  split
  · split_ifs
    · unfold omitMask
      simp only
      split_ifs
      · exact (sameBooks_mark _ _ e).of_eq rfl rfl rfl
      · exact (sameBooks_mark _ _ e).of_eq rfl rfl rfl
    · exact .refl s
  · exact .refl s

theorem sameBooks_omitted (c : Conf) (s : St) (w : Wave) : SameBooks s (omitted c s w) :=
  (sameBooks_omitOpen s (c.condOff &&& w.all) .skipped).trans (sameBooks_omitOpen _ _ .off)

theorem sameBooks_publishWave (c : Conf) (s : St) (io : StartIo) :
    SameBooks s (publishWave c s io).2 := by
  unfold publishWave
  split
  · exact .refl s
  · next w _ =>
    have hawait : SameBooks s (awaiting c s w io.now) := by
      have homit := sameBooks_omitted c
        { s with slot := some ⟨s.wave, 0#64, 0#64, 0#64, io.now⟩ } w
      exact (homit.of_eq (s := s) rfl rfl rfl).trans (sameBooks_of_eq rfl rfl rfl)
    have hloop := sameBooks_publishLoop c io
      ((List.finRange 64).filter fun i => has (w.all &&& ~~~(awaiting c s w io.now).slotGot) i) 0
      (awaiting c s w io.now)
    simp only
    split
    · next hp =>
      rw [hp] at hloop
      exact hawait.trans hloop
    · next hp =>
      rw [hp] at hloop
      exact hawait.trans hloop

theorem sameBooks_waveStart (c : Conf) (s : St) (io : StartIo) :
    SameBooks s (waveStart c s io) := by
  unfold waveStart
  cases io.prepare with
  | needBody => exact sameBooks_of_eq rfl rfl rfl
  | placingMeta => exact sameBooks_of_eq rfl rfl rfl
  | slotBusy => exact sameBooks_of_eq rfl rfl rfl
  | placeFailed => exact sameBooks_of_eq rfl rfl rfl
  | ready =>
    have hpub := (sameBooks_publishWave c
      { s with due := if s.due = 0 then io.now + c.deadline else s.due } io).of_eq (s := s) rfl rfl rfl
    simp only
    split
    · next hp =>
      rw [hp] at hpub
      exact hpub.trans (sameBooks_of_eq rfl rfl rfl)
    · next hp =>
      rw [hp] at hpub
      split
      · exact hpub
      · split_ifs
        · exact hpub.trans (sameBooks_endWave c _ _)
        · exact hpub.trans (sameBooks_of_eq rfl rfl rfl)

/-! ### Accounting a reply -/

/-- An entry is replaced, and with it its part of a total. -/
theorem sum_setReply (s : St) (i : Index) (r : Reply) (p : Bool) :
    ∑ j, ((s.setReply i r).replies j).counted p =
      ∑ j, (s.replies j).counted p - (s.replies i).counted p + r.counted p := by
  have hcount : ∀ j, ((s.setReply i r).replies j).counted p =
      Function.update (fun j => (s.replies j).counted p) i (r.counted p) j := by
    intro j
    by_cases hj : j = i
    · subst hj
      simp [St.setReply]
    · simp [St.setReply, hj]
  simp only [hcount]
  rw [Finset.sum_update_of_mem (Finset.mem_univ i), Finset.sdiff_singleton_eq_erase,
    ← Finset.add_sum_erase _ _ (Finset.mem_univ i)]
  ring

/-- An entry changes together with the total of the replies that are not passive. -/
theorem Balanced.setReply {r : Reply} {x : ℤ} (hb : Balanced s) (hr : r.received = true)
    (hi : (s.replies i).received = true) (hp : r.passive = false) (hip : (s.replies i).passive = false)
    (hx : r.score = (s.replies i).score + x) (hs : 0 ≤ s.score + x)
    (hrange : -100 ≤ r.score ∧ r.score ≤ 100) :
    Balanced ({ s with score := s.score + x }.setReply i r) := by
  refine ⟨hs, ?_, ?_, fun j => ?_⟩
  · rw [sum_setReply]
    change s.score + x = ∑ j, (s.replies j).counted false - (s.replies i).counted false + _
    have h₁ : (s.replies i).counted false = (s.replies i).score := if_pos ⟨hi, hip⟩
    have h₂ : r.counted false = r.score := if_pos ⟨hr, hp⟩
    rw [← hb.total, h₁, h₂, hx]
    ring
  · rw [sum_setReply]
    change s.shadow = ∑ j, (s.replies j).counted true - (s.replies i).counted true + _
    have h₁ : (s.replies i).counted true = 0 := by simp [Reply.counted, hip]
    have h₂ : r.counted true = 0 := by simp [Reply.counted, hp]
    rw [← hb.shadow, h₁, h₂]
    ring
  · by_cases hj : j = i
    · subst hj
      simpa [St.setReply] using hrange
    · simpa [St.setReply, hj] using hb.range j

/-- A reply as the codec lets it through: only a score verdict carries a score, and one in range. -/
structure Reply.Scored (r : Reply) : Prop where
  range : 0 ≤ r.score ∧ r.score ≤ 100
  only : r.verdict ≠ .score → r.score = 0

theorem Reply.Scored.ownScore {r : Reply} (h : r.Scored) : 0 ≤ r.ownScore ∧ r.ownScore ≤ 100 := by
  unfold Reply.ownScore
  split_ifs
  · norm_num
  · exact h.range

theorem addScore_eq (s : St) (r : Reply) (h : 0 ≤ r.score) :
    s.addScore r = { s with
      score := s.score + if r.passive then 0 else r.score
      shadow := s.shadow + if r.passive then r.score else 0 } := by
  unfold St.addScore
  by_cases hz : r.score ≤ 0
  · have hz' : r.score = 0 := le_antisymm hz h
    rw [if_pos hz, hz']
    simp
  · rw [if_neg hz]
    cases r.passive <;> simp

/-- Accounting gives the entry its own score and adds it to the total of its mode. -/
theorem account_eq (hred : (s.replies i).verdict = .redirect → c.phase = .request)
    (h : (s.replies i).Scored) :
    account c s i = { s with
      order := s.order + 1
      score := s.score + if (s.replies i).passive then 0 else (s.replies i).ownScore
      shadow := s.shadow + if (s.replies i).passive then (s.replies i).ownScore else 0 }.setReply i
        { s.replies i with order := s.order + 1, score := (s.replies i).ownScore } := by
  have hnr : ¬((s.replies i).verdict = .redirect ∧ c.phase ≠ .request) := fun hx => hx.2 (hred hx.1)
  have hvotes : ∀ o, Reply.votes { s.replies i with order := o } = (s.replies i).votes := fun _ => rfl
  unfold account
  simp only
  rw [if_neg hnr, hvotes]
  unfold Reply.ownScore
  cases hv : (s.replies i).votes with
  | true =>
    simp only [if_true]
    rw [addScore_eq _ _ (by norm_num)]
    rfl
  | false =>
    simp only [Bool.false_eq_true, if_false]
    by_cases hsc : (s.replies i).verdict = .score
    · rw [if_pos hsc, addScore_eq _ { s.replies i with order := s.order + 1 } h.range.1]
      rfl
    · rw [if_neg hsc, h.only hsc]
      simp [St.setReply]

/-- **A reply is accounted**, from an inspector that had not replied. -/
theorem balanced_account {r : Reply} (hb : Balanced s) (hnot : (s.replies i).received = false)
    (hr : r.received = true) (hred : r.verdict = .redirect → c.phase = .request) (hs : r.Scored)
    (ht : t.score = s.score ∧ t.shadow = s.shadow ∧ t.replies = Function.update s.replies i r) :
    Balanced (account c t i) := by
  obtain ⟨h₁, h₂, h₃⟩ := ht
  have hti : t.replies i = r := by rw [h₃, Function.update_self]
  obtain ⟨hx₀, hx₁⟩ := hs.ownScore
  rw [account_eq (by rwa [hti]) (by rwa [hti]), hti]
  have hsum : ∀ p, ∑ j, (t.replies j).counted p = ∑ j, (s.replies j).counted p + r.counted p := by
    intro p
    have h := sum_setReply s i r p
    have hzero : (s.replies i).counted p = 0 := by simp [Reply.counted, hnot]
    rw [hzero, sub_zero] at h
    rw [← h]
    simp only [h₃, St.setReply]
  set r' : Reply := { r with order := t.order + 1, score := r.ownScore }
  have hcount : ∀ p, r'.counted p = if r.passive = p then r.ownScore else 0 := by
    intro p
    simp [Reply.counted, r', hr]
  have hnew : ∀ p, ∑ j, ((t.setReply i r').replies j).counted p =
      ∑ j, (s.replies j).counted p + if r.passive = p then r.ownScore else 0 := by
    intro p
    rw [sum_setReply, hsum, hti, hcount]
    ring
  refine ⟨?_, ?_, ?_, fun j => ?_⟩
  · change 0 ≤ t.score + _
    rw [h₁]
    have hn := hb.nonneg
    split_ifs <;> omega
  · refine Eq.trans ?_ (hnew false).symm
    change t.score + _ = _
    rw [h₁, hb.total]
    cases r.passive <;> simp
  · refine Eq.trans ?_ (hnew true).symm
    change t.shadow + _ = _
    rw [h₂, hb.shadow]
  · by_cases hj : j = i
    · subst hj
      change -100 ≤ ((t.setReply j r').replies j).score ∧ ((t.setReply j r').replies j).score ≤ 100
      simp only [St.setReply, Function.update_self, r']
      exact ⟨by omega, hx₁⟩
    · change -100 ≤ ((t.setReply i r').replies j).score ∧ ((t.setReply i r').replies j).score ≤ 100
      simp only [St.setReply, Function.update_of_ne hj, h₃]
      exact hb.range j

/-- **A score action**: the entry of the sender and the total change by the same amount. -/
theorem balanced_scoreApply {a : Action} (hb : Balanced s) (hr : (s.replies a.sender).received = true)
    (hp : (s.replies a.sender).passive = a.passive) (h : scoreApply c s a = some t) :
    Balanced t ∧ (t.replies a.sender).received = true ∧
      (t.replies a.sender).passive = a.passive := by
  unfold scoreApply at h
  by_cases hpas : a.passive = true
  · rw [if_pos hpas] at h
    cases h
  · rw [if_neg hpas] at h
    by_cases hn : c.ninspectors ≤ a.sender.val
    · rw [if_pos hn] at h
      cases h
    · rw [if_neg hn] at h
      simp only [Option.some.injEq] at h
      have hnp : (s.replies a.sender).passive = false := by rw [hp]; simpa using hpas
      have hrange := hb.range a.sender
      have hnn := hb.nonneg
      subst h
      refine ⟨hb.setReply hr hr hnp hnp rfl (by omega) (by dsimp only; omega), ?_, ?_⟩
      · simp [St.setReply, hr]
      · simp [St.setReply, hp]

theorem sameBooks_actionApply {a : Action} (h : actionApply c s a = some t) (hv : a.verb ≠ .score) :
    SameBooks s t := by
  unfold actionApply at h
  split_ifs at h
  · unfold controlApply at h
    split at h
    · cases h
    · split_ifs at h <;> cases h <;> exact sameBooks_of_eq rfl rfl rfl
  · unfold auditOvrApply at h
    simp only at h
    split_ifs at h <;> cases h <;> exact sameBooks_of_eq rfl rfl rfl
  · cases h
    unfold markersAdd
    split_ifs <;> exact sameBooks_of_eq rfl rfl rfl
  · cases h
    exact .refl s

theorem balanced_actionMerge {a : Action} (hb : Balanced s) (hr : (s.replies a.sender).received = true)
    (hp : (s.replies a.sender).passive = a.passive) :
    Balanced (actionMerge c s a) ∧ ((actionMerge c s a).replies a.sender).received = true ∧
      ((actionMerge c s a).replies a.sender).passive = a.passive := by
  unfold actionMerge
  simp only
  split
  · exact ⟨hb, hr, hp⟩
  split
  · exact ⟨hb, hr, hp⟩
  next t h =>
    have hstep : Balanced t ∧ (t.replies a.sender).received = true ∧
        (t.replies a.sender).passive = a.passive := by
      by_cases hv : a.verb = .score
      · rw [actionApply_of_score hv] at h
        exact balanced_scoreApply hb hr hp h
      · have hsame := sameBooks_actionApply h hv
        obtain ⟨e, he⟩ := hsame.replies a.sender
        exact ⟨hb.same hsame, by rw [he]; exact hr, by rw [he]; exact hp⟩
    exact ⟨hstep.1.same (sameBooks_of_eq rfl rfl rfl), hstep.2⟩

/-- The actions of a reply, merged one after the other. -/
theorem balanced_actionsMerge (wave : ℕ) (hb : Balanced s) (hr : (s.replies i).received = true) :
    Balanced (actionsMerge c s i wave) := by
  unfold actionsMerge
  simp only
  split_ifs
  · exact hb
  generalize hp : (s.replies i).passive = p
  generalize (s.replies i).actions = l
  induction l generalizing s with
  | nil => exact hb
  | cons a l ih =>
    obtain ⟨hb', hr', hp'⟩ := @balanced_actionMerge c s
      { a with sender := i, phase := c.phase, wave := wave, passive := p } hb hr hp
    exact ih hb' hr' hp'

/-! ### Runs -/

/-- The checks of `ngx_http_waf_msg_reply` on the score: a field in range, `-1` without one, and a
score verdict has one. -/
def Reply.ScoreChecked (r : Reply) : Prop :=
  (r.score = -1 ∨ 0 ≤ r.score ∧ r.score ≤ 100) ∧ (r.verdict = .score → 0 ≤ r.score)

/-- The replies that the codec lets through. -/
def Event.Checked : Event → Prop
  | .reply _ r _ => r.ScoreChecked
  | _ => True

theorem Reply.ScoreChecked.scored {r : Reply} (h : r.ScoreChecked) (phase : Phase) :
    (msgReply phase r).Scored := by
  obtain ⟨hrange, hscore⟩ := h
  unfold msgReply
  simp only
  by_cases herr : (if r.verdict = .redirect ∧ phase ≠ .request then Verdict.allow else r.verdict) = .error
  · rw [if_pos herr]
    exact ⟨⟨le_rfl, by norm_num⟩, fun _ => rfl⟩
  · rw [if_neg herr]
    by_cases hv : r.verdict = .score
    · have hv' : (if r.verdict = .redirect ∧ phase ≠ .request then Verdict.allow else r.verdict) =
          .score := by simp [hv]
      simp only [hv', if_true]
      have h0 := hscore hv
      exact ⟨⟨h0, by dsimp only; omega⟩, fun hne => absurd rfl hne⟩
    · have hv' : (if r.verdict = .redirect ∧ phase ≠ .request then Verdict.allow else r.verdict) ≠
          .score := by split_ifs <;> simp [hv]
      simp only [if_neg hv']
      exact ⟨⟨le_rfl, by norm_num⟩, fun _ => rfl⟩

theorem balanced_accept {slot : SlotRec} {w : Wave} {r : Reply} {now : ℕ} (hb : Balanced s)
    (hnot : (s.replies i).received = false) (hred : r.verdict = .redirect → c.phase = .request)
    (hs : r.Scored) : Balanced (accept c s slot w i r now) := by
  have hacc : Balanced (account c (recorded c s slot w i r now) i) := by
    refine balanced_account hb hnot ?_ ?_ ?_ ⟨rfl, rfl, rfl⟩
    · rfl
    · exact hred
    · exact ⟨hs.range, hs.only⟩
  have hfr := @frame_accept c s slot w i r now hred
  have hrec : ((account c (recorded c s slot w i r now) i).replies i).received = true := by
    have hrecorded : ((recorded c s slot w i r now).replies i).verdict = .redirect →
        c.phase = .request := by simpa [recorded, St.setReply] using hred
    obtain ⟨x, o, hown⟩ := (frame_account (c := c) hrecorded).own
    rw [hown]
    simp [recorded, St.setReply]
  exact (balanced_actionsMerge slot.wave hacc hrec).same (sameBooks_of_eq rfl rfl rfl)

theorem balanced_onReply {slot : SlotRec} {w : Wave} {r : Reply} {now : ℕ} (hb : Balanced s)
    (ha : Awaits c s slot w) (hnot : (s.replies i).received = false)
    (hred : r.verdict = .redirect → c.phase = .request) (hs : r.Scored) :
    Balanced (onReply c s i r now) := by
  have hacc := @balanced_accept c s i slot w r now hb hnot hred hs
  unfold onReply
  rw [ha.slot, ha.wave]
  simp only [replyIn]
  generalize accept c s slot w i r now = t at hacc
  split_ifs
  · exact hb
  · exact hacc.same ((sameBooks_resume c _).of_eq rfl rfl rfl)
  · exact hacc.same (sameBooks_settle c t)
  · exact hacc.same ((sameBooks_resume c _).of_eq rfl rfl rfl)
  · exact hacc.same ((sameBooks_settle c _).of_eq rfl rfl rfl)
  · exact hacc.same (sameBooks_settle c t)

theorem balanced_step {e : Event} (ho : Once c s) (hb : Balanced s) (he : e.Checked) :
    Balanced (step c s e) := by
  cases e with
  | start io =>
    simp only [step]
    split_ifs
    · exact hb.same (sameBooks_waveStart c s io)
    · exact hb
  | resumed ok =>
    simp only [step]
    split_ifs
    · exact hb.same (sameBooks_of_eq rfl rfl rfl)
    · exact hb.same (sameBooks_of_eq rfl rfl rfl)
    · exact hb
  | reply i r now =>
    have hidle : Idle s → step c s (.reply i r now) = s := fun h =>
      if_neg (by rw [h.waiting]; simp)
    rcases ho.shape with h | ⟨slot, w, ha⟩
    · rw [hidle h]
      exact hb
    · by_cases hacc : Accounts c slot w i
      · have hstep : step c s (.reply i r now) = onReply c s i (msgReply c.phase r) now :=
          if_pos ⟨ha.waiting, hacc.1⟩
        rw [hstep]
        exact balanced_onReply hb ha (ho.not_received ha hacc) (msgReply_redirect c.phase r)
          (Reply.ScoreChecked.scored he c.phase)
      · have hstay := step_await ha (.reply i r now)
        generalize step c s (.reply i r now) = s' at hstay ⊢
        cases hstay with
        | stay _ => exact hb
        | reply j r' now' t slot' _ heq hacc' =>
          cases heq
          exact absurd hacc' hacc
        | silent t slot' _ hne => exact absurd rfl (hne i r now)
        | deadline _ heq => cases heq
        | late _ heq => cases heq
  | absent i sent =>
    simp only [step]
    split_ifs
    · exact hb.same (sameBooks_busAbsent c s i sent)
    · exact hb
  | timer now => exact hb.same (sameBooks_onDeadline c s now)

/-- **The books agree** after every event of every run of a phase. -/
theorem books_balanced (c : Conf) (s : St) (es : List Event) (ho : s.Opened)
    (he : ∀ e ∈ es, e.Checked) : Balanced (runFrom (step c) s es) := by
  have hrun : Once c (runFrom (step c) s es) ∧ Balanced (runFrom (step c) s es) := by
    have honce : Once c s := fresh_once ho.toFresh
    have hb : Balanced s := ho.balanced
    clear ho
    induction es generalizing s with
    | nil => exact ⟨honce, hb⟩
    | cons e es ih =>
      have hstep := balanced_step honce hb (he e List.mem_cons_self)
      exact ih _ (fun e' h' => he e' (List.mem_cons_of_mem e h')) (once_step honce) hstep
  exact hrun.2

theorem blank_opened : blank.Opened := ⟨blank_fresh, rfl, fun _ => rfl⟩

/-- A score action. -/
def pointsAction (value : ℤ) : Action :=
  { controlAction .score 0 with addressee := none, value := value }

/-- A reply with a score and score actions. -/
def scored (score : ℤ) (values : List ℤ) : Reply :=
  { answer .score (values.map pointsAction) with score := score }

/-- An inspector that scores 50 and takes 70 points back is left with nothing. -/
theorem books_balanced_pair :
    Balanced (runFrom (step pair) blank [.start goesOut, .reply 0 (scored 50 [-70]) 5]) ∧
      (runFrom (step pair) blank [.start goesOut, .reply 0 (scored 50 [-70]) 5]).score = 0 := by
  refine ⟨books_balanced pair blank _ blank_opened fun e he => ?_, by decide +kernel⟩
  rcases List.mem_cons.1 he with rfl | he
  · trivial
  · rw [List.mem_singleton.1 he]
    exact ⟨.inr (by decide), fun _ => by decide⟩

end Waves
