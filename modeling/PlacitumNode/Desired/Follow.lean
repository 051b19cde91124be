import PlacitumNode.Desired.Pack
import PlacitumNode.Lib.History
import PlacitumNode.Lib.Machine
import PlacitumNode.Lib.Run

/-!
# Following the generations (`desired/watch.go`)

One goroutine of `Watch` reads the updates of the bucket and passes on the packs; another one,
`follow`, tries each of them, and a pack that fails once more after a pause.

* `update`: the goroutine that feeds the channel;
* `run`, `step`: `follow`, with its timers, the clock and the calls of `try` as they happen;
* `Allowed`: what may happen after what has happened;
* `follow_newest`: only the newest pack is tried, once and then after its failures.

A timer that has fired stays fired: `run` puts another channel, or none, in place of the one that has
been received from.
-/

namespace Generations

open Desired History Machine Run

/-- `backoff`, in nanoseconds -/
structure Backoff where
  first : ℤ
  max : ℤ

/-- `min(2*delay, pace.max)`, in 64-bit words -/
def Backoff.next (pace : Backoff) (delay : ℤ) : ℤ := min (signed (2 * delay)) pace.max

/-- A timer of `time.After`; `fired` is the time in its channel. -/
structure Timer where
  due : ℤ
  fired : Bool

/-- What happens: a pack is received, or a call of `try` has returned, after which a failure pauses. -/
inductive Entry
  | received (p : Pack)
  | tried (p : Option Pack) (start finish : ℤ) (pause : Option ℤ)

/-- The two goroutines, the timers that were made, and the clock. -/
structure State where
  clock : ℤ
  timers : List Timer
  pending : Option Pack
  delay : ℤ
  retry : Option ℕ
  running : Bool
  sending : Option Pack
  closed : Bool
  published : List Pack
  history : List Entry

/-- Before the first update. -/
def start : State := ⟨0, [], none, 0, none, true, none, false, [], []⟩

/-- An update of the watcher: the mark after the initial values, a deletion or a purge, or a value, which
may be no manifest. -/
inductive Update
  | mark
  | deleted
  | value (raw : Option RawPack)

/-- A call of `try`: how long it takes and whether it succeeds. -/
structure Try where
  took : ℕ
  ok : Bool

inductive Event
  | update (u : Update)
  | ended
  | tick (n : ℕ)
  | fire (i : ℕ)
  | receive (t : Try)
  | elapsed (t : Try)
  | closed
  | cancelled

/-- The goroutine of `Watch` takes an update when it is not sending a pack. -/
def State.update (s : State) (u : Update) : State :=
  if s.closed || s.sending.isSome then s
  else
    match u with
    | .mark | .deleted => s
    | .value raw =>
      match raw.bind parsePack with
      | none => s
      | some p => { s with sending := some p, published := s.published ++ [p] }

/-- A timer fires, when it is due. -/
def State.fire (s : State) (i : ℕ) : State :=
  match s.timers[i]? with
  | some t => if t.due ≤ s.clock then { s with timers := s.timers.set i { t with fired := true } } else s
  | none => s

/-- The closure `run` of `follow` -/
def State.run (pace : Backoff) (s : State) (p : Option Pack) (t : Try) : State :=
  let finish := s.clock + t.took
  if t.ok then
    { s with
      clock := finish
      pending := none
      retry := none
      history := s.history ++ [.tried p s.clock finish none] }
  else
    { s with
      clock := finish
      timers := s.timers ++ [⟨finish + s.delay, false⟩]
      pending := p
      retry := some s.timers.length
      delay := pace.next s.delay
      history := s.history ++ [.tried p s.clock finish (some s.delay)] }

/-- A pack is received from the channel. -/
def State.receive (pace : Backoff) (s : State) (t : Try) : State :=
  if !s.running then s
  else
    match s.sending with
    | none => s
    | some p =>
      let s := { s with
        sending := none
        delay := pace.first
        history := s.history ++ [Entry.received p] }
      s.run pace (some p) t

/-- The channel of the retry has a time. -/
def State.elapsed (pace : Backoff) (s : State) (t : Try) : State :=
  if !s.running then s
  else
    match s.retry.bind fun i => s.timers[i]? with
    | none => s
    | some timer => if timer.fired then s.run pace s.pending t else s

def step (pace : Backoff) (s : State) : Event → State
  | .update u => s.update u
  | .ended => { s with sending := none, closed := true }
  | .tick n => { s with clock := s.clock + n }
  | .fire i => s.fire i
  | .receive t => s.receive pace t
  | .elapsed t => s.elapsed pace t
  | .closed => if s.closed then { s with running := false } else s
  | .cancelled => { s with running := false }

/-! ### What is allowed -/

/-- The pause after so many failures of a pack. -/
def Backoff.pause (pace : Backoff) (failures : ℕ) : ℤ := pace.next^[failures] pace.first

def Entry.pack : Entry → Option Pack
  | .received p => some p
  | .tried .. => none

def Entry.isTried : Entry → Bool
  | .received _ => false
  | .tried .. => true

/-- The packs that were received. -/
def packs (h : List Entry) : List Pack := h.filterMap Entry.pack

/-- A pack is received when the one before it has been tried.  The pack that is tried is the last one
that was received, now or before a failure of it whose pause is over; how long a failure pauses depends
on the number of the tries of the pack before it. -/
def Allowed (pace : Backoff) (h : List Entry) : Entry → Prop
  | .received _ => ∀ q, h.getLast? ≠ some (.received q)
  | .tried p start _ pause =>
    (∃ q, p = some q ∧ (packs h).getLast? = some q ∧
      (h.getLast? = some (.received q) ∨ ∃ start' finish' wait,
        h.getLast? = some (.tried (some q) start' finish' (some wait)) ∧ finish' + wait ≤ start)) ∧
      ∀ wait, pause = some wait → wait = pace.pause (trailing Entry.isTried h)

/-- A pace whose pauses do not leave 63 bits. -/
def Backoff.Small (pace : Backoff) : Prop :=
  0 ≤ pace.first ∧ pace.first ≤ pace.max ∧ 2 * pace.max < 2 ^ 63

/-- Only the newest pack is tried: once when it is received, and then after each failure of it and the
pause of that failure.  The pauses double up to the maximum and begin again with every pack. -/
structure Newest (pace : Backoff) (h : List Entry) : Prop where
  newest : ∀ before p start finish pause after, h = before ++ .tried p start finish pause :: after →
    ∃ q, p = some q ∧ (packs before).getLast? = some q
  once : ∀ before p after, h = before ++ .received p :: after →
    ∃ start finish pause rest, after = .tried (some p) start finish pause :: rest
  again : ∀ before p start finish pause after, h = before ++ .tried p start finish pause :: after →
    ∃ q, p = some q ∧ (before.getLast? = some (.received q) ∨ ∃ start' finish' wait,
      before.getLast? = some (.tried (some q) start' finish' (some wait)) ∧ finish' + wait ≤ start)
  pauses : ∀ before p start finish wait after,
    h = before ++ .tried p start finish (some wait) :: after →
      wait = pace.pause (trailing Entry.isTried before) ∧
      (pace.first ≤ pace.max → wait ≤ pace.max) ∧
      (pace.Small → wait = min (2 ^ trailing Entry.isTried before * pace.first) pace.max)
  quiet : ∀ before p start finish after, h = before ++ .tried p start finish none :: after →
    after = [] ∨ ∃ q rest, after = .received q :: rest

/-! ### The pauses -/

theorem Backoff.pause_zero (pace : Backoff) : pace.pause 0 = pace.first := rfl

theorem Backoff.pause_succ (pace : Backoff) (n : ℕ) : pace.pause (n + 1) = pace.next (pace.pause n) :=
  Function.iterate_succ_apply' _ _ _

theorem Backoff.pause_le {pace : Backoff} (h : pace.first ≤ pace.max) (n : ℕ) :
    pace.pause n ≤ pace.max := by
  cases n with
  | zero => exact h
  | succ n =>
    rw [Backoff.pause_succ]
    exact min_le_right _ _

/-- Without an overflow the pauses double up to the maximum. -/
theorem Backoff.pause_eq {pace : Backoff} (h : pace.Small) (n : ℕ) :
    pace.pause n = min (2 ^ n * pace.first) pace.max := by
  obtain ⟨h₀, h₁, h₂⟩ := h
  induction n with
  | zero => rw [Backoff.pause_zero, pow_zero, one_mul, min_eq_left h₁]
  | succ n ih =>
    have hpow : (0 : ℤ) ≤ 2 ^ n * pace.first := mul_nonneg (by positivity) h₀
    have hsucc : (2 : ℤ) ^ (n + 1) * pace.first = 2 * (2 ^ n * pace.first) := by ring
    have hword : signed (2 * min (2 ^ n * pace.first) pace.max)
        = 2 * min (2 ^ n * pace.first) pace.max := signed_eq_self (by omega) (by omega)
    rw [Backoff.pause_succ, ih, Backoff.next, hword, hsucc]
    omega

/-! ### The entries that are allowed -/

theorem packs_concat (h : List Entry) (e : Entry) : packs (h ++ [e]) = packs h ++ e.pack.toList := by
  unfold packs
  rw [List.filterMap_append]
  cases e <;> rfl

/-- A history of entries that are allowed, of which the last is not a pack alone, is what is wanted. -/
theorem newest_of_each {pace : Backoff} {h : List Entry} (hall : Each (Allowed pace) h)
    (hlast : ∀ q, h.getLast? ≠ some (.received q)) : Newest pace h := by
  refine ⟨fun before p start finish pause after heq => ?_, fun before p after heq => ?_,
    fun before p start finish pause after heq => ?_,
    fun before p start finish wait after heq => ?_, fun before p start finish after heq => ?_⟩
  · obtain ⟨⟨q, hp, hq, -⟩, -⟩ := hall before _ after heq
    exact ⟨q, hp, hq⟩
  · rcases after with _ | ⟨e, rest⟩
    · rw [heq] at hlast
      exact absurd List.getLast?_concat (hlast p)
    · have hnext := hall.after heq
      cases e with
      | received q => exact absurd List.getLast?_concat (hnext p)
      | tried p' start finish pause =>
        obtain ⟨⟨q, rfl, hq, -⟩, -⟩ := hnext
        rw [packs_concat, Entry.pack, Option.toList_some, List.getLast?_concat] at hq
        rw [Option.some.inj hq]
        exact ⟨start, finish, pause, rest, rfl⟩
  · obtain ⟨⟨q, hp, -, hbefore⟩, -⟩ := hall before _ after heq
    exact ⟨q, hp, hbefore⟩
  · have hwait := (hall before _ after heq).2 wait rfl
    exact ⟨hwait, fun hle => hwait ▸ Backoff.pause_le hle _,
      fun hsmall => hwait.trans (Backoff.pause_eq hsmall _)⟩
  · rcases after with _ | ⟨e, rest⟩
    · exact .inl rfl
    · have hnext := hall.after heq
      cases e with
      | received q => exact .inr ⟨q, rest, rfl⟩
      | tried p' start' finish' pause =>
        obtain ⟨⟨q, -, -, hbefore⟩, -⟩ := hnext
        rw [List.getLast?_concat] at hbefore
        rcases hbefore with h | ⟨_, _, _, h, -⟩ <;> simp at h

/-! ### The invariant -/

/-- The packs that were received, and the one in the channel, are those of the updates in their order;
all of them, until the channel is closed. -/
structure Passed (received : List Pack) (s : State) : Prop where
  ordered : received ++ s.sending.toList <+: s.published
  whole : s.closed = false → received ++ s.sending.toList = s.published

/-- What a run keeps.  A retry is of the last pack, which has failed, and its timer is due when the pause
of that failure is over. -/
structure Inv (pace : Backoff) (s : State) : Prop where
  each : Each (Allowed pace) s.history
  last : ∀ q, s.history.getLast? ≠ some (.received q)
  retry : ∀ i, s.retry = some i → ∃ q start finish wait timer,
    s.pending = some q ∧ (packs s.history).getLast? = some q ∧
    s.history.getLast? = some (.tried (some q) start finish (some wait)) ∧
    s.timers[i]? = some timer ∧ timer.due = finish + wait ∧
    s.delay = pace.pause (trailing Entry.isTried s.history)
  timers : ∀ t ∈ s.timers, t.fired = true → t.due ≤ s.clock
  passed : Passed (packs s.history) s

theorem inv_start (pace : Backoff) : Inv pace start :=
  ⟨each_nil, fun _ h => by simp [start] at h, fun _ h => by simp [start] at h,
    fun _ h => by simp [start] at h, List.prefix_refl _, fun _ => rfl⟩

/-- A call of `try`, with a pack that it is allowed to be called with. -/
theorem inv_run {pace : Backoff} {s : State} {q : Pack} (t : Try)
    (heach : Each (Allowed pace) s.history) (hq : (packs s.history).getLast? = some q)
    (hbefore : s.history.getLast? = some (.received q) ∨ ∃ start finish wait,
      s.history.getLast? = some (.tried (some q) start finish (some wait)) ∧ finish + wait ≤ s.clock)
    (hdelay : s.delay = pace.pause (trailing Entry.isTried s.history))
    (htimers : ∀ t ∈ s.timers, t.fired = true → t.due ≤ s.clock)
    (hpassed : Passed (packs s.history) s) :
    Inv pace (s.run pace (some q) t) := by
  have hlater : ∀ timer ∈ s.timers, timer.fired = true → timer.due ≤ s.clock + t.took := by
    intro timer hmem hfired
    have := htimers timer hmem hfired
    omega
  have hpacks : ∀ start finish pause,
      packs (s.history ++ [.tried (some q) start finish pause]) = packs s.history := by
    intro start finish pause
    rw [packs_concat]
    exact List.append_nil _
  unfold State.run
  split_ifs with hok
  · refine ⟨?_, fun p h => ?_, fun i h => by simp at h, hlater, ?_⟩
    · exact each_concat.2 ⟨heach, ⟨q, rfl, hq, hbefore⟩, fun wait h => by simp at h⟩
    · rw [List.getLast?_concat] at h
      simp at h
    · rw [hpacks]
      exact ⟨hpassed.ordered, hpassed.whole⟩
  · refine ⟨?_, fun p h => ?_, fun i h => ?_, fun timer hmem hfired => ?_, ?_⟩
    · refine each_concat.2 ⟨heach, ⟨q, rfl, hq, hbefore⟩, fun wait h => ?_⟩
      rw [← Option.some.inj h]
      exact hdelay
    · rw [List.getLast?_concat] at h
      simp at h
    · obtain rfl := Option.some.inj h
      refine ⟨q, s.clock, s.clock + t.took, s.delay, ⟨s.clock + t.took + s.delay, false⟩, rfl, ?_,
        List.getLast?_concat, List.getElem?_concat_length, rfl, ?_⟩
      · rw [hpacks]
        exact hq
      · rw [trailing_concat, hdelay]
        exact (Backoff.pause_succ pace _).symm
    · rcases List.mem_append.1 hmem with hmem | hmem
      · exact hlater timer hmem hfired
      · rw [List.mem_singleton] at hmem
        rw [hmem] at hfired
        simp at hfired
    · rw [hpacks]
      exact ⟨hpassed.ordered, hpassed.whole⟩

/-- A pack that is received is tried. -/
theorem inv_receive {pace : Backoff} {s : State} (t : Try) (h : Inv pace s) :
    Inv pace (s.receive pace t) := by
  unfold State.receive
  split_ifs
  · exact h
  · cases hp : s.sending with
    | none => exact h
    | some p =>
      have hpacks : packs (s.history ++ [.received p]) = packs s.history ++ [p] := packs_concat _ _
      refine inv_run t (each_concat.2 ⟨h.each, h.last⟩) ?_ (.inl List.getLast?_concat) ?_ h.timers ?_
      · rw [hpacks, List.getLast?_concat]
      · rw [trailing_concat]
        rfl
      · obtain ⟨hordered, hwhole⟩ := h.passed
        rw [hp, Option.toList_some] at hordered hwhole
        refine ⟨?_, fun hopen => ?_⟩
        · rw [hpacks, Option.toList_none, List.append_nil]
          exact hordered
        · rw [hpacks, Option.toList_none, List.append_nil]
          exact hwhole hopen

/-- A retry is of the pack that has failed last, after its pause. -/
theorem inv_elapsed {pace : Backoff} {s : State} (t : Try) (h : Inv pace s) :
    Inv pace (s.elapsed pace t) := by
  unfold State.elapsed
  split_ifs
  · exact h
  · cases hr : s.retry with
    | none => exact h
    | some i =>
      obtain ⟨q, start, finish, wait, timer, hpending, hq, hlast, htimer, hdue, hdelay⟩ := h.retry i hr
      rw [Option.bind_some, htimer]
      dsimp only
      split_ifs with hfired
      · rw [hpending]
        refine inv_run t h.each hq (.inr ⟨start, finish, wait, hlast, ?_⟩) hdelay h.timers h.passed
        rw [← hdue]
        exact h.timers timer (List.mem_of_getElem? htimer) hfired
      · exact h

theorem inv_fire {pace : Backoff} {s : State} (i : ℕ) (h : Inv pace s) : Inv pace (s.fire i) := by
  unfold State.fire
  cases ht : s.timers[i]? with
  | none => exact h
  | some t =>
    dsimp only
    split_ifs with hdue
    · refine ⟨h.each, h.last, fun j hj => ?_, fun x hx hfired => ?_,
        ⟨h.passed.ordered, h.passed.whole⟩⟩
      · obtain ⟨q, start, finish, wait, timer, hpending, hq, hlast, htimer, hdue', hdelay⟩ :=
          h.retry j hj
        by_cases hij : i = j
        · subst hij
          rw [ht] at htimer
          obtain rfl := Option.some.inj htimer
          refine ⟨q, start, finish, wait, { t with fired := true }, hpending, hq, hlast, ?_, hdue',
            hdelay⟩
          exact List.getElem?_set_self (List.getElem?_eq_some_iff.1 ht).1
        · refine ⟨q, start, finish, wait, timer, hpending, hq, hlast, ?_, hdue', hdelay⟩
          rw [List.getElem?_set_ne hij]
          exact htimer
      · rcases List.mem_or_eq_of_mem_set hx with hx | rfl
        · exact h.timers x hx hfired
        · exact hdue
    · exact h

theorem inv_update {pace : Backoff} {s : State} (u : Update) (h : Inv pace s) :
    Inv pace (s.update u) := by
  unfold State.update
  split_ifs with hbusy
  · exact h
  · rw [Bool.or_eq_true, not_or, Bool.not_eq_true, Bool.not_eq_true, Option.isSome_eq_false_iff,
      Option.isNone_iff_eq_none] at hbusy
    cases u with
    | mark => exact h
    | deleted => exact h
    | value raw =>
      cases hp : raw.bind parsePack with
      | none => simpa only [hp] using h
      | some p =>
        simp only [hp]
        have hwhole := h.passed.whole hbusy.1
        rw [hbusy.2, Option.toList_none, List.append_nil] at hwhole
        have hsent : packs s.history ++ [p] = s.published ++ [p] := by rw [hwhole]
        exact ⟨h.each, h.last, h.retry, h.timers, hsent ▸ List.prefix_refl _, fun _ => hsent⟩

/-- One step. -/
theorem inv_step {pace : Backoff} (s : State) (e : Event) (h : Inv pace s) :
    Inv pace (step pace s e) := by
  cases e with
  | update u => exact inv_update u h
  | ended =>
    refine ⟨h.each, h.last, h.retry, h.timers, ?_, fun hopen => by simp [step] at hopen⟩
    refine List.IsPrefix.trans ?_ h.passed.ordered
    exact List.prefix_append_right_inj _ |>.2 List.nil_prefix
  | tick n =>
    refine ⟨h.each, h.last, h.retry, fun t hmem hfired => ?_, ⟨h.passed.ordered, h.passed.whole⟩⟩
    have hdue := h.timers t hmem hfired
    simp only [step]
    omega
  | fire i => exact inv_fire i h
  | receive t => exact inv_receive t h
  | elapsed t => exact inv_elapsed t h
  | closed =>
    rw [step]
    split_ifs
    · exact ⟨h.each, h.last, h.retry, h.timers, ⟨h.passed.ordered, h.passed.whole⟩⟩
    · exact h
  | cancelled => exact ⟨h.each, h.last, h.retry, h.timers, ⟨h.passed.ordered, h.passed.whole⟩⟩

/-- The packs are received in the order of the updates, and none is passed over. -/
theorem received_in_order (pace : Backoff) (es : List Event) :
    packs (runFrom (step pace) start es).history <+: (runFrom (step pace) start es).published :=
  (List.prefix_append _ _).trans (invariant_always inv_step es (inv_start pace)).passed.ordered

/-- A pack that has failed can be tried again when its timer has fired. -/
theorem elapsed_retries {pace : Backoff} {s : State} (h : Inv pace s) {i : ℕ} (hr : s.retry = some i)
    (hrun : s.running = true) (hfired : ∀ t, s.timers[i]? = some t → t.fired = true) (t : Try) :
    s.elapsed pace t = s.run pace s.pending t := by
  obtain ⟨q, start, finish, wait, timer, hpending, -, -, htimer, -⟩ := h.retry i hr
  unfold State.elapsed
  rw [hrun, hr, Option.bind_some, htimer]
  dsimp only
  rw [if_neg (by simp), if_pos (hfired timer htimer)]

/-- **Only the newest generation is retried.** Along every run of the two goroutines, whatever arrives
and fires and however the tries end. -/
theorem follow_newest (pace : Backoff) (es : List Event) :
    Newest pace (runFrom (step pace) start es).history :=
  have h := invariant_always inv_step es (inv_start pace)
  newest_of_each h.each h.last

end Generations
