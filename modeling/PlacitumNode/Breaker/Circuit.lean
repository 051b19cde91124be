import PlacitumNode.Lib.Machine
import PlacitumNode.Lib.Run

/-!
# The circuit breaker (`local/ngx_http_waf_breaker.c`)

An inspector that times out too often is not asked any more: its breaker opens, and from then on one
request in every interval is let through as a probe, until a result that is no timeout closes it
again.  The breaker's words lie in shared memory and are used by all workers; each call is atomic here.

* `breakerAllow`, `breakerResult`: the two calls;
* `Call`, `step`: a sequence of calls for one inspector;
* `watch`: the results recorded since the current window started, beside the breaker;
* `Gated`: when the next probe is due, in every state that is not closed;
* `breaker_gates`: probes are an interval apart, and the breaker opens for enough failures only.

The clock is a natural number of milliseconds and the words of the breaker are its residues, so that a
wrap of the clock is covered; the counters do not wrap.
-/

namespace Breaker

open Machine Run

/-- `NGX_HTTP_WAF_BREAKER_CLOSED`, `_HALF` and `_OPEN` -/
inductive State
  | closed
  | half
  | opened
  deriving DecidableEq

/-- `ngx_http_waf_breaker_t` -/
structure Circuit where
  state : State
  epoch : ℕ
  attempts : ℕ
  failures : ℕ
  probeAt : ℕ
  tag : ℕ
  deriving DecidableEq

/-- A breaker in zeroed memory. -/
def Circuit.init : Circuit := ⟨.closed, 0, 0, 0, 0, 0⟩

/-- What a breaker reads of its inspector: `tag` is the checksum of the name, `breaker_threshold` is in
ten-thousandths, and the two times come from `ngx_parse_time`, which returns an `ngx_int_t`.  An
inspector beyond the table, or without a zone, has no breaker either. -/
structure Inspector where
  breaker : Bool
  tag : ℕ
  threshold : ℕ
  window : ℕ
  probe : ℕ
  probe_lt : probe < 2 ^ 63

/-- `NGX_OK` or `NGX_DECLINED` -/
inductive Answer
  | ok
  | declined
  deriving DecidableEq

section

variable (insp : Inspector)

/-- `ngx_http_waf_breaker_get`: another inspector in the place starts afresh. -/
def breakerGet (b : Circuit) : Option Circuit :=
  if !insp.breaker then none
  else some (if b.tag ≠ insp.tag then ⟨.closed, 0, 0, 0, 0, insp.tag⟩ else b)

def breakerAllow (b : Circuit) (now : ℕ) : Answer × Circuit :=
  match breakerGet insp b with
  | none => (.ok, b)
  | some b =>
    if b.state = .closed then (.ok, b)
    else if signed ((now : ℤ) - b.probeAt) ≥ 0 then
      (.ok, { b with probeAt := (now + insp.probe) % 2 ^ 64, state := .half })
    else (.declined, b)

def breakerOpen (b : Circuit) (now : ℕ) : Circuit :=
  { b with
    probeAt := (now + insp.probe) % 2 ^ 64
    epoch := now % 2 ^ 64
    attempts := 0
    failures := 0
    state := .opened }

def breakerClose (b : Circuit) (now : ℕ) : Circuit :=
  { b with epoch := now % 2 ^ 64, attempts := 0, failures := 0, state := .closed }

/-- The window of the counters is over. -/
def windowOver (b : Circuit) (now : ℕ) : Bool :=
  decide (signed ((now : ℤ) - b.epoch) ≥ signed insp.window)

/-- The counters with one more result. -/
def breakerCount (b : Circuit) (now : ℕ) (timedOut : Bool) : Circuit :=
  let b := if windowOver insp b now then { b with epoch := now % 2 ^ 64, attempts := 0, failures := 0 } else b
  { b with
    attempts := b.attempts + 1
    failures := if timedOut then b.failures + 1 else b.failures }

def breakerResult (b : Circuit) (now : ℕ) (timedOut : Bool) : Circuit :=
  match breakerGet insp b with
  | none => b
  | some b =>
    let b := breakerCount insp b now timedOut
    match b.state with
    | .half => if timedOut then breakerOpen insp b now else breakerClose b now
    | .opened => b
    | .closed =>
      if b.attempts < 20 ∨ b.failures = 0 then b
      else if b.failures * 10000 % 2 ^ 64 / b.attempts ≥ insp.threshold then breakerOpen insp b now
      else b

/-! ### Sequences of calls -/

inductive Call
  | allow (now : ℕ)
  | result (now : ℕ) (timedOut : Bool)
  deriving DecidableEq

def Call.now : Call → ℕ
  | allow now => now
  | result now _ => now

def step (b : Circuit) : Call → Circuit
  | .allow now => (breakerAllow insp b now).2
  | .result now timedOut => breakerResult insp b now timedOut

/-- A clock that does not go back. -/
def Timed (es : List Call) : Prop := es.Pairwise fun a b => a.now ≤ b.now

instance (es : List Call) : Decidable (Timed es) :=
  inferInstanceAs (Decidable (es.Pairwise fun a b => a.now ≤ b.now))

/-- A call opens the breaker, or lets a probe through. -/
def Starts (b : Circuit) : Call → Prop
  | .allow now => (breakerAllow insp b now).1 = .ok ∧ (breakerAllow insp b now).2.state ≠ .closed
  | .result now timedOut => b.state ≠ .opened ∧ (breakerResult insp b now timedOut).state = .opened

instance (b : Circuit) : (e : Call) → Decidable (Starts insp b e)
  | .allow now => inferInstanceAs (Decidable ((breakerAllow insp b now).1 = .ok ∧ _))
  | .result _ _ => inferInstanceAs (Decidable (b.state ≠ .opened ∧ _))

/-- The results of the window that a result belongs to, this one included. -/
def recorded (b : Circuit) (window : List Bool) (now : ℕ) (timedOut : Bool) : List Bool :=
  (if windowOver insp b now then [] else window) ++ [timedOut]

/-- The breaker in use, with the results recorded since its window started. -/
def current (s : Circuit × List Bool) : Circuit × List Bool :=
  match breakerGet insp s.1 with
  | none => s
  | some b => (b, if b = s.1 then s.2 else [])

/-- A call, with the results recorded since the window started: a window ends with its time, and
when the breaker opens or closes. -/
def watch (s : Circuit × List Bool) (c : Call) : Circuit × List Bool :=
  (step insp s.1 c,
    match breakerGet insp s.1, c with
    | none, _ => s.2
    | some _, .allow _ => (current insp s).2
    | some b, .result now timedOut =>
      if (step insp s.1 c).state = b.state then recorded insp b (current insp s).2 now timedOut
      else [])

end

/-! ### What the calls do -/

section

variable {insp : Inspector} {b : Circuit} {now : ℕ} {timedOut : Bool}

theorem breakerGet_tag (hb : insp.breaker = true) (htag : b.tag = insp.tag) :
    breakerGet insp b = some b := by
  simp [breakerGet, hb, htag]

theorem tag_of_breakerGet {c : Circuit} (h : breakerGet insp b = some c) :
    insp.breaker = true ∧ c.tag = insp.tag := by
  unfold breakerGet at h
  split at h
  · cases h
  · next hb =>
    cases h
    refine ⟨by simpa using hb, ?_⟩
    split
    · rfl
    · next htag => exact not_not.1 htag

@[simp] theorem breakerCount_state (b : Circuit) :
    (breakerCount insp b now timedOut).state = b.state := by
  unfold breakerCount
  split
  · rfl
  · rfl

@[simp] theorem breakerCount_probeAt (b : Circuit) :
    (breakerCount insp b now timedOut).probeAt = b.probeAt := by
  unfold breakerCount
  split
  · rfl
  · rfl

@[simp] theorem breakerCount_tag (b : Circuit) :
    (breakerCount insp b now timedOut).tag = b.tag := by
  unfold breakerCount
  split
  · rfl
  · rfl

/-- **What a result does** beyond the counters: it opens a breaker that is half open or has failed
enough, it closes one that is half open, or it leaves the state alone. -/
theorem breakerResult_cases {c : Circuit} (h : breakerGet insp b = some c) (now : ℕ)
    (timedOut : Bool) :
    breakerResult insp b now timedOut = breakerCount insp c now timedOut ∧ c.state ≠ .half ∨
    breakerResult insp b now timedOut = breakerOpen insp (breakerCount insp c now timedOut) now ∧
      (c.state = .half ∨ c.state = .closed ∧
        20 ≤ (breakerCount insp c now timedOut).attempts ∧
        insp.threshold ≤ (breakerCount insp c now timedOut).failures * 10000 % 2 ^ 64 /
          (breakerCount insp c now timedOut).attempts) ∨
    breakerResult insp b now timedOut = breakerClose (breakerCount insp c now timedOut) now ∧
      c.state = .half := by
  unfold breakerResult
  rw [h]
  simp only [breakerCount_state]
  cases hs : c.state with
  | half =>
    simp only
    split
    · exact .inr (.inl ⟨rfl, .inl trivial⟩)
    · exact .inr (.inr ⟨rfl, trivial⟩)
  | opened => exact .inl ⟨rfl, by simp⟩
  | closed =>
    simp only
    split
    · exact .inl ⟨rfl, by simp⟩
    · next hfew =>
      split
      · next hshare =>
        exact .inr (.inl ⟨rfl, .inr ⟨trivial, by omega, hshare⟩⟩)
      · exact .inl ⟨rfl, by simp⟩

/-! ### Probes -/

/-- The next probe is due an interval after a time between `t₀` and `t`. -/
structure Gated (insp : Inspector) (t₀ t : ℕ) (b : Circuit) : Prop where
  enabled : insp.breaker = true
  tag_eq : b.tag = insp.tag
  due : ∃ τ, t₀ ≤ τ ∧ τ ≤ t ∧ b.probeAt = (τ + insp.probe) % 2 ^ 64

theorem Gated.step {t₀ t : ℕ} (hg : Gated insp t₀ t b) {e : Call} (h₀ : t₀ ≤ e.now)
    (h : e.now ≤ t) : Gated insp t₀ t (step insp b e) := by
  have hget := breakerGet_tag hg.enabled hg.tag_eq
  have hnow : ∃ τ, t₀ ≤ τ ∧ τ ≤ t ∧ (e.now + insp.probe) % 2 ^ 64 = (τ + insp.probe) % 2 ^ 64 :=
    ⟨e.now, h₀, h, rfl⟩
  cases e with
  | allow now =>
    simp only [Breaker.step, breakerAllow, hget]
    split
    · exact hg
    · split
      · exact ⟨hg.enabled, hg.tag_eq, hnow⟩
      · exact hg
  | result now timedOut =>
    simp only [Breaker.step]
    rcases breakerResult_cases hget now timedOut with ⟨heq, -⟩ | ⟨heq, -⟩ | ⟨heq, -⟩
    · rw [heq]
      exact ⟨hg.enabled, by simpa using hg.tag_eq, by simpa using hg.due⟩
    · rw [heq]
      exact ⟨hg.enabled, by simpa [breakerOpen] using hg.tag_eq, hnow⟩
    · rw [heq]
      exact ⟨hg.enabled, by simpa [breakerClose] using hg.tag_eq, by simpa [breakerClose] using hg.due⟩

theorem Gated.run {t₀ t : ℕ} (hg : Gated insp t₀ t b) {es : List Call}
    (hes : ∀ e ∈ es, t₀ ≤ e.now ∧ e.now ≤ t) : Gated insp t₀ t (runFrom (Breaker.step insp) b es) := by
  induction es generalizing b with
  | nil => exact hg
  | cons e es ih =>
    obtain ⟨h₀, h⟩ := hes e List.mem_cons_self
    exact ih (hg.step h₀ h) fun c hc => hes c (List.mem_cons_of_mem e hc)

/-- A probe is let through no sooner than it is due. -/
theorem Gated.probe_le {t₀ t : ℕ} (hg : Gated insp t₀ t b) (hs : b.state ≠ .closed)
    (hok : (breakerAllow insp b t).1 = .ok) : t₀ + insp.probe ≤ t := by
  obtain ⟨τ, h₀, hτ, hprobe⟩ := hg.due
  have hlt := insp.probe_lt
  simp only [breakerAllow, breakerGet_tag hg.enabled hg.tag_eq, if_neg hs] at hok
  split at hok
  · next hdue =>
    rw [hprobe, signed_sub_mod] at hdue
    by_contra hsoon
    rw [signed_eq_self (by push_cast; omega) (by push_cast; omega)] at hdue
    push_cast at hdue
    omega
  · cases hok

/-- Without a breaker nothing changes. -/
theorem step_disabled (hb : insp.breaker = false) (b : Circuit) (e : Call) : step insp b e = b := by
  have hget : breakerGet insp b = none := by simp [breakerGet, hb]
  cases e with
  | allow now => simp [step, breakerAllow, hget]
  | result now timedOut => simp [step, breakerResult, hget]

theorem run_disabled (hb : insp.breaker = false) (b : Circuit) (es : List Call) :
    runFrom (step insp) b es = b := by
  induction es generalizing b with
  | nil => rfl
  | cons e es ih => rw [runFrom_cons, step_disabled hb, ih]

/-- A call that opens the breaker or lets a probe through starts an interval. -/
theorem Starts.gated (hb : insp.breaker = true) {e : Call} (h : Starts insp b e) {t : ℕ}
    (ht : e.now ≤ t) : Gated insp e.now t (step insp b e) := by
  obtain ⟨c, hget⟩ : ∃ c, breakerGet insp b = some c := by simp [breakerGet, hb]
  have htag := (tag_of_breakerGet hget).2
  cases e with
  | allow now =>
    obtain ⟨hok, hs⟩ := h
    simp only [step, breakerAllow, hget] at hok hs ⊢
    split at hok
    · next hclosed =>
      rw [if_pos hclosed] at hs
      exact absurd hclosed hs
    · next hopen =>
      rw [if_neg hopen]
      split at hok
      · next hdue =>
        rw [if_pos hdue]
        exact ⟨hb, htag, now, le_rfl, ht, rfl⟩
      · cases hok
  | result now timedOut =>
    obtain ⟨hbefore, hafter⟩ := h
    simp only [step]
    rcases breakerResult_cases hget now timedOut with ⟨heq, -⟩ | ⟨heq, -⟩ | ⟨heq, -⟩
    · -- A breaker in another's place is closed, so an open one was open before.
      exfalso
      rw [heq, breakerCount_state] at hafter
      unfold breakerGet at hget
      rw [hb] at hget
      simp only [Bool.not_true, Bool.false_eq_true, if_false, Option.some.injEq] at hget
      split at hget
      · rw [← hget] at hafter
        cases hafter
      · rw [← hget] at hafter
        exact hbefore hafter
    · rw [heq]
      exact ⟨hb, by simpa [breakerOpen] using htag, now, le_rfl, ht, rfl⟩
    · rw [heq] at hafter
      cases hafter

/-! ### Windows -/

/-- The counters are those of the window. -/
def Counts (s : Circuit × List Bool) : Prop :=
  s.1.attempts = s.2.length ∧ s.1.failures = s.2.count true

theorem counts_current (insp : Inspector) {s : Circuit × List Bool} (hc : Counts s) :
    Counts (current insp s) := by
  unfold current
  cases hget : breakerGet insp s.1 with
  | none => exact hc
  | some c =>
    show Counts (c, if c = s.1 then s.2 else [])
    by_cases heq : c = s.1
    · rw [if_pos heq, heq]
      exact hc
    · rw [if_neg heq]
      unfold breakerGet at hget
      split at hget
      · cases hget
      · simp only [Option.some.injEq] at hget
        split at hget
        · rw [← hget]
          exact ⟨rfl, rfl⟩
        · exact absurd hget.symm heq

theorem counts_breakerCount (insp : Inspector) {w : List Bool} (hc : Counts (b, w)) (now : ℕ)
    (timedOut : Bool) :
    Counts (breakerCount insp b now timedOut, recorded insp b w now timedOut) := by
  obtain ⟨ha, hf⟩ := hc
  simp only at ha hf
  unfold breakerCount recorded
  by_cases hover : windowOver insp b now = true
  · rw [if_pos hover, if_pos hover]
    cases timedOut with
    | true => exact ⟨rfl, rfl⟩
    | false => exact ⟨rfl, rfl⟩
  · rw [if_neg hover, if_neg hover]
    cases timedOut with
    | true => simp [Counts, ha, hf]
    | false => simp [Counts, ha, hf]

theorem counts_watch {s : Circuit × List Bool} (hc : Counts s) (e : Call) :
    Counts (watch insp s e) := by
  obtain ⟨b, w⟩ := s
  cases hget : breakerGet insp b with
  | none =>
    cases e with
    | allow now => simpa [watch, step, breakerAllow, hget] using hc
    | result now timedOut => simpa [watch, step, breakerResult, hget] using hc
  | some c =>
    have hcount : Counts (c, (current insp (b, w)).2) := by
      have h := counts_current insp hc
      have hfst : (current insp (b, w)).1 = c := by simp [current, hget]
      rwa [← hfst]
    cases e with
    | allow now =>
      simp only [watch, step, breakerAllow, hget]
      split
      · exact hcount
      · split
        · exact hcount
        · exact hcount
    | result now timedOut =>
      have hstep : step insp b (.result now timedOut) = breakerResult insp b now timedOut := rfl
      rcases breakerResult_cases hget now timedOut with ⟨heq, -⟩ | ⟨heq, hs⟩ | ⟨heq, hs⟩
      · simp only [watch, hget, hstep, heq, breakerCount_state, if_true]
        exact counts_breakerCount insp hcount now timedOut
      · have hne : (breakerOpen insp (breakerCount insp c now timedOut) now).state ≠ c.state := by
          rcases hs with hs | ⟨hs, -⟩ <;> simp [breakerOpen, hs]
        simp only [watch, hget, hstep, heq, if_neg hne]
        exact ⟨rfl, rfl⟩
      · have hne : (breakerClose (breakerCount insp c now timedOut) now).state ≠ c.state := by
          simp [breakerClose, hs]
        simp only [watch, hget, hstep, heq, if_neg hne]
        exact ⟨rfl, rfl⟩

theorem watch_run (insp : Inspector) (s : Circuit × List Bool) (es : List Call) :
    (runFrom (watch insp) s es).1 = runFrom (step insp) s.1 es := by
  induction es generalizing s with
  | nil => rfl
  | cons e es ih => exact ih (watch insp s e)

/-- **The breaker opens for failures**: the results of the window are enough, and enough of them
failed. -/
theorem opens_share {w : List Bool} {c : Circuit} (hc : Counts (c, w))
    (hget : breakerGet insp b = some c) (hs : c.state = .closed)
    (ho : (breakerResult insp b now timedOut).state = .opened) :
    20 ≤ (recorded insp c w now timedOut).length ∧
      insp.threshold * (recorded insp c w now timedOut).length ≤
        10000 * (recorded insp c w now timedOut).count true := by
  obtain ⟨ha, hf⟩ := counts_breakerCount insp hc now timedOut
  simp only at ha hf
  rcases breakerResult_cases hget now timedOut with ⟨heq, -⟩ | ⟨-, hwhy⟩ | ⟨-, hhalf⟩
  · rw [heq, breakerCount_state, hs] at ho
    cases ho
  · rcases hwhy with hhalf | ⟨-, hfew, hshare⟩
    · rw [hs] at hhalf
      cases hhalf
    · rw [ha] at hfew hshare
      rw [hf] at hshare
      refine ⟨hfew, ?_⟩
      have hmul := (Nat.le_div_iff_mul_le (by omega)).1 hshare
      exact hmul.trans ((Nat.mod_le _ _).trans (by omega))
  · rw [hs] at hhalf
    cases hhalf

/-- The breaker that a closed one is, or starts afresh as. -/
theorem closed_get {c : Circuit} (hs : b.state = .closed) (hget : breakerGet insp b = some c) :
    c.state = .closed := by
  unfold breakerGet at hget
  split at hget
  · cases hget
  · cases hget
    split
    · rfl
    · exact hs

/-- Asking does not open a breaker. -/
theorem closed_allow (hs : b.state = .closed) : (breakerAllow insp b now).2.state = .closed := by
  unfold breakerAllow
  cases hget : breakerGet insp b with
  | none => exact hs
  | some c =>
    have hc := closed_get hs hget
    simp only [hc, if_true]

end

/-- **One probe in an interval.**  In every sequence of calls: after the breaker has opened, and after
a probe was let through, as long as it is not closed no call is answered `NGX_OK` before an interval
is over; and it opens from closed for at least twenty results of the current window, with a share of
timeouts that reaches the threshold. -/
theorem breaker_gates (insp : Inspector) :
    (∀ pre e mid t, Timed (pre ++ e :: (mid ++ [.allow t])) →
      Starts insp (runFrom (step insp) .init pre) e →
      Along (step insp) (fun b _ => b.state ≠ .closed)
        (step insp (runFrom (step insp) .init pre) e) (mid ++ [.allow t]) →
      (breakerAllow insp (runFrom (step insp) .init (pre ++ e :: mid)) t).1 = .ok →
      e.now + insp.probe ≤ t) ∧
    ∀ es e, (runFrom (step insp) .init es).state = .closed →
      (step insp (runFrom (step insp) .init es) e).state = .opened →
      ∃ now timedOut, e = .result now timedOut ∧
        let b := current insp (runFrom (watch insp) (.init, []) es)
        20 ≤ (recorded insp b.1 b.2 now timedOut).length ∧
          insp.threshold * (recorded insp b.1 b.2 now timedOut).length ≤
            10000 * (recorded insp b.1 b.2 now timedOut).count true := by
  constructor
  · intro pre e mid t htimed hstart hopen hok
    cases hb : insp.breaker with
    | false =>
      -- Without a breaker the state is that of the zeroed memory.
      have hs := hopen
      rw [along_append] at hs
      have hlast := hs.2.1
      rw [run_disabled hb, step_disabled hb, run_disabled hb] at hlast
      exact absurd rfl hlast
    | true =>
      rw [Timed, List.pairwise_append, List.pairwise_cons] at htimed
      obtain ⟨-, ⟨he, hmid⟩, -⟩ := htimed
      rw [List.pairwise_append] at hmid
      have ht : e.now ≤ t := he (.allow t) (by simp)
      have hes : ∀ c ∈ mid, e.now ≤ c.now ∧ c.now ≤ t := by
        intro c hc
        exact ⟨he c (List.mem_append_left _ hc), hmid.2.2 c hc (.allow t) List.mem_cons_self⟩
      have hg := (hstart.gated hb ht).run hes
      rw [runFrom_append, runFrom_cons] at hok
      exact hg.probe_le (along_append.1 hopen).2.1 hok
  · intro es e hs ho
    have hrun : (runFrom (watch insp) (.init, []) es).1 = runFrom (step insp) .init es :=
      watch_run insp (.init, []) es
    rw [← hrun] at hs ho
    have hcount : Counts (runFrom (watch insp) (.init, []) es) :=
      invariant_always (fun s c (h : Counts s) => counts_watch h c) es ⟨rfl, rfl⟩
    generalize runFrom (watch insp) (.init, []) es = s at hs ho hcount hrun
    cases e with
    | allow now =>
      simp only [step] at ho
      rw [closed_allow hs] at ho
      cases ho
    | result now timedOut =>
      refine ⟨now, timedOut, rfl, ?_⟩
      simp only [step] at ho
      cases hget : breakerGet insp s.1 with
      | none =>
        simp only [breakerResult, hget] at ho
        rw [hs] at ho
        cases ho
      | some c =>
        have hcur := counts_current insp hcount
        have hfst : (current insp s).1 = c := by simp [current, hget]
        have hc : Counts (c, (current insp s).2) := by rwa [← hfst]
        intro b
        have hb : b.1 = c := hfst
        rw [hb]
        exact opens_share hc hget (closed_get hs hget) ho

/-- Half of the results, an interval of five seconds. -/
def halfShare : Inspector := ⟨true, 7, 5000, 10000, 5000, by norm_num⟩

theorem breaker_gates_twenty :
    let fail : Call := .result 1000 true
    let s := runFrom (watch halfShare) (.init, []) (List.replicate 19 fail)
    (step halfShare (runFrom (step halfShare) .init (List.replicate 19 fail)) fail).state = .opened ∧
      20 ≤ (recorded halfShare (current halfShare s).1 (current halfShare s).2 1000 true).length ∧
      (breakerAllow halfShare (runFrom (step halfShare) .init (List.replicate 20 fail)) 6000).1 = .ok ∧
      1000 + halfShare.probe ≤ 6000 := by
  intro fail s
  have ho : (step halfShare (runFrom (step halfShare) .init (List.replicate 19 fail)) fail).state =
    .opened := by decide +kernel
  obtain ⟨hprobe, hopens⟩ := breaker_gates halfShare
  obtain ⟨now, timedOut, heq, hshare⟩ := hopens (List.replicate 19 fail) fail (by decide +kernel) ho
  obtain ⟨rfl, rfl⟩ : 1000 = now ∧ true = timedOut := Call.result.inj heq
  have hok : (breakerAllow halfShare (runFrom (step halfShare) .init (List.replicate 20 fail)) 6000).1 =
    .ok := by decide +kernel
  refine ⟨ho, hshare.1, hok, ?_⟩
  exact hprobe (List.replicate 19 fail) fail [] 6000 (by decide +kernel) (by decide +kernel)
    (by decide +kernel) hok

end Breaker
