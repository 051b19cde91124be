import PlacitumNode.Lib.Loop
import PlacitumNode.Lib.Octets

/-!
# Parsers that are fed a stream

A parser keeps a state and a buffer of bytes it has not taken yet.  A step takes something from the
front of the buffer and goes on, waits for more bytes, or fails.  A parser whose steps are not
changed by bytes that arrive later (the laws of `Parser`) gives one result for a stream, however it
is cut into reads: feeding `b ++ x` is feeding `b` and then `x` (`feed_append`).  A guard makes a
parser fail on buffers that it could only wait on for ever, and leaves all else as it is
(`guard_feed`).
-/

namespace Feed

open Octets

/-- What a step does.  A parser that waits has taken the buffer whole (`true`), or has left `rest` in
it. -/
inductive Out (σ : Type*)
  | go (s : σ) (rest : Bytes)
  | wait (s : σ) (rest : Bytes) (drained : Bool)
  | fail (s : σ)

/-- What is left when the parser has stopped. -/
inductive Res (σ : Type*)
  | wait (s : σ) (rest : Bytes) (drained : Bool)
  | fail (s : σ)

/-- A parser with its laws: a step that goes on makes the state smaller, and a step is not changed by
the bytes that follow those it was made on. -/
structure Parser (σ : Type*) where
  step : σ → Bytes → Out σ
  size : σ → Bytes → ℕ
  shrinks : ∀ {s b s' b'}, step s b = .go s' b' → size s' b' < size s b
  go_append : ∀ {s b s' b'} (x), step s b = .go s' b' → step s (b ++ x) = .go s' (b' ++ x)
  fail_append : ∀ {s b s'} (x), step s b = .fail s' → step s (b ++ x) = .fail s'
  wait_append : ∀ {s b s' b' d} (x), x ≠ [] → step s b = .wait s' b' d →
    step s (b ++ x) = step s' (b' ++ x)

variable {σ : Type*}

/-- A step as a step of a loop. -/
def Parser.iter (p : Parser σ) (x : σ × Bytes) : σ × Bytes ⊕ Res σ :=
  match p.step x.1 x.2 with
  | .go s rest => .inl (s, rest)
  | .wait s rest drained => .inr (.wait s rest drained)
  | .fail s => .inr (.fail s)

/-- The steps of the parser on a buffer, to the point where it stops. -/
def Parser.feed (p : Parser σ) (s : σ) (b : Bytes) : Res σ :=
  (Loop.exec p.iter (fun x => p.size x.1 x.2) (s, b)).getD (.wait s b false)

variable (p : Parser σ) {s s' : σ} {b b' x : Bytes}

theorem iter_shrinks : Loop.Shrinks p.iter fun x => p.size x.1 x.2 := by
  rintro ⟨s, b⟩ y h
  unfold Parser.iter at h
  simp only at h
  split at h
  · next s' b' hs =>
    cases h
    exact p.shrinks hs
  · cases h
  · cases h

theorem feed_go (h : p.step s b = .go s' b') : p.feed s b = p.feed s' b' := by
  have hi : p.iter (s, b) = .inl (s', b') := by simp only [Parser.iter, h]
  obtain ⟨r, hr⟩ := Loop.exec_isSome (iter_shrinks p) (s', b')
  unfold Parser.feed
  rw [Loop.exec_inl (iter_shrinks p) hi, hr]
  rfl

theorem feed_wait {d : Bool} (h : p.step s b = .wait s' b' d) : p.feed s b = .wait s' b' d := by
  have hi : p.iter (s, b) = .inr (.wait s' b' d) := by simp only [Parser.iter, h]
  unfold Parser.feed
  rw [Loop.exec_inr hi]
  rfl

theorem feed_fail (h : p.step s b = .fail s') : p.feed s b = .fail s' := by
  have hi : p.iter (s, b) = .inr (.fail s') := by simp only [Parser.iter, h]
  unfold Parser.feed
  rw [Loop.exec_inr hi]
  rfl

/-- **Induction over the steps of a parser.** -/
theorem feed_induct {P : σ → Bytes → Res σ → Prop}
    (hwait : ∀ s b s' b' d, p.step s b = .wait s' b' d → P s b (.wait s' b' d))
    (hfail : ∀ s b s', p.step s b = .fail s' → P s b (.fail s'))
    (hgo : ∀ s b s' b', p.step s b = .go s' b' → P s' b' (p.feed s' b') → P s b (p.feed s' b'))
    (s : σ) (b : Bytes) : P s b (p.feed s b) := by
  induction hn : p.size s b using Nat.strong_induction_on generalizing s b with
  | h n ih =>
    subst hn
    cases hs : p.step s b with
    | go s' b' =>
      rw [feed_go p hs]
      exact hgo s b s' b' hs (ih _ (p.shrinks hs) s' b' rfl)
    | wait s' b' d =>
      rw [feed_wait p hs]
      exact hwait s b s' b' d hs
    | fail s' =>
      rw [feed_fail p hs]
      exact hfail s b s' hs

/-- The parser goes on with more bytes, unless it has failed. -/
def Parser.more (p : Parser σ) (x : Bytes) : Res σ → Res σ
  | .wait s rest _ => p.feed s (rest ++ x)
  | .fail s => .fail s

theorem feed_step_eq (h : p.step s b = p.step s' b') : p.feed s b = p.feed s' b' := by
  cases hs : p.step s' b' with
  | go t c => exact (feed_go p (h.trans hs)).trans (feed_go p hs).symm
  | wait t c d => exact (feed_wait p (h.trans hs)).trans (feed_wait p hs).symm
  | fail t => exact (feed_fail p (h.trans hs)).trans (feed_fail p hs).symm

/-- **A cut does not matter.** -/
theorem feed_append (hx : x ≠ []) (s : σ) (b : Bytes) :
    p.feed s (b ++ x) = p.more x (p.feed s b) := by
  refine feed_induct p (P := fun s b r => p.feed s (b ++ x) = p.more x r) ?_ ?_ ?_ s b
  · intro s b s' b' d h
    exact feed_step_eq p (p.wait_append x hx h)
  · intro s b s' h
    exact feed_fail p (p.fail_append x h)
  · intro s b s' b' h ih
    rw [feed_go p (p.go_append x h)]
    exact ih

/-! ### Buffers that are given up -/

/-- Buffers that are given up: they stay bad with more bytes, and what the parser does on others says
nothing about bytes that it has not looked at. -/
structure Guard (p : Parser σ) where
  bad : σ → Bytes → Bool
  bad_append : ∀ {s b} (x), bad s b = true → bad s (b ++ x) = true
  go_good : ∀ {s b s' b'} (x), p.step s b = .go s' b' → bad s b = false → bad s (b ++ x) = false
  fail_good : ∀ {s b s'} (x), p.step s b = .fail s' → bad s b = false → bad s (b ++ x) = false
  wait_good : ∀ {s b s' b' d}, p.step s b = .wait s' b' d → bad s b = false →
    (s' = s ∧ b' = b) ∨ ∀ x, bad s (b ++ x) = false ∧ bad s' (b' ++ x) = false

/-- The parser that gives these buffers up. -/
def Guard.parser {p : Parser σ} (g : Guard p) : Parser σ where
  step s b := if g.bad s b = true then .fail s else p.step s b
  size := p.size
  shrinks := by
    intro s b s' b' h
    split_ifs at h
    exact p.shrinks h
  go_append := by
    intro s b s' b' x h
    split_ifs at h with hbad
    rw [if_neg (by rw [g.go_good x h (Bool.eq_false_of_not_eq_true hbad)]; simp)]
    exact p.go_append x h
  fail_append := by
    intro s b s' x h
    split_ifs at h with hbad
    · rw [if_pos (g.bad_append x hbad)]
      exact h
    · rw [if_neg (by rw [g.fail_good x h (Bool.eq_false_of_not_eq_true hbad)]; simp)]
      exact p.fail_append x h
  wait_append := by
    intro s b s' b' d x hx h
    split_ifs at h with hbad
    rcases g.wait_good h (Bool.eq_false_of_not_eq_true hbad) with ⟨rfl, rfl⟩ | hgood
    · rfl
    · rw [(hgood x).1, (hgood x).2]
      exact p.wait_append x hx h

theorem Guard.step_good {p : Parser σ} (g : Guard p) (h : g.bad s b = false) :
    g.parser.step s b = p.step s b :=
  if_neg (by rw [h]; exact Bool.false_ne_true)

theorem Guard.step_bad {p : Parser σ} (g : Guard p) (h : g.bad s b = true) :
    g.parser.step s b = .fail s :=
  if_pos h

/-- What is made of a result: a buffer that is given up fails. -/
def Guard.judge {p : Parser σ} (g : Guard p) : Res σ → Res σ
  | .wait s rest drained => if g.bad s rest = true then .fail s else .wait s rest drained
  | .fail s => .fail s

/-- **A guard changes the end only.**  Where the parser could only wait on a bad buffer of at most `n`
bytes, and its steps do not make buffers longer, it does all it did, and the buffer that is left is
judged. -/
theorem guard_feed {p : Parser σ} (g : Guard p) {n : ℕ}
    (hstuck : ∀ {s b}, b.length ≤ n → g.bad s b = true → ∃ d, p.step s b = .wait s b d)
    (hgo : ∀ {s b s' b'}, p.step s b = .go s' b' → b'.length ≤ b.length)
    (hn : b.length ≤ n) : g.parser.feed s b = g.judge (p.feed s b) := by
  refine feed_induct p (P := fun s b r => b.length ≤ n → g.parser.feed s b = g.judge r)
    ?_ ?_ ?_ s b hn
  · intro s b s' b' d h hn
    by_cases hbad : g.bad s b = true
    · obtain ⟨d', h'⟩ := hstuck hn hbad
      rw [h] at h'
      cases h'
      rw [feed_fail g.parser (g.step_bad hbad)]
      exact (if_pos hbad).symm
    · have hgood := Bool.eq_false_of_not_eq_true hbad
      have hleft : g.bad s' b' = false := by
        rcases g.wait_good h hgood with ⟨rfl, rfl⟩ | hall
        · exact hgood
        · have hnil := (hall []).2
          rwa [List.append_nil] at hnil
      rw [feed_wait g.parser ((g.step_good hgood).trans h)]
      exact (if_neg (by rw [hleft]; exact Bool.false_ne_true)).symm
  · intro s b s' h hn
    have hgood : g.bad s b = false := by
      by_contra hbad
      obtain ⟨d, h'⟩ := hstuck hn (Bool.not_eq_false _ ▸ hbad)
      rw [h] at h'
      cases h'
    exact feed_fail g.parser ((g.step_good hgood).trans h)
  · intro s b s' b' h ih hn
    have hgood : g.bad s b = false := by
      by_contra hbad
      obtain ⟨d, h'⟩ := hstuck hn (Bool.not_eq_false _ ▸ hbad)
      rw [h] at h'
      cases h'
    rw [feed_go g.parser ((g.step_good hgood).trans h)]
    exact ih (le_trans (hgo h) hn)

end Feed
