import PlacitumNode.Codec.Tokens

/-!
# Documents

`jpSkip` recognises the recursive grammar with a loop and a stack of closing brackets.  What a stack
still demands of the input is a predicate of its own (`Closes`): a run that succeeds has read a
value and what closes the containers that were open (`skip_sound`), and on a derived text the loop
goes from before a value to after it without touching the stack (`skip_complete`).  So `jpSkip` and
`jpEnd` accept exactly the documents of the grammar (`skip_accepts_iff`).
-/

namespace Codec

open Octets String JsonText

/-- What may follow a value in a container, up to and including its closing bracket. -/
def Follow (close : UInt8) (d : ℕ) (s : Bytes) : Prop :=
  ∃ w, Ws w ∧ (s = w ++ [close] ∨ ∃ t, s = w ++ 44 :: (t ++ [close]) ∧
    Derives (if close = 125 then .members else .elements) d t)

/-- What closes the containers of a stack: each of them inside the next. -/
def Closes : List UInt8 → Bytes → Prop
  | [], s => s = []
  | close :: stack, s => ∃ t u, s = t ++ u ∧ Follow close (maxDepth - (stack.length + 1)) t ∧
      Closes stack u

/-! ### One iteration -/

theorem skipStep_value {stack : List UInt8} {x rest : Bytes} {c : UInt8} (h : jpWs x = c :: rest) :
    skipStep ⟨stack, x, false⟩ =
      if c = 123 ∨ c = 91 then skipOpen ⟨stack, x, false⟩ c rest
      else if c = 34 then Skip.readValue ⟨stack, x, false⟩ (jpStringSkip (c :: rest))
      else if c = 116 ∨ c = 102 then
        Skip.readValue ⟨stack, x, false⟩ ((jpBool (c :: rest)).map Prod.snd)
      else if c = 110 then
        Skip.readValue ⟨stack, x, false⟩
          ((jpNull (c :: rest)).elim (.error "unexpected value") .ok)
      else if c ≠ 45 ∧ (c < 48 ∨ 57 < c) then .inr (.error "unexpected character")
      else Skip.readValue ⟨stack, x, false⟩ (jpNumberSkip (c :: rest)) := by
  simp only [skipStep, Bool.false_eq_true, if_false, h]

theorem skipStep_after {close c : UInt8} {stack : List UInt8} {x rest : Bytes}
    (h : jpWs x = c :: rest) :
    skipStep ⟨close :: stack, x, true⟩ =
      if c = close then .inl ⟨stack, rest, true⟩
      else if c ≠ 44 then .inr (.error "expected comma")
      else Skip.expectValue close stack (if close = 125 then jpKeySkip rest else .ok rest) := by
  simp only [skipStep, if_true, h]

theorem readValue_inl {s s' : Skip} {x : Except String Bytes} (h : s.readValue x = .inl s') :
    ∃ r, x = .ok r ∧ s' = ⟨s.stack, r, true⟩ := by
  cases x with
  | error e => cases h
  | ok r =>
    cases h
    exact ⟨r, rfl, rfl⟩

theorem expectValue_inl {close : UInt8} {stack : List UInt8} {s' : Skip} {x : Except String Bytes}
    (h : Skip.expectValue close stack x = .inl s') :
    ∃ r, x = .ok r ∧ s' = ⟨close :: stack, r, false⟩ := by
  cases x with
  | error e => cases h
  | ok r =>
    cases h
    exact ⟨r, rfl, rfl⟩

/-- What an iteration that goes on reads: an atom or an empty container, the start of a container,
the end of one, or a comma with what leads to the next value. -/
inductive Move : Skip → Skip → Prop
  | value {stack : List UInt8} {w v r : Bytes} : Ws w → v ≠ [] →
      (stack.length ≤ maxDepth → Derives .value (maxDepth - stack.length) v) →
      Move ⟨stack, w ++ (v ++ r), false⟩ ⟨stack, r, true⟩
  | openArray {stack : List UInt8} {w w' r : Bytes} : stack.length ≠ maxDepth → Ws w → Ws w' →
      Move ⟨stack, w ++ 91 :: (w' ++ r), false⟩ ⟨93 :: stack, r, false⟩
  | openObject {stack : List UInt8} {w w₁ k w₂ r : Bytes} : stack.length ≠ maxDepth → Ws w →
      Ws w₁ → Str k → Ws w₂ →
      Move ⟨stack, w ++ 123 :: (w₁ ++ (k ++ (w₂ ++ 58 :: r))), false⟩ ⟨125 :: stack, r, false⟩
  | close {c : UInt8} {stack : List UInt8} {w r : Bytes} : Ws w →
      Move ⟨c :: stack, w ++ c :: r, true⟩ ⟨stack, r, true⟩
  | nextElement {c : UInt8} {stack : List UInt8} {w r : Bytes} : c ≠ 125 → Ws w →
      Move ⟨c :: stack, w ++ 44 :: r, true⟩ ⟨c :: stack, r, false⟩
  | nextMember {stack : List UInt8} {w w₁ k w₂ r : Bytes} : Ws w → Ws w₁ → Str k → Ws w₂ →
      Move ⟨125 :: stack, w ++ 44 :: (w₁ ++ (k ++ (w₂ ++ 58 :: r))), true⟩ ⟨125 :: stack, r, false⟩

theorem str_ne_nil {k : Bytes} (h : Str k) : k ≠ [] := by
  obtain ⟨us, rfl, -⟩ := h
  exact List.cons_ne_nil _ _

theorem number_head {n : Bytes} (h : Number n) : ∃ c t, n = c :: t ∧ (c = 45 ∨ Digit c) := by
  obtain ⟨m, i, f, x, rfl, rfl | rfl, hi, -, -⟩ := h
  · rcases hi with rfl | ⟨hds, -⟩
    · exact ⟨48, _, rfl, Or.inr (by unfold Digit; decide)⟩
    · obtain ⟨d, ds', rfl⟩ := List.exists_cons_of_ne_nil hds.1
      exact ⟨d, _, rfl, Or.inr (hds.2 d List.mem_cons_self)⟩
  · exact ⟨45, _, rfl, Or.inl rfl⟩

theorem depth_succ {n : ℕ} (hle : n ≤ maxDepth) (hne : n ≠ maxDepth) :
    maxDepth - n = maxDepth - (n + 1) + 1 := by omega

theorem skipOpen_move {stack : List UInt8} {w rest : Bytes} {c : UInt8} {s' : Skip}
    (hw : Ws w) (hc : c = 123 ∨ c = 91)
    (h : skipOpen ⟨stack, w ++ c :: rest, false⟩ c rest = .inl s') :
    Move ⟨stack, w ++ c :: rest, false⟩ s' := by
  obtain ⟨w', hw', hws⟩ := jpWs_sound rest
  unfold skipOpen at h
  simp only at h
  by_cases hdeep : stack.length = maxDepth
  · rw [if_pos hdeep] at h
    cases h
  · rw [if_neg hdeep] at h
    rcases hc with rfl | rfl
    · simp only [if_true] at h
      split at h
      · next r hclose =>
        cases h
        rw [jpByte_eq_some.1 hclose] at hw'
        have hv : stack.length ≤ maxDepth →
            Derives .value (maxDepth - stack.length) (123 :: (w' ++ [125])) := by
          intro hle
          rw [depth_succ hle hdeep]
          exact .emptyObject hws
        have := @Move.value stack _ _ r hw (List.cons_ne_nil _ _) hv
        simpa [hw'] using this
      · obtain ⟨r, hkey, rfl⟩ := expectValue_inl h
        obtain ⟨w₁, k, w₂, hrest, hw₁, hk, hw₂⟩ := jpKeySkip_sound hkey
        have := Move.openObject (r := r) hdeep hw (ws_append hws hw₁) hk hw₂
        rw [hw', hrest]
        simpa using this
    · have hne : ¬(91 : UInt8) = 123 := by decide
      simp only [if_neg hne] at h
      split at h
      · next r hclose =>
        cases h
        rw [jpByte_eq_some.1 hclose] at hw'
        have hv : stack.length ≤ maxDepth →
            Derives .value (maxDepth - stack.length) (91 :: (w' ++ [93])) := by
          intro hle
          rw [depth_succ hle hdeep]
          exact .emptyArray hws
        have := @Move.value stack _ _ r hw (List.cons_ne_nil _ _) hv
        simpa [hw'] using this
      · obtain ⟨r, hok, rfl⟩ := expectValue_inl h
        cases hok
        have := Move.openArray (r := jpWs rest) hdeep hw hws
        rwa [← hw'] at this

theorem skipStep_move {s s' : Skip} (h : skipStep s = .inl s') : Move s s' := by
  obtain ⟨stack, x, after⟩ := s
  obtain ⟨w, hw, hws⟩ := jpWs_sound x
  cases after with
  | true =>
    cases stack with
    | nil => cases h
    | cons close stack =>
      cases hx : jpWs x with
      | nil => simp only [skipStep, if_true, hx, reduceCtorEq] at h
      | cons c rest =>
        rw [hx] at hw
        rw [skipStep_after hx] at h
        split_ifs at h with hclose hcomma hobj
        · cases h
          subst hclose
          rw [hw]
          exact .close hws
        · obtain ⟨r, hkey, rfl⟩ := expectValue_inl h
          obtain ⟨w₁, k, w₂, rfl, hw₁, hk, hw₂⟩ := jpKeySkip_sound hkey
          rw [not_not] at hcomma
          subst hobj hcomma
          rw [hw]
          exact .nextMember hws hw₁ hk hw₂
        · obtain ⟨r, hok, rfl⟩ := expectValue_inl h
          cases hok
          rw [not_not] at hcomma
          subst hcomma
          rw [hw]
          exact .nextElement hobj hws
  | false =>
    cases hx : jpWs x with
    | nil => simp only [skipStep, Bool.false_eq_true, if_false, hx, reduceCtorEq] at h
    | cons c rest =>
      rw [hx] at hw
      rw [skipStep_value hx] at h
      -- an atom: what its reader consumes is a value
      have hatom : ∀ {y : Except String Bytes} {s' : Skip},
          Skip.readValue ⟨stack, x, false⟩ y = .inl s' →
          (∀ r, y = .ok r → ∃ v, c :: rest = v ++ r ∧ v ≠ [] ∧
            Derives .value (maxDepth - stack.length) v) → Move ⟨stack, x, false⟩ s' := by
        intro y s' hread hval
        obtain ⟨r, hr, rfl⟩ := readValue_inl hread
        obtain ⟨v, hv, hne, hder⟩ := hval r hr
        rw [hw, hv]
        exact .value hws hne fun _ => hder
      have hnows : jpWs (c :: rest) = c :: rest := by rw [← hx, jpWs_jpWs]
      split_ifs at h with hopen hquote hbool hnull hchar
      · rw [hw] at h ⊢
        exact skipOpen_move hws hopen h
      · refine hatom h fun r hr => ?_
        obtain ⟨w', k, heq, hw', hk⟩ := jpStringSkip_sound hr
        have hnil : w' = [] := by
          cases w' with
          | nil => rfl
          | cons b w' =>
            obtain ⟨rfl, -⟩ := List.cons.inj heq
            exact absurd (hw' c List.mem_cons_self) (by rw [hquote]; decide)
        subst hnil
        exact ⟨k, heq, str_ne_nil hk, .str hk⟩
      · refine hatom h fun r hr => ?_
        cases hb : jpBool (c :: rest) with
        | error e =>
          rw [hb] at hr
          cases hr
        | ok y =>
          obtain ⟨b, r'⟩ := y
          rw [hb] at hr
          cases hr
          rcases jpBool_sound hb with hlit | hlit
          · exact ⟨ascii "true", hnows.symm.trans hlit, by decide, .true⟩
          · exact ⟨ascii "false", hnows.symm.trans hlit, by decide, .false⟩
      · refine hatom h fun r hr => ?_
        cases hb : jpNull (c :: rest) with
        | none =>
          rw [hb] at hr
          cases hr
        | some r' =>
          rw [hb] at hr
          cases hr
          exact ⟨ascii "null", hnows.symm.trans (jpNull_eq_some.1 hb), by decide, .null⟩
      · refine hatom h fun r hr => ?_
        obtain ⟨n, heq, hn⟩ := jpNumberSkip_sound hr
        obtain ⟨d, t, rfl, -⟩ := number_head hn
        exact ⟨_, heq, List.cons_ne_nil _ _, .number hn⟩

theorem skipStep_shrinks : Loop.Shrinks skipStep fun s => s.rest.length := by
  intro s s' h
  cases skipStep_move h with
  | value _ hne _ =>
    have := List.length_pos_of_ne_nil hne
    simp only [List.length_append]
    omega
  | _ =>
    simp only [List.length_append, List.length_cons]
    omega

/-! ### What is accepted is a document -/

theorem elements_of_follow {d : ℕ} {w v t : Bytes} (hw : Ws w) (hv : Derives .value d v)
    (ht : Follow 93 d t) : ∃ e, w ++ (v ++ t) = e ++ [93] ∧ Derives .elements d e := by
  obtain ⟨w', hw', rfl | ⟨t', rfl, ht'⟩⟩ := ht
  · exact ⟨w ++ (v ++ w'), by simp, .lastElement hw hv hw'⟩
  · exact ⟨w ++ (v ++ (w' ++ 44 :: t')), by simp, .element hw hv hw' ht'⟩

theorem members_of_follow {d : ℕ} {w k w₁ w₂ v t : Bytes} (hw : Ws w) (hk : Str k) (hw₁ : Ws w₁)
    (hw₂ : Ws w₂) (hv : Derives .value d v) (ht : Follow 125 d t) :
    ∃ e, w ++ (k ++ (w₁ ++ 58 :: (w₂ ++ (v ++ t)))) = e ++ [125] ∧ Derives .members d e := by
  obtain ⟨w', hw', rfl | ⟨t', rfl, ht'⟩⟩ := ht
  · exact ⟨w ++ (k ++ (w₁ ++ 58 :: (w₂ ++ (v ++ w')))), by simp, .lastMember hw hk hw₁ hw₂ hv hw'⟩
  · exact ⟨w ++ (k ++ (w₁ ++ 58 :: (w₂ ++ (v ++ (w' ++ 44 :: t'))))), by simp,
      .member hw hk hw₁ hw₂ hv hw' ht'⟩

/-- What a state of the loop reads to leave `r`: a value, if it stands before one, and what closes
the open containers. -/
def Reads (s : Skip) (r : Bytes) : Prop :=
  if s.after then ∃ a, s.rest = a ++ r ∧ Closes s.stack a
  else ∃ w v a, s.rest = w ++ (v ++ (a ++ r)) ∧ Ws w ∧
    Derives .value (maxDepth - s.stack.length) v ∧ Closes s.stack a

theorem reads_after {stack : List UInt8} {x r : Bytes} :
    Reads ⟨stack, x, true⟩ r ↔ ∃ a, x = a ++ r ∧ Closes stack a := by
  simp [Reads]

theorem reads_value {stack : List UInt8} {x r : Bytes} :
    Reads ⟨stack, x, false⟩ r ↔ ∃ w v a, x = w ++ (v ++ (a ++ r)) ∧ Ws w ∧
      Derives .value (maxDepth - stack.length) v ∧ Closes stack a := by
  simp [Reads]

/-- The states of the loop: closing brackets, not too many. -/
def Sane (s : Skip) : Prop := s.stack.length ≤ maxDepth ∧ ∀ c ∈ s.stack, c = 125 ∨ c = 93

theorem move_sane {s s' : Skip} (h : Move s s') (hs : Sane s) : Sane s' := by
  obtain ⟨hlen, hall⟩ := hs
  cases h with
  | value => exact ⟨hlen, hall⟩
  | openArray hne =>
    exact ⟨lt_of_le_of_ne hlen hne, fun c hc => (List.mem_cons.1 hc).elim Or.inr (hall c)⟩
  | openObject hne =>
    exact ⟨lt_of_le_of_ne hlen hne, fun c hc => (List.mem_cons.1 hc).elim Or.inl (hall c)⟩
  | close => exact ⟨(Nat.le_succ _).trans hlen, fun c hc => hall c (List.mem_cons_of_mem _ hc)⟩
  | nextElement => exact ⟨hlen, hall⟩
  | nextMember => exact ⟨hlen, hall⟩

/-- **One iteration, read backwards.** -/
theorem reads_move {s s' : Skip} {r : Bytes} (h : Move s s') (hs : Sane s) (hr : Reads s' r) :
    Reads s r := by
  obtain ⟨hlen, hall⟩ := hs
  cases h with
  | @value stack w v x hw _ hv =>
    obtain ⟨a, rfl, ha⟩ := reads_after.1 hr
    exact reads_value.2 ⟨w, v, a, by simp, hw, hv hlen, ha⟩
  | @openArray stack w w' x hne hw hw' =>
    obtain ⟨w₁, v, _, rfl, hw₁, hv, t, u, rfl, ht, hu⟩ := reads_value.1 hr
    obtain ⟨e, he, hder⟩ := elements_of_follow (ws_append hw' hw₁) hv ht
    refine reads_value.2 ⟨w, 91 :: (e ++ [93]), u, ?_, hw, ?_, hu⟩
    · rw [← he]
      simp
    · rw [depth_succ hlen hne]
      exact .array hder
  | @openObject stack w w₁ k w₂ x hne hw hw₁ hk hw₂ =>
    obtain ⟨w₃, v, _, rfl, hw₃, hv, t, u, rfl, ht, hu⟩ := reads_value.1 hr
    obtain ⟨e, he, hder⟩ := members_of_follow hw₁ hk hw₂ hw₃ hv ht
    refine reads_value.2 ⟨w, 123 :: (e ++ [125]), u, ?_, hw, ?_, hu⟩
    · rw [← he]
      simp
    · rw [depth_succ hlen hne]
      exact .object hder
  | @close c stack w x hw =>
    obtain ⟨a, rfl, ha⟩ := reads_after.1 hr
    exact reads_after.2 ⟨w ++ c :: a, by simp, w ++ [c], a, by simp, ⟨w, hw, Or.inl rfl⟩, ha⟩
  | @nextElement c stack w x hc hw =>
    obtain ⟨w₁, v, _, rfl, hw₁, hv, t, u, rfl, ht, hu⟩ := reads_value.1 hr
    obtain rfl : c = 93 := (hall c List.mem_cons_self).resolve_left hc
    obtain ⟨e, he, hder⟩ := elements_of_follow hw₁ hv ht
    refine reads_after.2 ⟨w ++ 44 :: (e ++ [93] ++ u), ?_, w ++ 44 :: (e ++ [93]), u, by simp,
      ⟨w, hw, Or.inr ⟨e, rfl, hder⟩⟩, hu⟩
    rw [← he]
    simp
  | @nextMember stack w w₁ k w₂ x hw hw₁ hk hw₂ =>
    obtain ⟨w₃, v, _, rfl, hw₃, hv, t, u, rfl, ht, hu⟩ := reads_value.1 hr
    obtain ⟨e, he, hder⟩ := members_of_follow hw₁ hk hw₂ hw₃ hv ht
    refine reads_after.2 ⟨w ++ 44 :: (e ++ [125] ++ u), ?_, w ++ 44 :: (e ++ [125]), u, by simp,
      ⟨w, hw, Or.inr ⟨e, rfl, hder⟩⟩, hu⟩
    rw [← he]
    simp

theorem readValue_ne_ok {s : Skip} {x : Except String Bytes} {r : Bytes} :
    s.readValue x ≠ .inr (.ok r) := by
  cases x <;> simp [Skip.readValue]

theorem expectValue_ne_ok {close : UInt8} {stack : List UInt8} {x : Except String Bytes} {r : Bytes} :
    Skip.expectValue close stack x ≠ .inr (.ok r) := by
  cases x <;> simp [Skip.expectValue]

theorem skipOpen_ne_ok {s : Skip} {c : UInt8} {rest r : Bytes} :
    skipOpen s c rest ≠ .inr (.ok r) := by
  unfold skipOpen
  simp only
  split_ifs with hdeep hobj
  · simp
  · split
    · simp
    · exact expectValue_ne_ok
  · split
    · simp
    · exact expectValue_ne_ok

/-- The loop succeeds only after a value with no container open. -/
theorem skipStep_done {s : Skip} {r : Bytes} (h : skipStep s = .inr (.ok r)) :
    s = ⟨[], r, true⟩ := by
  obtain ⟨stack, x, after⟩ := s
  cases after with
  | true =>
    cases stack with
    | nil =>
      cases h
      rfl
    | cons close stack =>
      cases hx : jpWs x with
      | nil => simp [skipStep, hx] at h
      | cons c rest =>
        rw [skipStep_after hx] at h
        by_cases hclose : c = close
        · rw [if_pos hclose] at h
          cases h
        · rw [if_neg hclose] at h
          by_cases hcomma : c ≠ 44
          · rw [if_pos hcomma] at h
            cases h
          · rw [if_neg hcomma] at h
            exact absurd h expectValue_ne_ok
  | false =>
    cases hx : jpWs x with
    | nil => simp [skipStep, hx] at h
    | cons c rest =>
      rw [skipStep_value hx] at h
      by_cases hopen : c = 123 ∨ c = 91
      · rw [if_pos hopen] at h
        exact absurd h skipOpen_ne_ok
      · rw [if_neg hopen] at h
        split_ifs at h
        · exact absurd h readValue_ne_ok
        · exact absurd h readValue_ne_ok
        · exact absurd h readValue_ne_ok
        · cases h
        · exact absurd h readValue_ne_ok

/-- **A run that succeeds** has read a value. -/
theorem skip_sound {x r : Bytes} (h : jpSkip x = .ok r) :
    ∃ w v, x = w ++ (v ++ r) ∧ Ws w ∧ Derives .value maxDepth v := by
  obtain ⟨y, hy⟩ := Loop.exec_isSome skipStep_shrinks ⟨[], x, false⟩
  unfold jpSkip at h
  rw [hy, Option.getD_some] at h
  subst h
  have hall := Loop.exec_induct skipStep_shrinks
    (P := fun s y => ∀ r, y = .ok r → Sane s → Reads s r) ?_ ?_ hy
  · obtain ⟨w, v, a, rfl, hw, hv, ha⟩ := reads_value.1 (hall r rfl ⟨Nat.zero_le _, by simp⟩)
    cases ha
    exact ⟨w, v, rfl, hw, hv⟩
  · rintro s y hstep r rfl -
    rw [skipStep_done hstep]
    exact reads_after.2 ⟨[], rfl, rfl⟩
  · intro s s' y hstep ih r hr hs
    have hmove := skipStep_move hstep
    exact reads_move hmove hs (ih r hr (move_sane hmove hs))

/-! ### Every document is accepted -/

theorem stop_of_ws {w s : Bytes} (hw : Ws w) (hs : Stop s) : Stop (w ++ s) := by
  cases w with
  | nil => exact hs
  | cons c w =>
    have hc := hw c List.mem_cons_self
    unfold Stop NoDigit Digit
    simp only [List.cons_append, List.head?_cons, Option.some.injEq, forall_eq']
    rcases hc with rfl | rfl | rfl | rfl <;> decide

theorem stop_cons {c : UInt8} (h : c = 44 ∨ c = 93 ∨ c = 125) (s : Bytes) : Stop (c :: s) := by
  unfold Stop NoDigit Digit
  simp only [List.head?_cons, Option.some.injEq, forall_eq']
  rcases h with rfl | rfl | rfl <;> decide

theorem stop_nil : Stop [] := ⟨fun _ h => (by cases h), fun _ h => (by cases h)⟩

theorem jpKeySkip_jpWs (s : Bytes) : jpKeySkip (jpWs s) = jpKeySkip s := by
  simp only [jpKeySkip, jpStringSkip, jpStringBuf, jpWs_jpWs]

/-- What the loop does with a text that is derived from a symbol. -/
def Consumed : Sym → ℕ → Bytes → Prop
  | .value, d, v => ∀ stack x r, jpWs x = v ++ r → stack.length + d ≤ maxDepth → Stop r →
      Loop.Reaches skipStep ⟨stack, x, false⟩ ⟨stack, r, true⟩
  | .elements, d, e => ∀ stack x r, jpWs x = jpWs (e ++ 93 :: r) →
      stack.length + 1 + d ≤ maxDepth →
      Loop.Reaches skipStep ⟨93 :: stack, x, false⟩ ⟨stack, r, true⟩
  | .members, d, e => ∀ stack r, stack.length + 1 + d ≤ maxDepth →
      ∃ x, jpKeySkip (e ++ 125 :: r) = .ok x ∧
        Loop.Reaches skipStep ⟨125 :: stack, x, false⟩ ⟨stack, r, true⟩

/-- A bracket or a comma after white space. -/
theorem jpWs_mark {w : Bytes} (hw : Ws w) {c : UInt8} (hc : isWs c = false) (s : Bytes) :
    jpWs (w ++ c :: s) = c :: s := by
  rw [jpWs_append hw, jpWs_cons (by rw [hc]; exact Bool.false_ne_true)]

/-- The innermost container is closed. -/
theorem reaches_close {w : Bytes} (hw : Ws w) {c : UInt8} (hc : isWs c = false)
    (stack : List UInt8) (r : Bytes) :
    Loop.Reaches skipStep ⟨c :: stack, w ++ c :: r, true⟩ ⟨stack, r, true⟩ :=
  .single (by rw [skipStep_after (jpWs_mark hw hc r), if_pos rfl])

theorem reaches_atom {stack : List UInt8} {x r : Bytes} {y : Except String Bytes} (hy : y = .ok r)
    (h : skipStep ⟨stack, x, false⟩ = Skip.readValue ⟨stack, x, false⟩ y) :
    Loop.Reaches skipStep ⟨stack, x, false⟩ ⟨stack, r, true⟩ := by
  rw [hy] at h
  exact .single h

theorem number_first {c : UInt8} (h : c = 45 ∨ Digit c) :
    isWs c = false ∧ ¬(c = 123 ∨ c = 91) ∧ c ≠ 34 ∧ ¬(c = 116 ∨ c = 102) ∧ c ≠ 110 ∧
      ¬(c ≠ 45 ∧ (c < 48 ∨ 57 < c)) := by
  rcases h with rfl | ⟨h₁, h₂⟩
  · decide
  · rw [← Bool.not_eq_true, isWs_iff]
    simp only [UInt8.le_iff_toNat_le, UInt8.lt_iff_toNat_lt, ← UInt8.toNat_inj, ne_eq,
      UInt8.reduceToNat] at *
    omega

/-- The loop enters a container that is not empty. -/
theorem skipOpen_enter {stack : List UInt8} {x y r rest : Bytes} {c : UInt8}
    (hlen : stack.length < maxDepth) (hc : c = 123 ∨ c = 91) (hx : jpWs x = c :: rest)
    (hclose : (jpWs rest).head? ≠ some (if c = 123 then 125 else 93))
    (hy : (if c = 123 then jpKeySkip (jpWs rest) else .ok (jpWs rest)) = .ok y)
    (h : Loop.Reaches skipStep ⟨(if c = 123 then 125 else 93) :: stack, y, false⟩ ⟨stack, r, true⟩) :
    Loop.Reaches skipStep ⟨stack, x, false⟩ ⟨stack, r, true⟩ := by
  refine Loop.Reaches.trans (.single ?_) h
  rw [skipStep_value hx, if_pos hc, skipOpen, if_neg (Nat.ne_of_lt hlen)]
  simp only [jpByte_eq_none.2 hclose, hy]
  rfl

/-- The loop reads an empty container at once. -/
theorem skipOpen_empty {stack : List UInt8} {x r rest : Bytes} {c : UInt8}
    (hlen : stack.length < maxDepth) (hc : c = 123 ∨ c = 91) (hx : jpWs x = c :: rest)
    (hclose : jpWs rest = (if c = 123 then 125 else 93) :: r) :
    Loop.Reaches skipStep ⟨stack, x, false⟩ ⟨stack, r, true⟩ := by
  refine .single ?_
  rw [skipStep_value hx, if_pos hc, skipOpen, if_neg (Nat.ne_of_lt hlen)]
  simp only [jpByte_eq_some.2 hclose]

/-- The first byte of a value. -/
theorem value_head {d : ℕ} {v : Bytes} (h : Derives .value d v) :
    ∃ c t, v = c :: t ∧ isWs c = false ∧ c ≠ 93 := by
  cases h with
  | null => exact ⟨110, _, rfl, by decide, by decide⟩
  | true => exact ⟨116, _, rfl, by decide, by decide⟩
  | false => exact ⟨102, _, rfl, by decide, by decide⟩
  | number hn =>
    obtain ⟨c, t, rfl, hc⟩ := number_head hn
    refine ⟨c, t, rfl, (number_first hc).1, ?_⟩
    rintro rfl
    exact absurd hc (by unfold Digit; decide)
  | str hk =>
    obtain ⟨us, rfl, -⟩ := hk
    exact ⟨34, _, rfl, by decide, by decide⟩
  | emptyArray _ => exact ⟨91, _, rfl, by decide, by decide⟩
  | array _ => exact ⟨91, _, rfl, by decide, by decide⟩
  | emptyObject _ => exact ⟨123, _, rfl, by decide, by decide⟩
  | object _ => exact ⟨123, _, rfl, by decide, by decide⟩

/-- White space before a value. -/
theorem jpWs_value {d : ℕ} {w v : Bytes} (hw : Ws w) (h : Derives .value d v) (s : Bytes) :
    jpWs (w ++ (v ++ s)) = v ++ s := by
  obtain ⟨c, t, rfl, hc, -⟩ := value_head h
  exact jpWs_mark hw hc _

theorem elements_head {d : ℕ} {e : Bytes} (h : Derives .elements d e) (s : Bytes) :
    (jpWs (e ++ s)).head? ≠ some 93 := by
  cases h with
  | lastElement hw hv hw' =>
    obtain ⟨c, t, rfl, hc, hne⟩ := value_head hv
    rw [List.append_assoc, List.append_assoc, List.cons_append, jpWs_mark hw hc]
    simpa using hne
  | element hw hv hw' _ =>
    obtain ⟨c, t, rfl, hc, hne⟩ := value_head hv
    rw [List.append_assoc, List.append_assoc, List.cons_append, jpWs_mark hw hc]
    simpa using hne

theorem members_head {d : ℕ} {e : Bytes} (h : Derives .members d e) (s : Bytes) :
    (jpWs (e ++ s)).head? ≠ some 125 := by
  have hquote : isWs 34 = false := by decide
  cases h with
  | lastMember hw hk =>
    obtain ⟨us, rfl, -⟩ := hk
    rw [List.append_assoc, List.cons_append, List.cons_append, jpWs_mark hw hquote]
    simp
  | member hw hk =>
    obtain ⟨us, rfl, -⟩ := hk
    rw [List.append_assoc, List.cons_append, List.cons_append, jpWs_mark hw hquote]
    simp

/-- **A derived text is consumed**, by induction over its derivation. -/
theorem derives_consumed {sym : Sym} {d : ℕ} {s : Bytes} (h : Derives sym d s) :
    Consumed sym d s := by
  have hbracket : isWs 93 = false := by decide
  have hbrace : isWs 125 = false := by decide
  have hcomma : isWs 44 = false := by decide
  induction h with
  -- Atoms: one turn, told apart by the first byte.
  | null =>
    intro stack x r hx _ _
    have hx' : jpWs x = 110 :: ([117, 108, 108] ++ r) := hx
    refine reaches_atom ?_ (by rw [skipStep_value hx', if_neg (by decide), if_neg (by decide),
      if_neg (by decide), if_pos rfl])
    rw [← hx', jpNull_eq_some.2 (by rw [jpWs_jpWs, hx])]
    rfl
  | true =>
    intro stack x r hx _ _
    have hx' : jpWs x = 116 :: ([114, 117, 101] ++ r) := hx
    refine reaches_atom ?_ (by rw [skipStep_value hx', if_neg (by decide), if_neg (by decide),
      if_pos (by decide)])
    rw [← hx', hx, jpBool_true]
    rfl
  | false =>
    intro stack x r hx _ _
    have hx' : jpWs x = 102 :: ([97, 108, 115, 101] ++ r) := hx
    refine reaches_atom ?_ (by rw [skipStep_value hx', if_neg (by decide), if_neg (by decide),
      if_pos (by decide)])
    rw [← hx', hx, jpBool_false]
    rfl
  | number hn =>
    intro stack x r hx _ hr
    have hdone := jpNumberSkip_complete hn hr
    obtain ⟨c, t, rfl, hc⟩ := number_head hn
    obtain ⟨-, h₁, h₂, h₃, h₄, h₅⟩ := number_first hc
    rw [List.cons_append] at hx hdone
    exact reaches_atom hdone (by rw [skipStep_value hx, if_neg h₁, if_neg h₂, if_neg h₃, if_neg h₄,
      if_neg h₅])
  | str hk =>
    intro stack x r hx _ _
    have hdone := jpStringSkip_complete ws_nil hk r
    obtain ⟨us, rfl, -⟩ := hk
    rw [List.cons_append] at hx
    rw [List.nil_append, List.cons_append] at hdone
    exact reaches_atom hdone (by rw [skipStep_value hx, if_neg (by decide), if_pos rfl])
  -- Containers: a turn that opens, the parts on a stack that is longer by one, a turn that closes.
  | @emptyArray d w hw =>
    intro stack x r hx hlen _
    rw [List.cons_append, List.append_assoc] at hx
    exact skipOpen_empty (by omega) (Or.inr rfl) hx (jpWs_mark hw hbracket r)
  | @array d e he ih =>
    intro stack x r hx hlen _
    rw [List.cons_append, List.append_assoc] at hx
    refine skipOpen_enter (by omega) (Or.inr rfl) hx (elements_head he _) rfl ?_
    exact ih stack _ r (jpWs_jpWs _) (by omega)
  | @emptyObject d w hw =>
    intro stack x r hx hlen _
    rw [List.cons_append, List.append_assoc] at hx
    exact skipOpen_empty (by omega) (Or.inl rfl) hx (jpWs_mark hw hbrace r)
  | @object d e he ih =>
    intro stack x r hx hlen _
    rw [List.cons_append, List.append_assoc] at hx
    obtain ⟨y, hy, hreach⟩ := ih stack r (by omega)
    refine skipOpen_enter (by omega) (Or.inl rfl) hx (members_head he _) ?_ hreach
    rw [if_pos rfl, jpKeySkip_jpWs]
    exact hy
  -- Parts: a value, and then the closing bracket or a comma and the other parts.
  | @lastElement d w v w' hw hv hw' ih =>
    intro stack x r hx hlen
    rw [List.append_assoc, List.append_assoc, jpWs_value hw hv] at hx
    exact (ih (93 :: stack) x _ hx hlen (stop_of_ws hw' (stop_cons (by simp) _))).trans
      (reaches_close hw' hbracket stack r)
  | @element d w v w' e hw hv hw' he ihv ihe =>
    intro stack x r hx hlen
    rw [List.append_assoc, List.append_assoc, List.append_assoc, List.cons_append,
      jpWs_value hw hv] at hx
    refine (ihv (93 :: stack) x _ hx hlen (stop_of_ws hw' (stop_cons (by simp) _))).trans ?_
    refine Loop.Reaches.trans (.single ?_) (ihe stack (e ++ 93 :: r) r rfl hlen)
    rw [skipStep_after (jpWs_mark hw' hcomma _), if_neg (by decide), if_neg (by decide),
      if_neg (by decide)]
    rfl
  | @lastMember d w k w₁ w₂ v w' hw hk hw₁ hw₂ hv hw' ih =>
    intro stack r hlen
    refine ⟨w₂ ++ (v ++ (w' ++ 125 :: r)), ?_, ?_⟩
    · have := jpKeySkip_complete hw hk hw₁ (w₂ ++ (v ++ (w' ++ 125 :: r)))
      simpa using this
    · exact (ih (125 :: stack) _ _ (jpWs_value hw₂ hv _) hlen
        (stop_of_ws hw' (stop_cons (by simp) _))).trans (reaches_close hw' hbrace stack r)
  | @member d w k w₁ w₂ v w' e hw hk hw₁ hw₂ hv hw' he ihv ihe =>
    intro stack r hlen
    obtain ⟨y, hy, hreach⟩ := ihe stack r hlen
    refine ⟨w₂ ++ (v ++ (w' ++ 44 :: (e ++ 125 :: r))), ?_, ?_⟩
    · have := jpKeySkip_complete hw hk hw₁ (w₂ ++ (v ++ (w' ++ 44 :: (e ++ 125 :: r))))
      simpa using this
    · refine (ihv (125 :: stack) _ _ (jpWs_value hw₂ hv _) hlen
        (stop_of_ws hw' (stop_cons (by simp) _))).trans ?_
      refine Loop.Reaches.trans (.single ?_) hreach
      rw [skipStep_after (jpWs_mark hw' hcomma _), if_neg (by decide), if_neg (by decide),
        if_pos rfl, hy]
      rfl

theorem skip_complete {v w : Bytes} (hw : Ws w) (hv : Derives .value maxDepth v) {r : Bytes}
    (hr : Stop r) : jpSkip (w ++ (v ++ r)) = .ok r := by
  have hreach := derives_consumed hv [] (w ++ (v ++ r)) r (jpWs_value hw hv r) (by simp) hr
  have hdone : skipStep ⟨[], r, true⟩ = .inr (.ok r) := rfl
  unfold jpSkip
  rw [Loop.exec_reaches skipStep_shrinks hreach, Loop.exec_inr hdone]
  rfl

/-- **`jpSkip` and then `jpEnd` accept exactly the JSON texts** that nest at most `maxDepth` deep. -/
theorem skip_accepts_iff (payload : Bytes) :
    (∃ rest, jpSkip payload = .ok rest ∧ jpEnd rest = .ok ()) ↔ Document maxDepth payload := by
  constructor
  · rintro ⟨rest, hskip, hend⟩
    obtain ⟨w, v, rfl, hw, hv⟩ := skip_sound hskip
    obtain ⟨w', hw', hws⟩ := jpWs_sound rest
    have hnil : jpWs rest = [] := by
      by_contra hne
      rw [jpEnd, if_neg hne] at hend
      cases hend
    rw [hnil, List.append_nil] at hw'
    exact ⟨w, v, rest, rfl, hw, hv, hw' ▸ hws⟩
  · rintro ⟨w, v, w', rfl, hw, hv, hw'⟩
    have hstop := stop_of_ws hw' stop_nil
    rw [List.append_nil] at hstop
    refine ⟨w', skip_complete hw hv hstop, ?_⟩
    have hnil := jpWs_append hw' []
    rw [List.append_nil] at hnil
    rw [jpEnd, hnil]
    rfl

end Codec
