import Mathlib

/-!
# Taking patterns off both ends of a text

A letter may be encoded in several symbols, so blanks are given as patterns.

* `left`, `right`, `both`: the text without the patterns at its front, at its back, at both ends;
* `Alone`: a symbol that is a part of no pattern but itself;
* `Core`: a text that is not empty and has no pattern at its ends;
* `both_core`: trimming a core between blanks gives the core back.
-/

namespace Trim

variable {α : Type*} [DecidableEq α]

/-- The text behind the patterns at its front; at most `n` of them are taken. -/
def front (ps : List (List α)) : ℕ → List α → List α
  | 0, s => s
  | n + 1, s =>
    match ps.find? (·.isPrefixOf s) with
    | none => s
    | some p => front ps n (s.drop p.length)

def left (ps : List (List α)) (s : List α) : List α := front ps s.length s

def right (ps : List (List α)) (s : List α) : List α :=
  (left (ps.map List.reverse) s.reverse).reverse

def both (ps : List (List α)) (s : List α) : List α := right ps (left ps s)

variable {ps : List (List α)} {a : α} {s t v : List α}

/-- No pattern is at the front. -/
def Solid (ps : List (List α)) (s : List α) : Prop := ∀ p ∈ ps, ¬p <+: s

/-- The symbol is a part of no pattern but itself. -/
def Alone (ps : List (List α)) (a : α) : Prop := ∀ p ∈ ps, a ∈ p → p = [a]

/-- The symbol is a part of no pattern. -/
def Firm (ps : List (List α)) (a : α) : Prop := ∀ p ∈ ps, a ∉ p

/-- The symbol is a pattern. -/
structure Blank (ps : List (List α)) (a : α) : Prop where
  mem : [a] ∈ ps
  alone : Alone ps a

/-- A text that trimming leaves as it is. -/
structure Core (ps : List (List α)) (s : List α) : Prop where
  ne : s ≠ []
  first : Solid ps s
  last : Solid (ps.map List.reverse) s.reverse

/-! ### The front -/

omit [DecidableEq α] in
theorem Firm.alone (h : Firm ps a) : Alone ps a := fun p hp ha => absurd ha (h p hp)

omit [DecidableEq α] in
theorem Alone.reverse (h : Alone ps a) : Alone (ps.map List.reverse) a := by
  intro p hp ha
  obtain ⟨q, hq, rfl⟩ := List.mem_map.1 hp
  rw [h q hq (List.mem_reverse.1 ha), List.reverse_singleton]

omit [DecidableEq α] in
theorem Firm.reverse (h : Firm ps a) : Firm (ps.map List.reverse) a := by
  intro p hp ha
  obtain ⟨q, hq, rfl⟩ := List.mem_map.1 hp
  exact h q hq (List.mem_reverse.1 ha)

omit [DecidableEq α] in
theorem Blank.reverse (h : Blank ps a) : Blank (ps.map List.reverse) a :=
  ⟨List.mem_map.2 ⟨[a], h.mem, rfl⟩, h.alone.reverse⟩

omit [DecidableEq α] in
theorem nil_not_mem_reverse (hps : [] ∉ ps) : [] ∉ ps.map List.reverse := by
  intro h
  obtain ⟨q, hq, hnil⟩ := List.mem_map.1 h
  rw [List.reverse_eq_nil_iff] at hnil
  exact hps (hnil ▸ hq)

theorem front_solid (h : Solid ps s) (n : ℕ) : front ps n s = s := by
  cases n with
  | zero => rfl
  | succ n =>
    have hnone : ps.find? (·.isPrefixOf s) = none :=
      List.find?_eq_none.2 fun p hp hpre => h p hp (List.isPrefixOf_iff_prefix.1 hpre)
    rw [front, hnone]

theorem left_solid (h : Solid ps s) : left ps s = s := front_solid h _

/-- A blank is taken off. -/
theorem left_cons (hps : [] ∉ ps) (h : Blank ps a) (s : List α) : left ps (a :: s) = left ps s := by
  rw [left, List.length_cons, front]
  cases hfind : ps.find? (·.isPrefixOf (a :: s)) with
  | none =>
    have hno := List.find?_eq_none.1 hfind [a] h.mem
    exact absurd (List.isPrefixOf_iff_prefix.2 (List.prefix_append [a] s)) hno
  | some p =>
    have hmem := List.mem_of_find?_eq_some hfind
    have hpre : p <+: a :: s := by simpa using List.find?_some hfind
    have hp : p = [a] := by
      cases p with
      | nil => exact absurd hmem hps
      | cons b p =>
        obtain rfl : b = a := by
          obtain ⟨r, hr⟩ := hpre
          exact (List.cons.inj hr).1
        exact h.alone _ hmem List.mem_cons_self
    subst hp
    rfl

theorem left_append (hps : [] ∉ ps) {b : List α} (hb : ∀ a ∈ b, Blank ps a) (s : List α) :
    left ps (b ++ s) = left ps s := by
  induction b with
  | nil => rfl
  | cons a b ih =>
    obtain ⟨ha, hb⟩ := List.forall_mem_cons.1 hb
    rw [List.cons_append, left_cons hps ha, ih hb]

theorem left_blank (hps : [] ∉ ps) {b : List α} (hb : ∀ a ∈ b, Blank ps a) : left ps b = [] := by
  have h := left_append hps hb []
  rwa [List.append_nil] at h

theorem front_suffix (n : ℕ) (s : List α) : front ps n s <:+ s := by
  induction n generalizing s with
  | zero => exact List.suffix_refl s
  | succ n ih =>
    rw [front]
    split
    · exact List.suffix_refl s
    · exact (ih _).trans (List.drop_suffix _ s)

theorem left_suffix (s : List α) : left ps s <:+ s := front_suffix _ s

theorem solid_front (hps : [] ∉ ps) (n : ℕ) (s : List α) (hn : s.length ≤ n) :
    Solid ps (front ps n s) := by
  induction n generalizing s with
  | zero =>
    intro p hp hpre
    rw [front, List.eq_nil_of_length_eq_zero (Nat.le_zero.1 hn)] at hpre
    exact hps (List.prefix_nil.1 hpre ▸ hp)
  | succ n ih =>
    rw [front]
    split
    · next hnone =>
      intro p hp hpre
      exact List.find?_eq_none.1 hnone p hp (List.isPrefixOf_iff_prefix.2 hpre)
    · next p hsome =>
      have hpos : 0 < p.length := by
        refine List.length_pos_iff.2 fun hp => hps ?_
        exact hp ▸ List.mem_of_find?_eq_some hsome
      refine ih _ ?_
      rw [List.length_drop]
      omega

theorem solid_left (hps : [] ∉ ps) (s : List α) : Solid ps (left ps s) :=
  solid_front hps _ s le_rfl

/-! ### Cores -/

omit [DecidableEq α] in
/-- A pattern does not reach over a symbol that stands alone. -/
theorem solid_append (hs : s ≠ []) (h : Solid ps s) (ht : ∀ a ∈ t.head?, Alone ps a) :
    Solid ps (s ++ t) := by
  intro p hp hpre
  rcases List.prefix_or_prefix_of_prefix hpre (List.prefix_append s t) with hin | ⟨u, rfl⟩
  · exact h p hp hin
  · cases u with
    | nil => exact h _ hp (by rw [List.append_nil])
    | cons a u =>
      obtain ⟨r, rfl⟩ := (List.prefix_append_right_inj s).1 hpre
      have hone := ht a rfl _ hp (List.mem_append_right _ List.mem_cons_self)
      have hlen := congrArg List.length hone
      have hpos := List.length_pos_iff.2 hs
      simp only [List.length_append, List.length_cons, List.length_nil] at hlen
      omega

omit [DecidableEq α] in
theorem solid_cons (hps : [] ∉ ps) (h : Firm ps a) (s : List α) : Solid ps (a :: s) := by
  intro p hp hpre
  cases p with
  | nil => exact hps hp
  | cons b p =>
    obtain ⟨r, hr⟩ := hpre
    exact h _ hp ((List.cons.inj hr).1 ▸ List.mem_cons_self)

omit [DecidableEq α] in
theorem Firm.core (hps : [] ∉ ps) (h : Firm ps a) : Core ps [a] :=
  ⟨List.cons_ne_nil a [], solid_cons hps h [], solid_cons (nil_not_mem_reverse hps) h.reverse []⟩

theorem Core.left (h : Core ps s) : left ps s = s := left_solid h.first

theorem Core.both (h : Core ps s) : both ps s = s := by
  rw [Trim.both, h.left, right, left_solid h.last, List.reverse_reverse]

/-- What trimming leaves as it is, is a core. -/
theorem core_of_both (hps : [] ∉ ps) (hs : s ≠ []) (h : both ps s = s) : Core ps s := by
  have hleft : (Trim.left ps s).length ≤ s.length := (left_suffix s).length_le
  have hright : (Trim.left (ps.map List.reverse) (Trim.left ps s).reverse).length ≤
      (Trim.left ps s).reverse.length := (left_suffix _).length_le
  have hlen := congrArg List.length h
  rw [Trim.both, right, List.length_reverse] at hlen
  rw [List.length_reverse] at hright
  have heq : Trim.left ps s = s := (left_suffix s).eq_of_length (by omega)
  refine ⟨hs, heq ▸ solid_left hps s, ?_⟩
  rw [Trim.both, heq, right] at h
  have hrev := congrArg List.reverse h
  rw [List.reverse_reverse] at hrev
  exact hrev ▸ solid_left (nil_not_mem_reverse hps) s.reverse

omit [DecidableEq α] in
/-- A core that goes on and ends with a firm symbol. -/
theorem Core.cap (hps : [] ∉ ps) {c : α} (h : Core ps s)
    (ht : ∀ a ∈ (t ++ [c]).head?, Alone ps a) (hc : Firm ps c) : Core ps (s ++ (t ++ [c])) := by
  refine ⟨by simp [h.ne], solid_append h.ne h.first ht, ?_⟩
  rw [List.reverse_append, List.reverse_append, List.reverse_singleton, List.append_assoc]
  exact solid_cons (nil_not_mem_reverse hps) hc.reverse _

omit [DecidableEq α] in
/-- Two cores with something between them. -/
theorem Core.bridge (h : Core ps s) (hv : Core ps v) (hfirst : ∀ a ∈ t.head?, Alone ps a)
    (hlast : ∀ a ∈ t.getLast?, Alone ps a) (hne : t ≠ []) : Core ps (s ++ (t ++ v)) := by
  refine ⟨by simp [h.ne], solid_append h.ne h.first ?_, ?_⟩
  · intro a ha
    rw [List.head?_append_of_ne_nil _ hne] at ha
    exact hfirst a ha
  · rw [List.reverse_append, List.reverse_append, List.append_assoc]
    refine solid_append (by simpa using hv.ne) hv.last ?_
    intro a ha
    rw [List.head?_append_of_ne_nil _ (by simpa using hne), List.head?_reverse] at ha
    exact (hlast a ha).reverse

/-- **Trimming gives a core between blanks back.** -/
theorem both_core (hps : [] ∉ ps) (h : Core ps s) {b c : List α} (hb : ∀ a ∈ b, Blank ps a)
    (hc : ∀ a ∈ c, Blank ps a) : both ps (b ++ (s ++ c)) = s := by
  have hhead : ∀ a ∈ c.head?, Alone ps a := fun a ha => (hc a (List.mem_of_mem_head? ha)).alone
  have hrev : ∀ a ∈ c.reverse, Blank (ps.map List.reverse) a :=
    fun a ha => (hc a (List.mem_reverse.1 ha)).reverse
  rw [Trim.both, left_append hps hb, left_solid (solid_append h.ne h.first hhead), right,
    List.reverse_append, left_append (nil_not_mem_reverse hps) hrev, left_solid h.last,
    List.reverse_reverse]

theorem both_blank (hps : [] ∉ ps) {b : List α} (hb : ∀ a ∈ b, Blank ps a) : both ps b = [] := by
  rw [Trim.both, left_blank hps hb]
  rfl

end Trim
