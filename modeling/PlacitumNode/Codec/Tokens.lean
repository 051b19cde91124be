import PlacitumNode.Codec.Json
import PlacitumNode.Lib.JsonText

/-!
# The tokens of a JSON text

The functions that read one token against the grammar, in both directions: what a function consumes
is a token (`*_sound`), and a token is consumed whole, whatever follows it (`*_complete`; for a
number, provided that what follows does not continue it).
-/

namespace Codec

open Octets String Utf8 JsonText

/-! ### White space -/

theorem isWs_iff (c : UInt8) : isWs c = true ↔ c = 32 ∨ c = 9 ∨ c = 10 ∨ c = 13 := by
  simp only [isWs, decide_eq_true_eq]
  tauto

/-- What `jpWs` skips is white space, and what it leaves is the rest. -/
theorem jpWs_sound (s : Bytes) : ∃ w, s = w ++ jpWs s ∧ Ws w := by
  refine ⟨s.takeWhile isWs, (List.takeWhile_append_dropWhile).symm, fun c hc => ?_⟩
  exact (isWs_iff c).1 (List.mem_takeWhile_imp hc)

theorem jpWs_append {w : Bytes} (h : Ws w) (s : Bytes) : jpWs (w ++ s) = jpWs s := by
  induction w with
  | nil => rfl
  | cons c w ih =>
    have hc : isWs c = true := (isWs_iff c).2 (h c List.mem_cons_self)
    rw [List.cons_append, jpWs, List.dropWhile_cons_of_pos hc]
    exact ih fun b hb => h b (List.mem_cons_of_mem c hb)

/-- A byte that is no white space stops the skipping at once. -/
theorem jpWs_cons {c : UInt8} (h : ¬isWs c = true) (s : Bytes) : jpWs (c :: s) = c :: s :=
  List.dropWhile_cons_of_neg h

theorem jpWs_jpWs (s : Bytes) : jpWs (jpWs s) = jpWs s := by
  unfold jpWs
  exact List.dropWhile_idempotent _ _

/-! ### Escapes -/

theorem hexValue_isSome (c : UInt8) : (∃ d, hexValue c = some d) ↔ Hex c := by
  unfold hexValue Hex
  split_ifs with h₁ h₂ h₃ <;> simp [*]

/-- The digits that were read are hexadecimal and as many as were asked for. -/
theorem hexDigits_sound {n v v' : ℕ} {s r : Bytes} (h : hexDigits n v s = .ok (v', r)) :
    ∃ ds : Bytes, s = ds ++ r ∧ ds.length = n ∧ ∀ c ∈ ds, Hex c := by
  induction n generalizing v s with
  | zero =>
    cases h
    exact ⟨[], rfl, rfl, fun _ hc => absurd hc List.not_mem_nil⟩
  | succ n ih =>
    cases s with
    | nil => cases h
    | cons c s =>
      rw [hexDigits] at h
      split at h
      · next d hd =>
        obtain ⟨ds, rfl, rfl, hds⟩ := ih h
        refine ⟨c :: ds, rfl, rfl, fun x hx => ?_⟩
        rcases List.mem_cons.1 hx with rfl | hx
        · exact (hexValue_isSome x).1 ⟨d, hd⟩
        · exact hds x hx
      · cases h

/-- Hexadecimal digits are always accepted, whatever follows. -/
theorem hexDigits_complete {ds : Bytes} (h : ∀ c ∈ ds, Hex c) (v : ℕ) (r : Bytes) :
    ∃ v', hexDigits ds.length v (ds ++ r) = .ok (v', r) := by
  induction ds generalizing v with
  | nil => exact ⟨v, rfl⟩
  | cons c ds ih =>
    obtain ⟨d, hd⟩ := (hexValue_isSome c).2 (h c List.mem_cons_self)
    simp only [List.length_cons, List.cons_append, hexDigits, hd]
    exact ih (fun x hx => h x (List.mem_cons_of_mem c hx)) _

theorem jpHex4_sound {s r : Bytes} {v : ℕ} (h : jpHex4 s = .ok (v, r)) :
    ∃ a b c d, s = [a, b, c, d] ++ r ∧ Hex a ∧ Hex b ∧ Hex c ∧ Hex d := by
  unfold jpHex4 at h
  split_ifs at h
  obtain ⟨ds, rfl, hlen, hds⟩ := hexDigits_sound h
  obtain ⟨a, b, c, d, rfl⟩ : ∃ a b c d, ds = [a, b, c, d] := by
    match ds, hlen with
    | [a, b, c, d], _ => exact ⟨a, b, c, d, rfl⟩
  exact ⟨a, b, c, d, rfl, hds a (by simp), hds b (by simp), hds c (by simp), hds d (by simp)⟩

theorem jpHex4_complete {a b c d : UInt8} (ha : Hex a) (hb : Hex b) (hc : Hex c) (hd : Hex d)
    (r : Bytes) : ∃ v, jpHex4 ([a, b, c, d] ++ r) = .ok (v, r) := by
  unfold jpHex4
  rw [if_neg (by simp)]
  refine @hexDigits_complete [a, b, c, d] ?_ 0 r
  simp only [List.mem_cons, List.not_mem_nil, or_false]
  rintro x (rfl | rfl | rfl | rfl) <;> assumption

/-- The letters that an escape may have, but for that of a code unit. -/
theorem escape_isSome (e : UInt8) :
    (∃ b, escape e = some b) ↔ e ∈ ([34, 92, 47, 98, 102, 110, 114, 116] : Bytes) := by
  unfold escape
  split_ifs <;> simp [*]

/-! ### Strings -/

/-- Behind a high surrogate nothing is taken, or the escape that makes a pair of it. -/
theorem jpSurrogate_sound {cp : ℕ} {s u r : Bytes} (h : jpSurrogate cp s = .ok (u, r)) :
    r = s ∨ ∃ u', StrUnit u' ∧ s = u' ++ r := by
  unfold jpSurrogate at h
  split_ifs at h with hesc
  · split at h
    · cases h
    · next low after hlow =>
      split_ifs at h
      · obtain ⟨-, rfl⟩ := Prod.mk.inj (Except.ok.inj h)
        obtain ⟨a, b, c, d, hdrop, ha, hb, hc, hd⟩ := jpHex4_sound hlow
        refine Or.inr ⟨[92, 117, a, b, c, d], .code a b c d ha hb hc hd, ?_⟩
        rw [← List.take_append_drop 2 s, hesc.2, hdrop]
        simp
      · cases h
        exact Or.inl rfl
  · cases h
    exact Or.inl rfl

/-- What an escape of four digits takes is one unit, or two that make a pair. -/
theorem jpCodePoint_sound {s u r : Bytes} (h : jpCodePoint s = .ok (u, r)) :
    ∃ us, us ≠ [] ∧ 92 :: 117 :: s = us.flatten ++ r ∧ ∀ u ∈ us, StrUnit u := by
  unfold jpCodePoint at h
  split at h
  · cases h
  · next cp s' hcp =>
    obtain ⟨a, b, c, d, rfl, ha, hb, hc, hd⟩ := jpHex4_sound hcp
    have hfirst := StrUnit.code a b c d ha hb hc hd
    have hone : ∃ us, us ≠ [] ∧ 92 :: 117 :: ([a, b, c, d] ++ s') = us.flatten ++ s' ∧
        ∀ u ∈ us, StrUnit u :=
      ⟨[[92, 117, a, b, c, d]], by simp, by simp, by simpa using hfirst⟩
    split_ifs at h
    · cases h
      exact hone
    · obtain rfl | ⟨u', hu', rfl⟩ := jpSurrogate_sound h
      · exact hone
      · refine ⟨[[92, 117, a, b, c, d], u'], by simp, by simp, ?_⟩
        simp only [List.mem_cons, List.not_mem_nil, or_false]
        rintro x (rfl | rfl)
        · exact hfirst
        · exact hu'
    · cases h
      exact hone

/-- A byte of ASCII that is not special is a unit of its own. -/
theorem strUnit_byte {c : UInt8} (h : ¬c < 0x20) (h' : ¬0x80 ≤ c) (hq : c ≠ 34) (hb : c ≠ 92) :
    StrUnit [c] := by
  obtain ⟨x, hx, henc⟩ := char_of_byte (UInt8.not_le.1 h')
  rw [← henc]
  have hne : ∀ n : UInt8, c ≠ n → x.val.toNat ≠ n.toNat := by
    intro n hn hx'
    exact hn (UInt8.toNat_inj.1 (hx.symm.trans hx'))
  refine .char x ?_ (hne 34 hq) (hne 92 hb)
  rw [hx]
  exact UInt8.le_iff_toNat_le.1 (UInt8.not_lt.1 h)

/-- So is a character beyond ASCII with all its bytes. -/
theorem strUnit_char {x : Char} {b : UInt8} {t : Bytes} (h : utf8EncodeChar x = b :: t)
    (hb : 0x80 ≤ b) : StrUnit (utf8EncodeChar x) := by
  have hx : 0x80 ≤ x.val.toNat := by
    by_contra hlt
    rw [char_ascii (by omega)] at h
    cases h
    rw [UInt8.le_iff_toNat_le, toNat_ofNat_lt (by omega)] at hb
    exact hlt hb
  exact .char x (by omega) (by omega) (by omega)

/-- What one call of `jpUnit` consumes is a unit, or two escapes that make up a pair. -/
theorem jpUnit_sound {c : UInt8} {s u r : Bytes} (hc : c ≠ 34) (h : jpUnit (c :: s) = .ok (u, r)) :
    ∃ us, us ≠ [] ∧ c :: s = us.flatten ++ r ∧ ∀ u ∈ us, StrUnit u := by
  unfold jpUnit at h
  simp only at h
  split_ifs at h with hctl hhigh hback
  · split at h
    · next n hn =>
      cases h
      obtain ⟨x, rest, hx, rfl⟩ := utf8Valid_ok hn
      refine ⟨[utf8EncodeChar x], by simp, ?_, ?_⟩
      · simp only [List.flatten_cons, List.flatten_nil, List.append_nil, hx, List.drop_left]
      · simp only [List.mem_singleton, forall_eq]
        obtain ⟨b, t, hbt⟩ := List.exists_cons_of_length_pos (length_char_pos x)
        rw [hbt, List.cons_append] at hx
        exact strUnit_char hbt ((List.cons.inj hx).1 ▸ hhigh)
    · cases h
  · cases h
    exact ⟨[[c]], by simp, by simp, by simpa using strUnit_byte hctl hhigh hc hback⟩
  · rw [not_not] at hback
    subst hback
    split at h
    · cases h
    · next e rest =>
      split at h
      · next b hb =>
        cases h
        exact ⟨[[92, e]], by simp, by simp, by simpa using .short e ((escape_isSome e).1 ⟨b, hb⟩)⟩
      · split_ifs at h with hu
        rw [not_not] at hu
        subst hu
        exact jpCodePoint_sound h

theorem strUnit_length_pos {u : Bytes} (h : StrUnit u) : 0 < u.length := by
  cases h with
  | char c => exact length_char_pos c
  | short e => simp
  | code a b c d => simp

/-- Every call of `jpUnit` takes bytes, so the loop over a string comes to an end. -/
theorem jpUnit_lt {c : UInt8} {s u r : Bytes} (hc : c ≠ 34) (h : jpUnit (c :: s) = .ok (u, r)) :
    r.length < (c :: s).length := by
  obtain ⟨us, hne, heq, hus⟩ := jpUnit_sound hc h
  obtain ⟨x, us, rfl⟩ := List.exists_cons_of_ne_nil hne
  have hpos := strUnit_length_pos (hus x List.mem_cons_self)
  rw [heq]
  simp only [List.flatten_cons, List.length_append]
  omega

theorem strStep_shrinks (size : ℕ) : Loop.Shrinks (strStep size) fun s => s.rest.length := by
  intro s s' h
  unfold strStep at h
  split at h
  · cases h
  · next c rest hrest =>
    split_ifs at h with hq
    split at h
    · cases h
    · next unit rest' hunit =>
      have hlt := jpUnit_lt hq hunit
      rw [← hrest] at hlt
      split_ifs at h
      · cases h
        exact hlt
      · cases h
        exact hlt

/-- The first byte of an encoded character of a string. -/
theorem char_head {x : Char} (h : 0x20 ≤ x.val.toNat) (hq : x.val.toNat ≠ 34)
    (hb : x.val.toNat ≠ 92) :
    ∃ b t, utf8EncodeChar x = b :: t ∧ ¬b < 0x20 ∧ b ≠ 34 ∧ b ≠ 92 ∧ (0x80 ≤ b ∨ t = []) := by
  rcases Nat.lt_or_ge x.val.toNat 0x80 with hx | hx
  · have hlt : x.val.toNat < 256 := by omega
    have hne : ∀ n : UInt8, x.val.toNat ≠ n.toNat → UInt8.ofNat x.val.toNat ≠ n := by
      intro n hn he
      rw [← UInt8.toNat_inj, toNat_ofNat_lt hlt] at he
      exact hn he
    refine ⟨_, [], char_ascii hx, ?_, hne 34 hq, hne 92 hb, Or.inr rfl⟩
    rw [UInt8.not_lt, UInt8.le_iff_toNat_le, toNat_ofNat_lt hlt]
    exact h
  · obtain ⟨b, t, need, lo, hi, henc, hb', -⟩ := char_follows hx
    have hle : 0x80 ≤ b.toNat := UInt8.le_iff_toNat_le.1 hb'
    refine ⟨b, t, henc, ?_, ?_, ?_, Or.inl hb'⟩
    · rw [UInt8.not_lt, UInt8.le_iff_toNat_le]
      exact le_trans (by decide) hle
    · rintro rfl
      exact absurd hle (by decide)
    · rintro rfl
      exact absurd hle (by decide)

/-- A unit that begins like an escape of four digits is one. -/
theorem strUnit_code {u s : Bytes} (hu : StrUnit u) (h : (u ++ s).take 2 = [92, 117]) :
    ∃ a b c d, u = [92, 117, a, b, c, d] ∧ Hex a ∧ Hex b ∧ Hex c ∧ Hex d := by
  cases hu with
  | char x h₁ h₂ h₃ =>
    obtain ⟨b, t, henc, -, -, hb, -⟩ := char_head h₁ h₂ h₃
    rw [henc, List.cons_append, List.take_succ_cons] at h
    exact absurd (List.cons.inj h).1 hb
  | short e he =>
    simp only [List.cons_append, List.nil_append, List.take_succ_cons, List.take_zero,
      List.cons.injEq, and_true, true_and] at h
    subst h
    exact absurd he (by decide)
  | code a b c d ha hb hc hd => exact ⟨a, b, c, d, rfl, ha, hb, hc, hd⟩

/-- The rest of a string, from the units that are left to its closing quote. -/
def strRest (us : List Bytes) (tail : Bytes) : Bytes := us.flatten ++ 34 :: tail

theorem strRest_cons (u : Bytes) (us : List Bytes) (tail : Bytes) :
    strRest (u :: us) tail = u ++ strRest us tail := by
  simp [strRest]

/-- Behind a high surrogate the next unit is looked at, and taken only when it completes the pair.
-/
theorem jpSurrogate_complete (cp : ℕ) {us : List Bytes} (hus : ∀ u ∈ us, StrUnit u) (tail : Bytes) :
    ∃ b us', jpSurrogate cp (strRest us tail) = .ok (b, strRest us' tail) ∧
      (us' = us ∨ ∃ u, us = u :: us') := by
  unfold jpSurrogate
  split_ifs with hesc
  · cases us with
    | nil =>
      have h := hesc.2
      rw [strRest, List.flatten_nil, List.nil_append, List.take_succ_cons] at h
      exact absurd (List.cons.inj h).1 (by decide)
    | cons u us =>
      rw [strRest_cons] at hesc ⊢
      obtain ⟨a, b, c, d, rfl, ha, hb, hc, hd⟩ := strUnit_code (hus u List.mem_cons_self) hesc.2
      obtain ⟨low, hlow⟩ := jpHex4_complete ha hb hc hd (strRest us tail)
      have hdrop : List.drop 2 ([92, 117, a, b, c, d] ++ strRest us tail)
          = [a, b, c, d] ++ strRest us tail := rfl
      rw [hdrop, hlow]
      simp only
      split_ifs
      · exact ⟨_, us, rfl, Or.inr ⟨_, rfl⟩⟩
      · exact ⟨_, _, by rw [strRest_cons], Or.inl rfl⟩
  · exact ⟨_, us, rfl, Or.inl rfl⟩

/-- **A unit is read whole**; a high surrogate may take the next unit along. -/
theorem jpUnit_complete {u : Bytes} {us : List Bytes} (hu : StrUnit u) (hus : ∀ u ∈ us, StrUnit u)
    (tail : Bytes) :
    ∃ b us', jpUnit (u ++ strRest us tail) = .ok (b, strRest us' tail) ∧
      (us' = us ∨ ∃ u, us = u :: us') := by
  cases hu with
  | char x h₁ h₂ h₃ =>
    obtain ⟨b, t, henc, hctl, -, hback, hend⟩ := char_head h₁ h₂ h₃
    rcases hend with hhigh | rfl
    · have hv := utf8Valid_char x (strRest us tail)
      refine ⟨utf8EncodeChar x, us, ?_, Or.inl rfl⟩
      have hcons : utf8EncodeChar x ++ strRest us tail = b :: (t ++ strRest us tail) := by
        rw [henc, List.cons_append]
      rw [hcons] at hv ⊢
      simp only [jpUnit, if_neg hctl, if_pos hhigh, hv]
      rw [← hcons, List.take_left, List.drop_left]
    · rw [henc]
      by_cases hhigh : 0x80 ≤ b
      · have hv := utf8Valid_char x (strRest us tail)
        rw [henc] at hv
        refine ⟨[b], us, ?_, Or.inl rfl⟩
        rw [List.cons_append, List.nil_append] at hv ⊢
        simp only [jpUnit, if_neg hctl, if_pos hhigh, hv]
        rfl
      · refine ⟨[b], us, ?_, Or.inl rfl⟩
        simp only [List.cons_append, List.nil_append, jpUnit, if_neg hctl, if_neg hhigh, ne_eq, hback,
          not_false_eq_true, if_true]
  | short e he =>
    obtain ⟨b, hb⟩ := (escape_isSome e).2 he
    refine ⟨[b], us, ?_, Or.inl rfl⟩
    have h₁ : ¬(92 : UInt8) < 0x20 := by decide
    have h₂ : ¬(0x80 : UInt8) ≤ 92 := by decide
    simp only [List.cons_append, List.nil_append, jpUnit, if_neg h₁, if_neg h₂, ne_eq,
      not_true_eq_false, if_false, hb]
  | code a b c d ha hb hc hd =>
    obtain ⟨v, hv⟩ := jpHex4_complete ha hb hc hd (strRest us tail)
    have h₁ : ¬(92 : UInt8) < 0x20 := by decide
    have h₂ : ¬(0x80 : UInt8) ≤ 92 := by decide
    have h₃ : escape 117 = none := by decide
    have hunit : jpUnit ([92, 117, a, b, c, d] ++ strRest us tail)
        = jpCodePoint ([a, b, c, d] ++ strRest us tail) := by
      simp only [List.cons_append, List.nil_append, jpUnit, if_neg h₁, if_neg h₂, ne_eq,
        not_true_eq_false, if_false, h₃]
    rw [hunit, jpCodePoint, hv]
    simp only
    split_ifs
    · exact ⟨_, us, rfl, Or.inl rfl⟩
    · exact jpSurrogate_complete v hus tail
    · exact ⟨_, us, rfl, Or.inl rfl⟩

theorem strUnit_head {u s : Bytes} (hu : StrUnit u) : ∃ b t, u ++ s = b :: t ∧ b ≠ 34 := by
  cases hu with
  | char x h₁ h₂ h₃ =>
    obtain ⟨b, t, henc, -, hq, -⟩ := char_head h₁ h₂ h₃
    exact ⟨b, t ++ s, by rw [henc, List.cons_append], hq⟩
  | short e he => exact ⟨92, e :: s, rfl, by decide⟩
  | code a b c d => exact ⟨92, _, rfl, by decide⟩

/-- What the loop has read up to the closing quote is a sequence of units. -/
theorem strLoop_sound {size : ℕ} {s : StrBuf} {res : Option Bytes} {r : Bytes}
    (h : Loop.exec (strStep size) (fun s => s.rest.length) s = some (.ok (res, r))) :
    ∃ us, s.rest = strRest us r ∧ ∀ u ∈ us, StrUnit u := by
  have hall := Loop.exec_induct (strStep_shrinks size)
    (P := fun s x => ∀ res r, x = .ok (res, r) → ∃ us, s.rest = strRest us r ∧ ∀ u ∈ us, StrUnit u)
    ?_ ?_ h
  · exact hall res r rfl
  · intro s x hstep res r hx
    subst hx
    unfold strStep at hstep
    split at hstep
    · cases hstep
    · next c rest hrest =>
      by_cases hq : c = 34
      · rw [if_pos hq] at hstep
        cases hstep
        exact ⟨[], by rw [hrest, hq]; rfl, fun _ hu => absurd hu List.not_mem_nil⟩
      · rw [if_neg hq] at hstep
        split at hstep
        · cases hstep
        · split_ifs at hstep
  · intro s s' x hstep ih res r hx
    obtain ⟨us', hrest', hus'⟩ := ih res r hx
    unfold strStep at hstep
    split at hstep
    · cases hstep
    · next c rest hrest =>
      split_ifs at hstep with hq
      split at hstep
      · cases hstep
      · next unit rest' hunit =>
        have hs' : s'.rest = rest' := by
          split_ifs at hstep <;> cases hstep <;> rfl
        obtain ⟨us, -, heq, hus⟩ := jpUnit_sound hq hunit
        refine ⟨us ++ us', ?_, fun u hu => (List.mem_append.1 hu).elim (hus u) (hus' u)⟩
        rw [hrest, heq, ← hs', hrest', strRest, strRest, List.flatten_append, List.append_assoc]

/-- A sequence of units is read up to its closing quote, however long the buffer is. -/
theorem strLoop_complete (size : ℕ) {us : List Bytes} (hus : ∀ u ∈ us, StrUnit u) (tail : Bytes)
    (out : Bytes) (full : Bool) :
    ∃ res, Loop.exec (strStep size) (fun s => s.rest.length) ⟨out, full, strRest us tail⟩
      = some (.ok (res, tail)) := by
  induction hn : us.length using Nat.strong_induction_on generalizing us out full with
  | h n ih =>
    subst hn
    cases us with
    | nil =>
      refine ⟨if full then none else some out, Loop.exec_inr ?_⟩
      simp only [strStep, strRest, List.flatten_nil, List.nil_append, if_true]
    | cons u us =>
      have hu := hus u List.mem_cons_self
      have hus := fun x hx => hus x (List.mem_cons_of_mem u hx)
      obtain ⟨b, us', hunit, hshort⟩ := jpUnit_complete hu hus tail
      obtain ⟨c, t, hct, hq⟩ := strUnit_head (s := strRest us tail) hu
      have hlt : us'.length < (u :: us).length := by
        rcases hshort with rfl | ⟨x, rfl⟩
        · exact Nat.lt_succ_self _
        · simp
      have hus' : ∀ x ∈ us', StrUnit x := by
        rcases hshort with rfl | ⟨x, rfl⟩
        · exact hus
        · exact fun y hy => hus y (List.mem_cons_of_mem x hy)
      rw [strRest_cons, hct]
      rw [hct] at hunit
      by_cases hfull : full = true ∨ size - out.length < b.length
      · have hstep : strStep size ⟨out, full, c :: t⟩ = .inl ⟨out, true, strRest us' tail⟩ := by
          simp only [strStep, if_neg hq, hunit, if_pos hfull]
        rw [Loop.exec_inl (strStep_shrinks size) hstep]
        exact ih us'.length hlt hus' out true rfl
      · have hstep : strStep size ⟨out, full, c :: t⟩ = .inl ⟨out ++ b, full, strRest us' tail⟩ := by
          simp only [strStep, if_neg hq, hunit, if_neg hfull]
        rw [Loop.exec_inl (strStep_shrinks size) hstep]
        exact ih us'.length hlt hus' (out ++ b) full rfl

/-- An accepted string is one of the grammar, with white space in front. -/
theorem jpStringBuf_sound {size : ℕ} {s r : Bytes} {res : Option Bytes}
    (h : jpStringBuf size s = .ok (res, r)) : ∃ w k, s = w ++ (k ++ r) ∧ Ws w ∧ Str k := by
  obtain ⟨w, hw, hws⟩ := jpWs_sound s
  unfold jpStringBuf at h
  split at h
  · cases h
  · next c rest hrest =>
    split_ifs at h with hq
    rw [ne_eq, not_not] at hq
    obtain ⟨x, hx⟩ := Loop.exec_isSome (strStep_shrinks size) ⟨[], false, rest⟩
    rw [hx, Option.getD_some] at h
    subst h
    obtain ⟨us, hus, hunits⟩ := strLoop_sound hx
    refine ⟨w, 34 :: (us.flatten ++ [34]), ?_, hws, us, rfl, hunits⟩
    rw [hw, hrest, hq]
    simp only at hus
    simp [hus, strRest]

/-- Every string of the grammar is accepted; a buffer that is too short only loses its text. -/
theorem jpStringBuf_complete (size : ℕ) {w k : Bytes} (hw : Ws w) (hk : Str k) (r : Bytes) :
    ∃ res, jpStringBuf size (w ++ (k ++ r)) = .ok (res, r) := by
  obtain ⟨us, rfl, hus⟩ := hk
  obtain ⟨res, hres⟩ := strLoop_complete size hus r [] false
  refine ⟨res, ?_⟩
  have hq : ¬isWs 34 = true := by decide
  have heq : (34 :: (us.flatten ++ [34]) ++ r : Bytes) = 34 :: strRest us r := by
    simp [strRest]
  rw [jpStringBuf, jpWs_append hw, heq, jpWs_cons hq]
  simp only [ne_eq, not_true_eq_false, if_false, hres, Option.getD_some]

theorem jpStringSkip_sound {s r : Bytes} (h : jpStringSkip s = .ok r) :
    ∃ w k, s = w ++ (k ++ r) ∧ Ws w ∧ Str k := by
  unfold jpStringSkip at h
  split at h
  · cases h
  · next res r' hbuf =>
    cases h
    exact jpStringBuf_sound hbuf

theorem jpStringSkip_complete {w k : Bytes} (hw : Ws w) (hk : Str k) (r : Bytes) :
    jpStringSkip (w ++ (k ++ r)) = .ok r := by
  obtain ⟨res, hres⟩ := jpStringBuf_complete 0 hw hk r
  rw [jpStringSkip, hres]

theorem jpByte_eq_some {c : UInt8} {s r : Bytes} : jpByte c s = some r ↔ s = c :: r := by
  cases s with
  | nil => simp [jpByte]
  | cons b s =>
    simp only [jpByte, List.head?_cons, Option.some.injEq, List.tail_cons, List.cons.injEq]
    by_cases h : b = c
    · simp [h]
    · simp [h]

theorem jpByte_cons (c : UInt8) (s : Bytes) : jpByte c (c :: s) = some s := jpByte_eq_some.2 rfl

theorem jpByte_eq_none {c : UInt8} {s : Bytes} : jpByte c s = none ↔ s.head? ≠ some c := by
  unfold jpByte
  split_ifs with h <;> simp [h]

/-- A name of a member and its colon are read together. -/
theorem jpKeySkip_sound {s r : Bytes} (h : jpKeySkip s = .ok r) :
    ∃ w k w', s = w ++ (k ++ (w' ++ 58 :: r)) ∧ Ws w ∧ Str k ∧ Ws w' := by
  unfold jpKeySkip at h
  split at h
  · cases h
  · next rest hstr =>
    split at h
    · next r' hcolon =>
      cases h
      obtain ⟨w, k, rfl, hw, hk⟩ := jpStringSkip_sound hstr
      obtain ⟨w', hw', hws⟩ := jpWs_sound rest
      rw [jpByte_eq_some.1 hcolon] at hw'
      exact ⟨w, k, w', by rw [hw'], hw, hk, hws⟩
    · cases h

theorem jpKeySkip_complete {w k w' : Bytes} (hw : Ws w) (hk : Str k) (hw' : Ws w') (r : Bytes) :
    jpKeySkip (w ++ (k ++ (w' ++ 58 :: r))) = .ok r := by
  have hcolon : ¬isWs 58 = true := by decide
  rw [jpKeySkip, jpStringSkip_complete hw hk]
  simp only [jpWs_append hw', jpWs_cons hcolon, jpByte_cons]

/-! ### Literals -/

/-- A literal is matched by its bytes alone; what follows them is not looked at. -/
theorem jpLiteral_eq_some {lit s r : Bytes} : jpLiteral lit s = some r ↔ s = lit ++ r := by
  unfold jpLiteral
  constructor
  · intro h
    split_ifs at h with hlit
    cases h
    conv_lhs => rw [← List.take_append_drop lit.length s, hlit]
  · rintro rfl
    rw [List.take_left, if_pos rfl, List.drop_left]

theorem jpBool_sound {s r : Bytes} {b : Bool} (h : jpBool s = .ok (b, r)) :
    jpWs s = ascii "true" ++ r ∨ jpWs s = ascii "false" ++ r := by
  unfold jpBool at h
  simp only at h
  split at h
  · next r' hlit =>
    cases h
    exact Or.inl (jpLiteral_eq_some.1 hlit)
  · split at h
    · next r' hlit =>
      cases h
      exact Or.inr (jpLiteral_eq_some.1 hlit)
    · cases h

theorem jpBool_true (r : Bytes) : jpBool (ascii "true" ++ r) = .ok (true, r) := by
  have hws : jpWs (ascii "true" ++ r) = ascii "true" ++ r := rfl
  simp only [jpBool, hws, jpLiteral_eq_some.2 rfl]

theorem jpBool_false (r : Bytes) : jpBool (ascii "false" ++ r) = .ok (false, r) := by
  have hws : jpWs (ascii "false" ++ r) = ascii "false" ++ r := rfl
  have htrue : jpLiteral (ascii "true") (ascii "false" ++ r) = none := by
    rw [Option.eq_none_iff_forall_ne_some]
    intro x hx
    have := jpLiteral_eq_some.1 hx
    simp [ascii] at this
  simp only [jpBool, hws, htrue, jpLiteral_eq_some.2 rfl]

theorem jpNull_eq_some {s r : Bytes} : jpNull s = some r ↔ jpWs s = ascii "null" ++ r :=
  jpLiteral_eq_some

/-! ### Numbers -/

theorem isDigit_iff (c : UInt8) : isDigit c = true ↔ Digit c := by
  simp [isDigit, Digit]

/-- The byte at the front, if there is one, is not a digit. -/
def NoDigit (r : Bytes) : Prop := ∀ c, r.head? = some c → ¬Digit c

theorem jpDigits_sound {s r : Bytes} (h : jpDigits s = .ok r) : ∃ ds, s = ds ++ r ∧ Digits ds := by
  unfold jpDigits at h
  split_ifs at h with hlen
  cases h
  refine ⟨s.takeWhile isDigit, List.takeWhile_append_dropWhile.symm, ?_, fun c hc => ?_⟩
  · exact fun hnil => hlen (by rw [hnil]; rfl)
  · exact (isDigit_iff c).1 (List.mem_takeWhile_imp hc)

/-- Digits are read to the last one. -/
theorem jpDigits_complete {ds r : Bytes} (h : Digits ds) (hr : NoDigit r) :
    jpDigits (ds ++ r) = .ok r := by
  have hds : ∀ c ∈ ds, isDigit c = true := fun c hc => (isDigit_iff c).2 (h.2 c hc)
  have hr₁ : r.takeWhile isDigit = [] ∧ r.dropWhile isDigit = r := by
    cases r with
    | nil => exact ⟨rfl, rfl⟩
    | cons c r =>
      have hc : ¬isDigit c = true := fun hc => hr c rfl ((isDigit_iff c).1 hc)
      exact ⟨List.takeWhile_cons_of_neg hc, List.dropWhile_cons_of_neg hc⟩
  unfold jpDigits
  rw [List.takeWhile_append_of_pos hds, List.dropWhile_append_of_pos hds, hr₁.1, hr₁.2,
    List.append_nil, if_neg (fun h0 => h.1 (List.length_eq_zero_iff.1 h0))]

/-- What follows does not continue a number. -/
def Stop (r : Bytes) : Prop := NoDigit r ∧ ∀ c, r.head? = some c → c ≠ 46 ∧ c ≠ 101 ∧ c ≠ 69

theorem jpFraction_sound {s r : Bytes} (h : jpFraction s = .ok r) : ∃ f, s = f ++ r ∧ Frac f := by
  unfold jpFraction at h
  split at h
  · next rest hdot =>
    obtain ⟨ds, rfl, hds⟩ := jpDigits_sound h
    exact ⟨46 :: ds, by rw [jpByte_eq_some.1 hdot]; rfl, Or.inr ⟨ds, rfl, hds⟩⟩
  · cases h
    exact ⟨[], rfl, Or.inl rfl⟩

/-- A fraction is optional: without a point nothing is read. -/
theorem jpFraction_complete {f r : Bytes} (h : Frac f) (hr : NoDigit r) (hdot : r.head? ≠ some 46) :
    jpFraction (f ++ r) = .ok r := by
  rcases h with rfl | ⟨ds, rfl, hds⟩
  · rw [List.nil_append, jpFraction, jpByte_eq_none.2 hdot]
  · rw [List.cons_append, jpFraction, jpByte_cons]
    exact jpDigits_complete hds hr

theorem jpSign_sound (s : Bytes) :
    ∃ g, s = g ++ jpSign s ∧ (g = [] ∨ g = [43] ∨ g = [45]) := by
  unfold jpSign
  split_ifs with h
  · cases s with
    | nil => simp at h
    | cons g s =>
      simp only [List.head?_cons, Option.some.injEq] at h
      exact ⟨[g], rfl, Or.inr (by simpa using h)⟩
  · exact ⟨[], rfl, Or.inl rfl⟩

theorem jpSign_complete {g ds : Bytes} (hg : g = [] ∨ g = [43] ∨ g = [45]) (hds : Digits ds)
    (r : Bytes) : jpSign (g ++ (ds ++ r)) = ds ++ r := by
  unfold jpSign
  rcases hg with rfl | rfl | rfl
  · obtain ⟨d, ds', rfl⟩ := List.exists_cons_of_ne_nil hds.1
    have hd := hds.2 d List.mem_cons_self
    rw [if_neg, List.nil_append]
    simp only [List.nil_append, List.cons_append, List.head?_cons, Option.some.injEq]
    rintro (rfl | rfl)
    · exact absurd hd (by unfold Digit; decide)
    · exact absurd hd (by unfold Digit; decide)
  · exact if_pos (Or.inl rfl)
  · exact if_pos (Or.inr rfl)

theorem jpExponent_sound {s r : Bytes} (h : jpExponent s = .ok r) :
    ∃ x, s = x ++ r ∧ Exponent x := by
  unfold jpExponent at h
  split_ifs at h with he
  · cases s with
    | nil => simp at he
    | cons e s =>
      simp only [List.head?_cons, Option.some.injEq, List.tail_cons] at he h
      obtain ⟨g, hs, hg⟩ := jpSign_sound s
      obtain ⟨ds, hds, hdigits⟩ := jpDigits_sound h
      refine ⟨e :: (g ++ ds), ?_, Or.inr ⟨e, g, ds, rfl, he, hg, hdigits⟩⟩
      rw [hs, hds, List.cons_append, List.append_assoc]
  · cases h
    exact ⟨[], rfl, Or.inl rfl⟩

/-- An exponent is optional, and its sign as well. -/
theorem jpExponent_complete {x r : Bytes} (h : Exponent x) (hr : Stop r) :
    jpExponent (x ++ r) = .ok r := by
  unfold jpExponent
  rcases h with rfl | ⟨e, sign, ds, rfl, he, hsign, hds⟩
  · rw [List.nil_append, if_neg]
    rintro (h | h)
    · exact (hr.2 _ h).2.1 rfl
    · exact (hr.2 _ h).2.2 rfl
  · rw [List.cons_append, List.append_assoc, if_pos (by simpa using he), List.tail_cons,
      jpSign_complete hsign hds]
    exact jpDigits_complete hds hr.1

/-- What may stand after the integer part of a number. -/
theorem exponent_head {x r : Bytes} (h : Exponent x) (hr : Stop r) :
    NoDigit (x ++ r) ∧ (x ++ r).head? ≠ some 46 := by
  rcases h with rfl | ⟨e, sign, ds, rfl, he, -⟩
  · exact ⟨hr.1, fun h => (hr.2 _ h).1 rfl⟩
  · unfold NoDigit Digit
    simp only [List.cons_append, List.head?_cons, Option.some.injEq]
    rcases he with rfl | rfl
    · exact ⟨by rintro _ rfl; decide, by decide⟩
    · exact ⟨by rintro _ rfl; decide, by decide⟩

/-- What may stand after an integer part keeps it from going on. -/
theorem frac_head {f x r : Bytes} (h : Frac f) (hx : Exponent x) (hr : Stop r) :
    NoDigit (f ++ (x ++ r)) := by
  rcases h with rfl | ⟨ds, rfl, -⟩
  · exact (exponent_head hx hr).1
  · unfold NoDigit Digit
    simp only [List.cons_append, List.head?_cons, Option.some.injEq]
    rintro _ rfl
    decide

theorem jpIntPart_sound {s r : Bytes} (h : jpIntPart s = .ok r) : ∃ i, s = i ++ r ∧ IntPart i := by
  unfold jpIntPart at h
  split at h
  · next s₀ hzero =>
    cases h
    exact ⟨[48], jpByte_eq_some.1 hzero, Or.inl rfl⟩
  · next hzero =>
    obtain ⟨ds, rfl, hds⟩ := jpDigits_sound h
    refine ⟨ds, rfl, Or.inr ⟨hds, fun h0 => jpByte_eq_none.1 hzero ?_⟩⟩
    rw [List.head?_append, h0]
    rfl

theorem jpIntPart_complete {i r : Bytes} (h : IntPart i) (hr : NoDigit r) :
    jpIntPart (i ++ r) = .ok r := by
  unfold jpIntPart
  rcases h with rfl | ⟨hds, hne⟩
  · simp [jpByte]
  · have hzero : jpByte 48 (i ++ r) = none := by
      rw [jpByte_eq_none]
      obtain ⟨d, ds', rfl⟩ := List.exists_cons_of_ne_nil hds.1
      exact hne
    rw [hzero]
    exact jpDigits_complete hds hr

theorem intPart_head {i : Bytes} (h : IntPart i) (s : Bytes) : (i ++ s).head? ≠ some 45 := by
  rcases h with rfl | ⟨hds, -⟩
  · simp
  · obtain ⟨d, ds', rfl⟩ := List.exists_cons_of_ne_nil hds.1
    have hd := hds.2 d List.mem_cons_self
    simp only [List.cons_append, List.head?_cons, ne_eq, Option.some.injEq]
    rintro rfl
    exact absurd hd (by unfold Digit; decide)

theorem bind_eq_ok {α β : Type} {x : Except String α} {f : α → Except String β} {b : β} :
    (x >>= f) = .ok b ↔ ∃ a, x = .ok a ∧ f a = .ok b := by
  cases x with
  | error e => simp [bind, Except.bind]
  | ok a => simp [bind, Except.bind]

/-- An accepted number is one of the grammar. -/
theorem jpNumberSkip_sound {s r : Bytes} (h : jpNumberSkip s = .ok r) :
    ∃ n, s = n ++ r ∧ Number n := by
  obtain ⟨m, hs, hm⟩ : ∃ m, s = m ++ (jpByte 45 s).getD s ∧ (m = [] ∨ m = [45]) := by
    cases hminus : jpByte 45 s with
    | none => exact ⟨[], rfl, Or.inl rfl⟩
    | some s' => exact ⟨[45], by rw [jpByte_eq_some.1 hminus]; rfl, Or.inr rfl⟩
  obtain ⟨s₁, hs₁, hrest⟩ := bind_eq_ok.1 h
  obtain ⟨s₂, hs₂, hs₃⟩ := bind_eq_ok.1 hrest
  obtain ⟨i, hi, hint⟩ := jpIntPart_sound hs₁
  obtain ⟨f, rfl, hf⟩ := jpFraction_sound hs₂
  obtain ⟨x, rfl, hx⟩ := jpExponent_sound hs₃
  refine ⟨m ++ (i ++ (f ++ x)), ?_, m, i, f, x, rfl, hm, hint, hf, hx⟩
  rw [hs, hi]
  simp only [List.append_assoc]

/-- A number of the grammar is accepted when what follows does not continue it. -/
theorem jpNumberSkip_complete {n r : Bytes} (h : Number n) (hr : Stop r) :
    jpNumberSkip (n ++ r) = .ok r := by
  obtain ⟨m, i, f, x, rfl, hm, hi, hf, hx⟩ := h
  have hminus : (jpByte 45 (m ++ (i ++ (f ++ x)) ++ r)).getD (m ++ (i ++ (f ++ x)) ++ r)
      = i ++ (f ++ (x ++ r)) := by
    rcases hm with rfl | rfl
    · simp only [List.nil_append, List.append_assoc]
      rw [jpByte_eq_none.2 (intPart_head hi _), Option.getD_none]
    · simp [jpByte]
  have hex := exponent_head hx hr
  unfold jpNumberSkip
  rw [hminus, bind_eq_ok]
  refine ⟨_, jpIntPart_complete hi (frac_head hf hx hr), ?_⟩
  rw [bind_eq_ok]
  exact ⟨_, jpFraction_complete hf hex.1 hex.2, jpExponent_complete hx hr⟩

end Codec
