import PlacitumNode.Codec.RoundTrip

/-!
# The buffer of a string (`codec/ngx_http_waf_json.c`)

`ngx_http_waf_jp_string` looks for the closing quote, takes as many bytes as lie before it, and
decodes the string into them.  The search passes over the byte after a backslash, the decoder takes
whole characters, escapes and pairs of escapes.

* `jpUnit_scan`, `jpUnit_short`: what the decoder takes hides no quote from the search, and what it
  writes is no longer;
* `strLoop_fits`: along the loop what is written and what is left fit the buffer;
* `string_fits`: the decoder never runs out of the buffer, and ends at the quote of the search.
-/

namespace Codec

open Octets String Utf8 JsonText

/-- `ngx_http_waf_jp_string`, where `mem` says whether the pool has the memory. -/
def jpStringAlloc (mem : Bool) (rest : Bytes) : Except String (Option Bytes × Bytes) :=
  match jpWs rest with
  | [] => .error "expected string"
  | c :: rest =>
    if c ≠ 34 then .error "expected string"
    else match quoteAt false rest with
      | none => .error "unterminated string"
      | some size => if mem then jpStringBuf size (c :: rest) else .error "no memory"

/-! ### The search -/

theorem hex_plain {c : UInt8} (h : Hex c) : c ≠ 34 ∧ c ≠ 92 := by
  constructor <;> rintro rfl <;> exact absurd h (by unfold Hex; decide)

/-- A unit of a string hides no quote. -/
theorem strUnit_scan {u : Bytes} (h : StrUnit u) (rest : Bytes) :
    quoteAt false (u ++ rest) = (quoteAt false rest).map (· + u.length) := by
  cases h with
  | char x hctl hq hb =>
    refine quoteAt_plain (fun b hmem => ?_) rest
    obtain ⟨b', t, henc, -, hq', hb', hhigh | rfl⟩ := char_head hctl hq hb
    · have hx : 0x80 ≤ x.val.toNat := by
        by_contra hlt
        rw [char_ascii (by omega)] at henc
        rw [← (List.cons.inj henc).1, UInt8.le_iff_toNat_le, toNat_ofNat_lt (by omega)] at hhigh
        exact hlt hhigh
      have hhigh' := char_high hx b hmem
      exact ⟨ne_of_high hhigh' (by decide), ne_of_high hhigh' (by decide)⟩
    · rw [henc, List.mem_singleton] at hmem
      exact ⟨hmem ▸ hq', hmem ▸ hb'⟩
  | short e he => exact quoteAt_escape e rest
  | code a b c d ha hb hc hd =>
    have hplain : ∀ x ∈ [117, a, b, c, d].drop 1, x ≠ (34 : UInt8) ∧ x ≠ 92 := by
      simp only [List.drop_succ_cons, List.drop_zero, List.mem_cons, List.not_mem_nil, or_false]
      rintro x (rfl | rfl | rfl | rfl)
      · exact hex_plain ha
      · exact hex_plain hb
      · exact hex_plain hc
      · exact hex_plain hd
    have hdigits := quoteAt_plain hplain rest
    rw [List.drop_succ_cons, List.drop_zero] at hdigits
    rw [List.cons_append, List.cons_append, quoteAt_escape, hdigits, Option.map_map]
    rfl

theorem units_scan {us : List Bytes} (h : ∀ u ∈ us, StrUnit u) (rest : Bytes) :
    quoteAt false (us.flatten ++ rest) = (quoteAt false rest).map (· + us.flatten.length) := by
  induction us with
  | nil => simp
  | cons u us ih =>
    rw [List.flatten_cons, List.append_assoc, strUnit_scan (h u List.mem_cons_self),
      ih fun v hv => h v (List.mem_cons_of_mem u hv), Option.map_map, List.length_append]
    congr 1
    funext k
    simp only [Function.comp_apply]
    omega

/-- The search passes over what the decoder takes. -/
theorem jpUnit_scan {c : UInt8} {s u r : Bytes} (hc : c ≠ 34) (h : jpUnit (c :: s) = .ok (u, r)) :
    ∃ x, c :: s = x ++ r ∧ quoteAt false (c :: s) = (quoteAt false r).map (· + x.length) := by
  obtain ⟨us, -, heq, hus⟩ := jpUnit_sound hc h
  exact ⟨us.flatten, heq, heq ▸ units_scan hus r⟩

/-! ### The length of what is written -/

theorem utf8Encode_length (cp : ℕ) : (utf8Encode cp).length ≤ 4 := by
  unfold utf8Encode
  split_ifs <;> simp

theorem jpHex4_length {s r : Bytes} {v : ℕ} (h : jpHex4 s = .ok (v, r)) :
    r.length + 4 = s.length := by
  obtain ⟨a, b, c, d, rfl, -⟩ := jpHex4_sound h
  simp

theorem jpCodePoint_short {s u r : Bytes} (h : jpCodePoint s = .ok (u, r)) :
    u.length + r.length ≤ s.length := by
  unfold jpCodePoint at h
  split at h
  · cases h
  · next cp s' hcp =>
    have hs := jpHex4_length hcp
    have hone : ∀ v, (utf8Encode v).length + s'.length ≤ s.length := by
      intro v
      have := utf8Encode_length v
      omega
    split_ifs at h
    · cases h
      exact hone _
    · unfold jpSurrogate at h
      split_ifs at h with hesc
      · split at h
        · cases h
        · next low after hlow =>
          have hafter := jpHex4_length hlow
          rw [List.length_drop] at hafter
          have hpair : ∀ v, (utf8Encode v).length + after.length ≤ s.length := by
            intro v
            have := utf8Encode_length v
            omega
          split_ifs at h
          · obtain ⟨rfl, rfl⟩ := Prod.mk.inj (Except.ok.inj h)
            exact hpair _
          · cases h
            exact hone _
      · cases h
        exact hone _
    · cases h
      exact hone _

/-- What one unit is decoded to is no longer than what it takes. -/
theorem jpUnit_short {s u r : Bytes} (h : jpUnit s = .ok (u, r)) : u.length + r.length ≤ s.length := by
  unfold jpUnit at h
  split at h
  · cases h
  · next c s =>
    split_ifs at h with hctl hhigh hback
    · split at h
      · cases h
        rw [← List.length_append, List.take_append_drop]
      · cases h
    · cases h
      simp [Nat.add_comm]
    · split at h
      · cases h
      · next e rest =>
        split at h
        · cases h
          simp only [List.length_cons, List.length_nil]
          omega
        · split_ifs at h
          have := jpCodePoint_short h
          simp only [List.length_cons]
          omega

/-! ### The loop -/

/-- What is written and what lies before the closing quote fit the buffer. -/
structure Fits (size : ℕ) (s : StrBuf) (k : ℕ) : Prop where
  quote : quoteAt false s.rest = some k
  whole : s.full = false
  room : s.out.length + k ≤ size

/-- One unit is taken off what lies before the quote, and it fits. -/
theorem fits_step {size k : ℕ} {s s' : StrBuf} (h : strStep size s = .inl s') (hf : Fits size s k) :
    ∃ k' x, Fits size s' k' ∧ s.rest = x ++ s'.rest ∧ k = k' + x.length := by
  unfold strStep at h
  split at h
  · cases h
  · next c rest hrest =>
    split_ifs at h with hq
    split at h
    · cases h
    · next unit rest' hunit =>
      obtain ⟨x, hx, hscan⟩ := jpUnit_scan hq hunit
      have hshort := jpUnit_short hunit
      have hquote := hf.quote
      rw [hrest, hscan, Option.map_eq_some_iff] at hquote
      obtain ⟨k', hk', rfl⟩ := hquote
      rw [hx, List.length_append] at hshort
      have hroom := hf.room
      have hfit : ¬(s.full = true ∨ size - s.out.length < unit.length) := by
        rw [hf.whole]
        simp only [Bool.false_eq_true, false_or, not_lt]
        omega
      rw [if_neg hfit] at h
      cases h
      refine ⟨k', x, ⟨hk', hf.whole, ?_⟩, hrest.trans hx, rfl⟩
      rw [List.length_append]
      omega

/-- The loop ends at the quote of the search, with all it decoded in the buffer. -/
theorem strLoop_fits {size k : ℕ} {s : StrBuf} {res : Option Bytes} {r : Bytes}
    (h : Loop.exec (strStep size) (fun s => s.rest.length) s = some (.ok (res, r)))
    (hf : Fits size s k) : (∃ out, res = some out ∧ out.length ≤ size) ∧ s.rest.drop k = 34 :: r := by
  have hall := Loop.exec_induct (strStep_shrinks size)
    (P := fun s x => ∀ k res r, Fits size s k → x = .ok (res, r) →
      (∃ out, res = some out ∧ out.length ≤ size) ∧ s.rest.drop k = 34 :: r) ?_ ?_ h
  · exact hall k res r hf rfl
  · intro s x hstep k res r hf hx
    subst hx
    unfold strStep at hstep
    split at hstep
    · cases hstep
    · next c rest hrest =>
      by_cases hq : c = 34
      · rw [if_pos hq, hf.whole] at hstep
        cases hstep
        have hquote := hf.quote
        rw [hrest, quoteAt, if_pos hq] at hquote
        obtain rfl := Option.some.inj hquote
        exact ⟨⟨s.out, rfl, hf.room⟩, by rw [hrest, hq, List.drop_zero]⟩
      · rw [if_neg hq] at hstep
        split at hstep
        · cases hstep
        · split_ifs at hstep
  · intro s s' x hstep ih k res r hf hx
    obtain ⟨k', y, hf', hrest, rfl⟩ := fits_step hstep hf
    obtain ⟨hout, hdrop⟩ := ih k' res r hf' hx
    refine ⟨hout, ?_⟩
    rw [hrest, Nat.add_comm, List.drop_append, List.drop_of_length_le (by omega), List.nil_append,
      Nat.add_sub_cancel_left]
    exact hdrop

/-- **A string fits the buffer that the search sizes.** For every input and whether or not there is
memory, the call fails or returns all that it decoded; then it has stopped right after the quote that
the search has found. -/
theorem string_fits (mem : Bool) (rest : Bytes) :
    (∃ error, jpStringAlloc mem rest = .error error) ∨
      ∃ body size out after, jpWs rest = 34 :: body ∧ quoteAt false body = some size ∧
        jpStringAlloc mem rest = .ok (some out, after) ∧ out.length ≤ size ∧
        body = body.take size ++ 34 :: after := by
  cases hres : jpStringAlloc mem rest with
  | error error => exact .inl ⟨error, rfl⟩
  | ok res =>
    obtain ⟨res, after⟩ := res
    refine .inr ?_
    unfold jpStringAlloc at hres
    split at hres
    · cases hres
    · next c body hbody =>
      by_cases hq : c = 34
      swap
      · rw [if_pos hq] at hres
        cases hres
      subst hq
      rw [if_neg (not_not.2 rfl)] at hres
      split at hres
      · cases hres
      · next size hsize =>
        split_ifs at hres
        have hws : jpWs (34 :: body) = 34 :: body := jpWs_cons (by decide) body
        rw [jpStringBuf, hws] at hres
        simp only [ne_eq, not_true_eq_false, if_false] at hres
        obtain ⟨x, hx⟩ := Loop.exec_isSome (strStep_shrinks size) ⟨[], false, body⟩
        rw [hx, Option.getD_some] at hres
        subst hres
        obtain ⟨⟨out, rfl, hout⟩, hdrop⟩ := strLoop_fits hx ⟨hsize, rfl, by simp⟩
        refine ⟨body, size, out, after, hbody, hsize, rfl, hout, ?_⟩
        rw [← hdrop, List.take_append_drop]

end Codec
