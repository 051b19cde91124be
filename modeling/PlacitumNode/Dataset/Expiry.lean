import PlacitumNode.Dataset.Ban
import PlacitumNode.Dataset.Packages

/-!
# The expiry of a record

A record of a package carries its end on the wall clock, in signed milliseconds, with zero for never.
`ngx_http_waf_ds_expires` carries it over to the monotonic clock, whose words wrap around and where zero
again means never.

* `dsExpires_cast`: the stored word as an integer;
* `lasts_after`: what a stored word means a while later;
* `KeepsExpiry`, `ExpiryFits`: what the change of clocks should preserve, and when it does;
* `package_expiry_iff`: it does exactly then.
-/

namespace Dataset

open Octets Machine SearchTree Run

/-! ### The stored word -/

theorem signed_add_mul (x k : ℤ) : signed (x + 2 ^ 64 * k) = signed x := by
  unfold signed
  have h := Int.add_mul_bmod_self_left x (2 ^ 64) k
  push_cast at h
  exact h

/-- The word that is stored for a finite expiry, up to a multiple of the clock's range. -/
theorem dsExpires_cast {w : World} {exp : ℤ} (h0 : exp ≠ 0) :
    dsExpires w exp < 2 ^ 64 ∧ ∃ k : ℤ, (dsExpires w exp : ℤ) =
      w.now + (if signed (exp - w.nowMs) ≤ 0 then -1 else signed (exp - w.nowMs)) + 2 ^ 64 * k := by
  unfold dsExpires
  rw [if_neg h0]
  simp only
  split
  · have hmod := Int.emod_nonneg ((w.now : ℤ) - 1) (b := 2 ^ 64) (by norm_num)
    have hlt := Int.emod_lt_of_pos ((w.now : ℤ) - 1) (b := 2 ^ 64) (by norm_num)
    have hdiv := Int.emod_add_mul_ediv ((w.now : ℤ) - 1) (2 ^ 64)
    rw [show ((w.now : ℤ) - 1).emod (2 ^ 64) = ((w.now : ℤ) - 1) % 2 ^ 64 from rfl]
    refine ⟨by omega, -(((w.now : ℤ) - 1) / 2 ^ 64), ?_⟩
    rw [Int.toNat_of_nonneg hmod]
    omega
  · next hleft =>
    have hdiv := Nat.mod_add_div (w.now + (signed (exp - w.nowMs)).toNat) (2 ^ 64)
    refine ⟨Nat.mod_lt _ (by norm_num),
      -(((w.now + (signed (exp - w.nowMs)).toNat) / 2 ^ 64 : ℕ) : ℤ), ?_⟩
    omega

/-- **A stored expiry a while later.**  The word of a finite expiry that is not zero lasts for what is
left of it. -/
theorem lasts_after {w : World} {exp : ℤ} (h0 : exp ≠ 0) (hne : dsExpires w exp ≠ 0) {ln : LiveNode}
    (hln : ln.expires = dsExpires w exp) {d : ℕ} (hd : d < 2 ^ 62) :
    ln.lasts ((w.now + d) % 2 ^ 64) = true ↔
      0 < signed (exp - w.nowMs) ∧ (d : ℤ) ≤ signed (exp - w.nowMs) := by
  obtain ⟨-, k, hk⟩ := dsExpires_cast (w := w) h0
  have hlt := signed_lt (exp - w.nowMs)
  rw [LiveNode.lasts, hln, Bool.or_eq_true, beq_iff_eq, decide_eq_true_eq, or_iff_right hne,
    signed_sub_mod, hk]
  have hdiff : ∀ x : ℤ, (w.now : ℤ) + x + 2 ^ 64 * k - ((w.now + d : ℕ) : ℤ) =
      x - d + 2 ^ 64 * k := by
    intro x
    push_cast
    ring
  rw [hdiff, signed_add_mul]
  split
  · rw [signed_eq_self (by omega) (by omega)]
    omega
  · rw [signed_eq_self (by omega) (by omega)]
    omega

/-! ### What is preserved -/

/-- The entry is a hit as long as the record says, and a finite expiry is not stored as never. -/
def KeepsExpiry (crc : Bytes → ℕ) (slot : Slot) (key : Bytes) (w : World) (exp : ℤ) : Prop :=
  (∀ d < 2 ^ 62, liveHit crc slot key ((w.now + d) % 2 ^ 64) = true ↔
    exp = 0 ∨ 0 < exp - w.nowMs ∧ (d : ℤ) ≤ exp - w.nowMs) ∧
  (exp ≠ 0 → dsExpires w exp ≠ 0)

/-- The time that is left fits a signed word, and the word that is stored for it is not zero: an
expired record is not applied at the time 1, and no record ends when the clock wraps around. -/
def ExpiryFits (w : World) (exp : ℤ) : Prop :=
  exp = 0 ∨ -2 ^ 63 ≤ exp - w.nowMs ∧ exp - w.nowMs < 2 ^ 63 ∧ (exp ≤ w.nowMs → w.now ≠ 1) ∧
    (w.nowMs < exp → (w.now : ℤ) + (exp - w.nowMs) ≠ 2 ^ 64)

/-- When the word of a finite expiry is not zero. -/
theorem dsExpires_ne_zero {w : World} {exp : ℤ} (hnow : w.now < 2 ^ 64) (h0 : exp ≠ 0) :
    dsExpires w exp ≠ 0 ↔ if signed (exp - w.nowMs) ≤ 0 then w.now ≠ 1
      else (w.now : ℤ) + signed (exp - w.nowMs) ≠ 2 ^ 64 := by
  obtain ⟨hword, k, hk⟩ := dsExpires_cast (w := w) h0
  have hlt := signed_lt (exp - w.nowMs)
  split
  · next hleft =>
    rw [if_pos hleft] at hk
    omega
  · next hleft =>
    rw [if_neg hleft] at hk
    omega

/-- The time that is left, as the source computes it, when it does not fit. -/
theorem signed_wraps {x : ℤ} (hlow : -2 ^ 64 < x) (hhigh : x < 2 ^ 64) :
    (x < -2 ^ 63 → 0 < signed x) ∧ (2 ^ 63 ≤ x → signed x ≤ 0) := by
  constructor
  · intro h
    have hs := signed_add_mul x 1
    rw [← hs, signed_eq_self (by omega) (by omega)]
    omega
  · intro h
    have hs := signed_add_mul x (-1)
    rw [← hs, signed_eq_self (by omega) (by omega)]
    omega

section

variable {crc : Bytes → ℕ} {slot : Slot} {key : Bytes} {w : World} {exp : ℤ}

theorem liveHit_stored (hpos : key.length ≠ 0)
    (hfind : (slot.find crc key).map LiveNode.expires = some (dsExpires w exp)) (t : ℕ) :
    liveHit crc slot key t = true ↔ LiveNode.lasts ⟨0, [], 0, dsExpires w exp, 0⟩ t = true := by
  obtain ⟨ln, hln, hexp⟩ := Option.map_eq_some_iff.1 hfind
  rw [liveHit_iff, hln]
  simp [hpos, LiveNode.lasts, hexp]

/-- An entry that holds the stored word keeps the expiry exactly when it fits. -/
theorem keepsExpiry_iff (hpos : key.length ≠ 0)
    (hfind : (slot.find crc key).map LiveNode.expires = some (dsExpires w exp))
    (hnow : w.now < 2 ^ 64) (hwall : -2 ^ 63 ≤ w.nowMs ∧ w.nowMs < 2 ^ 63)
    (hexp : -2 ^ 63 ≤ exp ∧ exp < 2 ^ 63) : KeepsExpiry crc slot key w exp ↔ ExpiryFits w exp := by
  have hhit := liveHit_stored hpos hfind
  unfold KeepsExpiry ExpiryFits
  by_cases h0 : exp = 0
  · have hall : ∀ t, liveHit crc slot key t = true := by
      intro t
      rw [hhit]
      simp [LiveNode.lasts, dsExpires, h0]
    simp [h0, hall]
  have hnz := dsExpires_ne_zero hnow h0
  obtain ⟨hlow, hhigh⟩ := signed_wraps (x := exp - w.nowMs) (by omega) (by omega)
  rw [or_iff_right h0]
  constructor
  · rintro ⟨hkeep, hne⟩
    have hlasts : LiveNode.lasts ⟨0, [], 0, dsExpires w exp, 0⟩ ((w.now + 0) % 2 ^ 64) = true ↔ _ :=
      lasts_after h0 (hne h0) rfl (by norm_num)
    have hzero := (hkeep 0 (by norm_num)).symm.trans ((hhit _).trans hlasts)
    have hword := hnz.1 (hne h0)
    by_cases hfit : -2 ^ 63 ≤ exp - w.nowMs ∧ exp - w.nowMs < 2 ^ 63
    · rw [signed_eq_self hfit.1 hfit.2] at hword
      refine ⟨hfit.1, hfit.2, fun hle => ?_, fun hlt => ?_⟩
      · rwa [if_pos (by omega)] at hword
      · rwa [if_neg (by omega)] at hword
    · exfalso
      push_cast at hzero
      omega
  · rintro ⟨hlow', hhigh', hone, hwrap⟩
    have hs := signed_eq_self hlow' hhigh'
    have hne : dsExpires w exp ≠ 0 := by
      rw [hnz, hs]
      split
      · exact hone (by omega)
      · exact hwrap (by omega)
    refine ⟨fun d hd => ?_, fun _ => hne⟩
    rw [hhit, lasts_after h0 hne rfl hd, hs, or_iff_right h0]

end

/-- **The change of clocks.**  A record that is stored, in any state of the overlay, keeps its expiry
exactly when the time that is left fits and is not stored as never. -/
theorem package_expiry_iff (crc : Bytes → ℕ) (bal : Balance LiveNode.id) (slot : Slot)
    (ops : List LiveOp) (w : World) (key : Bytes) (exp : ℤ) (h : UInt64) (gen : ℕ)
    (room : Bool × Bool) (hnow : w.now < 2 ^ 64) (hwall : -2 ^ 63 ≤ w.nowMs ∧ w.nowMs < 2 ^ 63)
    (hexp : -2 ^ 63 ≤ exp ∧ exp < 2 ^ 63)
    (hs : Stored h (livePut crc bal (runFrom (liveStep crc bal) slot.bare ops) key (dsExpires w exp) h
      gen room).1) :
    KeepsExpiry crc (livePut crc bal (runFrom (liveStep crc bal) slot.bare ops) key (dsExpires w exp) h
      gen room).2 key w exp ↔ ExpiryFits w exp := by
  have hx : Exact crc (runFrom (liveStep crc bal) slot.bare ops) :=
    invariant_always (fun s op (hs : Exact crc s) => exact_liveStep hs op) ops rfl
  have hself : ((livePut crc bal (runFrom (liveStep crc bal) slot.bare ops) key (dsExpires w exp) h gen
      room).2.find crc key).map LiveNode.expires = _ := find_livePut_self hx
  rw [if_pos hs] at hself
  have hpos : key.length ≠ 0 := by
    intro h0
    simp [livePut, h0, Stored] at hs
  exact keepsExpiry_iff hpos hself hnow hwall hexp

/-- The wall clock of a summer day and a node that is up for an hour. -/
def summerDay : World := ⟨3600000, 1750000000000, fun _ => (true, true)⟩

/-- A record with the smallest expiry there is: the time that is left wraps around, and the record, long
expired, is a hit. -/
theorem oldest_record_hits :
    let slot := (livePut Rate.crc32 (Balance.plain LiveNode.id)
      ⟨.string, none, 0, 7, 1, List.replicate 16 0, 0, false, false⟩ [1]
      (dsExpires summerDay (-2 ^ 63)) 5 1 (true, true)).2
    liveHit Rate.crc32 slot [1] (summerDay.now + 1000) = true ∧
      ¬ KeepsExpiry Rate.crc32 slot [1] summerDay (-2 ^ 63) := by
  intro slot
  have hhit : liveHit Rate.crc32 slot [1] (summerDay.now + 1000) = true := by decide +kernel
  refine ⟨hhit, fun hk => ?_⟩
  have h := (hk.1 1000 (by norm_num)).1 hhit
  revert h
  decide

/-- A record that ends in a minute. -/
theorem package_expiry_minute :
    KeepsExpiry Rate.crc32 (livePut Rate.crc32 (Balance.plain LiveNode.id)
      (runFrom (liveStep Rate.crc32 (Balance.plain LiveNode.id))
        (Slot.bare ⟨.string, none, 0, 7, 1, List.replicate 16 0, 0, false, false⟩) []) [1]
      (dsExpires summerDay 1750000060000) 5 1 (true, true)).2 [1] summerDay 1750000060000 :=
  (package_expiry_iff Rate.crc32 (Balance.plain LiveNode.id) _ [] summerDay [1] 1750000060000 5 1
    (true, true) (by decide) (by decide) (by decide) (by decide +kernel)).2
    (.inr ⟨by decide, by decide, by decide, by decide⟩)

end Dataset
