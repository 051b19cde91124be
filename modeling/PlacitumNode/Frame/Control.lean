import PlacitumNode.Frame.Direction
import PlacitumNode.Lib.Numerals

/-!
# The rate of control frames (`stream/ngx_http_waf_frame.c`, `core/ngx_http_waf_directives.c`)

`waf_frame_control_rate` allows so many pings and pongs a second or a minute in each direction.  The
tokens are refilled by the time that has passed, a thousand for each frame and never more than the
rate.

* `frameControlRate`: the directive;
* `ctrlRun`: the decisions about the control frames of a direction;
* `window_le`: no window admits more than the rate;
* `rateKept_iff`: the rates at which frames that keep their distance are let through.
-/

namespace Frames

open Octets Numerals Machine

/-- `ngx_http_waf_frame_control_rate`: thousandths of a frame a second, or the error. -/
def frameControlRate (current : Option ℕ) (arg : Bytes) : Except Bytes ℕ :=
  if current.isSome then .error (ascii "is duplicate")
  else if arg = ascii "off" then .ok 0
  else
    let digits := arg.take (arg.length - 3)
    let unit := arg.drop (arg.length - 3)
    let scaled (scale : ℕ) : Except Bytes ℕ :=
      match atoi digits with
      | none => .error (ascii "waf_frame_control_rate: invalid rate \"" ++ arg ++ ascii "\"")
      | some n =>
        if n ≤ 0 then
          .error (ascii "waf_frame_control_rate: invalid rate \"" ++ arg ++ ascii "\"")
        else if n * 1000 % 2 ^ 64 / scale = 0 then
          .error (ascii "waf_frame_control_rate: \"" ++ arg ++ ascii "\" rounds down to zero")
        else .ok (n * 1000 % 2 ^ 64 / scale)
    if 3 < arg.length ∧ unit = ascii "r/s" then scaled 1
    else if 3 < arg.length ∧ unit = ascii "r/m" then scaled 60
    else
      .error (ascii "waf_frame_control_rate: expected <n>r/s, <n>r/m or off, got \"" ++ arg ++
        ascii "\"")

/-- The pings and pongs of a direction, each at its time, and whether it is let through. -/
def ctrlRun (cf : Conf) : Dir → List ℕ → List (ℕ × Bool)
  | _, [] => []
  | d, now :: ts => (now, (ctrlAllowed cf now d).1) :: ctrlRun cf (ctrlAllowed cf now d).2 ts

/-- The frames let through in the `T` milliseconds from `s` on. -/
def passedIn (s T : ℕ) (run : List (ℕ × Bool)) : ℕ :=
  run.countP fun x => x.2 && s ≤ x.1 && x.1 ≤ s + T

/-- The times of a positive clock that never goes back, and for which the rate does not overflow. -/
structure Clock (rate : ℕ) (ts : List ℕ) : Prop where
  pos : ∀ t ∈ ts, 0 < t
  mono : ts.Pairwise (· ≤ ·)
  small : ts.Pairwise fun t u => rate * (u - t) < 2 ^ 64

/-- The limit admits the rate and no more. -/
structure RateKept (cf : Conf) (d : Dir) : Prop where
  window : ∀ ts, Clock cf.frameControlRate ts → ∀ s T,
    1000 * passedIn s T (ctrlRun cf d ts) ≤ cf.frameControlRate + cf.frameControlRate * T / 1000
  spaced : ∀ ts before t u after, Clock cf.frameControlRate ts → ts = before ++ t :: u :: after →
    t + (1000000 + (cf.frameControlRate - 1)) / cf.frameControlRate ≤ u →
    (ctrlRun cf d ts)[before.length + 1]? = some (u, true)

/-- At least a frame a second, and so few that adding tokens never overflows. -/
def Steady (rate : ℕ) : Prop := 1000 ≤ rate ∧ rate + rate / 1000 < 2 ^ 64 + 1000

/-! ### One frame -/

variable {cf : Conf} {d : Dir} {rate now : ℕ}

theorem refill_first (rate now : ℕ) (h : d.ctrlLast = 0) :
    (ctrlRefill rate now d).ctrlTokens = rate ∧ (ctrlRefill rate now d).ctrlLast = now := by
  rw [ctrlRefill, if_pos h]
  exact ⟨rfl, rfl⟩

/-- Tokens are added for the time that has passed, and the time of the refill moves with them. -/
theorem refill_later (rate : ℕ) (h : d.ctrlLast ≠ 0) (hle : d.ctrlLast ≤ now) :
    ((ctrlRefill rate now d).ctrlTokens ≤ d.ctrlTokens + rate * (now - d.ctrlLast) / 1000 ∧
      (ctrlRefill rate now d).ctrlLast = now) ∨
    ((ctrlRefill rate now d).ctrlTokens = d.ctrlTokens ∧
      (ctrlRefill rate now d).ctrlLast = d.ctrlLast) := by
  rw [ctrlRefill, if_neg h]
  simp only
  have hadded : (if 0 < signed (now - d.ctrlLast) then
      perMille rate (signed (now - d.ctrlLast)).toNat else 0) ≤
      rate * (now - d.ctrlLast) / 1000 := by
    have hms := signed_le (x := (now : ℤ) - d.ctrlLast) (by omega)
    split_ifs
    · have hle := perMille_mul_le rate (signed (now - d.ctrlLast)).toNat
      have hmul := Nat.mul_le_mul_left rate
        (show (signed (now - d.ctrlLast)).toNat ≤ now - d.ctrlLast by omega)
      omega
    · exact Nat.zero_le _
  generalize (if 0 < signed (now - d.ctrlLast) then
      perMille rate (signed (now - d.ctrlLast)).toNat else 0) = add at hadded ⊢
  split_ifs
  · have hmod := Nat.mod_le (d.ctrlTokens + add) (2 ^ 64)
    exact .inl ⟨le_trans (min_le_left _ _) (by omega), rfl⟩
  · exact .inr ⟨rfl, rfl⟩

/-- What is added when nothing overflows. -/
theorem refill_exact (now : ℕ) (h : d.ctrlLast ≠ 0) (hrate : 1000 ≤ rate) (hlt : d.ctrlLast < now)
    (hsmall : rate * (now - d.ctrlLast) < 2 ^ 64) :
    (ctrlRefill rate now d).ctrlTokens =
        min ((d.ctrlTokens + rate * (now - d.ctrlLast) / 1000) % 2 ^ 64) rate ∧
      (ctrlRefill rate now d).ctrlLast = now := by
  have hms : 1000 * (now - d.ctrlLast) < 2 ^ 64 :=
    lt_of_le_of_lt (Nat.mul_le_mul_right _ hrate) hsmall
  have hsigned : signed ((now : ℤ) - d.ctrlLast) = now - d.ctrlLast :=
    signed_eq_self (by omega) (by omega)
  have hnat : ((now : ℤ) - d.ctrlLast).toNat = now - d.ctrlLast := by omega
  have hone : 1000 * 1 ≤ rate * (now - d.ctrlLast) := Nat.mul_le_mul hrate (by omega)
  have hadd : rate * (now - d.ctrlLast) / 1000 ≠ 0 := by omega
  rw [ctrlRefill, if_neg h]
  have hpos : 0 < (now : ℤ) - d.ctrlLast := by omega
  simp only [hsigned, hnat, perMille, Nat.mod_eq_of_lt hsmall, hpos, if_true]
  rw [if_pos hadd]
  exact ⟨rfl, rfl⟩

theorem refill_le (now : ℕ) (h : d.ctrlLast = 0 ∨ d.ctrlTokens ≤ rate) :
    (ctrlRefill rate now d).ctrlTokens ≤ rate := by
  unfold ctrlRefill
  split_ifs with h0
  · exact le_rfl
  · have hle := h.resolve_left h0
    simp only
    generalize (if 0 < signed (now - d.ctrlLast) then
      perMille rate (signed (now - d.ctrlLast)).toNat else 0) = add
    split_ifs
    · exact min_le_right _ _
    · exact hle

theorem allowed_cases (hr : cf.frameControlRate ≠ 0) (now : ℕ) (d : Dir) :
    let r := ctrlRefill cf.frameControlRate now d
    ((ctrlAllowed cf now d).1 = true ∧ (ctrlAllowed cf now d).2.ctrlTokens + 1000 = r.ctrlTokens ∧
      (ctrlAllowed cf now d).2.ctrlLast = r.ctrlLast) ∨
    ((ctrlAllowed cf now d).1 = false ∧ r.ctrlTokens < 1000 ∧
      (ctrlAllowed cf now d).2.ctrlTokens = r.ctrlTokens ∧
      (ctrlAllowed cf now d).2.ctrlLast = r.ctrlLast) := by
  rw [ctrlAllowed, if_neg hr]
  generalize ctrlRefill cf.frameControlRate now d = r
  simp only [ctrlTake]
  split_ifs with h
  · exact .inl ⟨rfl, Nat.sub_add_cancel h, rfl⟩
  · exact .inr ⟨rfl, Nat.lt_of_not_le h, rfl, rfl⟩

/-! ### A rate below a frame a second -/

/-- The bucket never holds the thousand that a frame takes. -/
theorem never_passed (hr : cf.frameControlRate ≠ 0) (hlow : cf.frameControlRate < 1000)
    (h : d.ctrlLast = 0 ∨ d.ctrlTokens ≤ cf.frameControlRate) (ts : List ℕ) :
    ∀ x ∈ ctrlRun cf d ts, x.2 = false := by
  induction ts generalizing d with
  | nil => simp [ctrlRun]
  | cons now ts ih =>
    have hle := refill_le now h
    rcases allowed_cases hr now d with ⟨-, htok, -⟩ | ⟨hno, -, htok, -⟩
    · omega
    · intro x hx
      rw [ctrlRun, List.mem_cons] at hx
      rcases hx with rfl | hx
      · exact hno
      · exact ih (.inr (by omega)) x hx

/-! ### The window -/

variable {s T : ℕ}

theorem passedIn_cons (x : ℕ × Bool) (run : List (ℕ × Bool)) : passedIn s T (x :: run) =
    passedIn s T run + if x.2 = true ∧ s ≤ x.1 ∧ x.1 ≤ s + T then 1 else 0 := by
  rw [passedIn, List.countP_cons, passedIn]
  simp [and_assoc]

theorem passedIn_late {ts : List ℕ} (h : ∀ t ∈ ts, s + T < t) :
    passedIn s T (ctrlRun cf d ts) = 0 := by
  induction ts generalizing d with
  | nil => rfl
  | cons now ts ih =>
    have hnow := h now List.mem_cons_self
    rw [ctrlRun, passedIn_cons, ih fun t ht => h t (List.mem_cons_of_mem _ ht),
      if_neg fun hin => absurd hin.2.2 (by simp only; omega)]

theorem refilled_le (rate : ℕ) {a b c : ℕ} (hab : a ≤ b) (hbc : b ≤ c) :
    rate * (b - a) / 1000 + rate * (c - b) / 1000 ≤ rate * (c - a) / 1000 := by
  have hsum : rate * (b - a) + rate * (c - b) = rate * (c - a) := by
    rw [← Nat.mul_add]
    congr 1
    omega
  rw [← hsum]
  exact Nat.div_add_div_le_add_div

/-- From a refill on, the frames cost the tokens that are there and those that are added. -/
theorem passedIn_le (hr : cf.frameControlRate ≠ 0) (hlast : d.ctrlLast ≠ 0)
    (hend : d.ctrlLast ≤ s + T) {ts : List ℕ} (hmono : ts.Pairwise (· ≤ ·))
    (hge : ∀ t ∈ ts, d.ctrlLast ≤ t) : 1000 * passedIn s T (ctrlRun cf d ts) ≤
      d.ctrlTokens + cf.frameControlRate * (s + T - d.ctrlLast) / 1000 := by
  induction ts generalizing d with
  | nil => simp [ctrlRun, passedIn]
  | cons now ts ih =>
    obtain ⟨hnow, hmono⟩ := List.pairwise_cons.mp hmono
    have hle := hge now List.mem_cons_self
    by_cases hin : now ≤ s + T
    · have hrefill := refill_later cf.frameControlRate hlast hle
      have hcost : ∀ d' : Dir, d'.ctrlLast = now ∨ d'.ctrlLast = d.ctrlLast →
          1000 * passedIn s T (ctrlRun cf d' ts) ≤
            d'.ctrlTokens + cf.frameControlRate * (s + T - d'.ctrlLast) / 1000 := by
        rintro d' (h | h)
        · exact ih (by omega) (by omega) hmono fun t ht => h ▸ hnow t ht
        · exact ih (by omega) (by omega) hmono fun t ht => by
            have := hnow t ht
            omega
      have hsplit := refilled_le cf.frameControlRate hle hin
      rw [ctrlRun, passedIn_cons]
      rcases allowed_cases hr now d with ⟨-, htok, hl⟩ | ⟨hno, -, htok, hl⟩
      · have hone : (if (ctrlAllowed cf now d).1 = true ∧ s ≤ now ∧ now ≤ s + T then 1 else 0) ≤ 1 :=
          ite_le_one le_rfl (Nat.zero_le _)
        rcases hrefill with ⟨ht, hlast'⟩ | ⟨ht, hlast'⟩
        · have hc := hcost _ (.inl (hl.trans hlast'))
          rw [hl, hlast'] at hc
          simp only
          omega
        · have hc := hcost _ (.inr (hl.trans hlast'))
          rw [hl, hlast'] at hc
          simp only
          omega
      · rw [if_neg fun h => by simp [hno] at h]
        rcases hrefill with ⟨ht, hlast'⟩ | ⟨ht, hlast'⟩
        · have hc := hcost _ (.inl (hl.trans hlast'))
          rw [hl, hlast'] at hc
          omega
        · have hc := hcost _ (.inr (hl.trans hlast'))
          rw [hl, hlast'] at hc
          omega
    · have hzero : passedIn s T (ctrlRun cf d (now :: ts)) = 0 := by
        refine passedIn_late fun t ht => ?_
        rcases List.mem_cons.mp ht with rfl | ht
        · omega
        · have := hnow t ht
          omega
      rw [hzero]
      exact Nat.zero_le _

/-- The direction has had no control frame yet, or has no more tokens than the rate and is behind the
times that come. -/
def Ready (rate : ℕ) (d : Dir) (ts : List ℕ) : Prop :=
  d.ctrlLast = 0 ∨ d.ctrlTokens ≤ rate ∧
    ∀ t ∈ ts, d.ctrlLast ≤ t ∧ rate * (t - d.ctrlLast) < 2 ^ 64

/-- A frame a second at least: every frame is a refill. -/
theorem refill_now (hrate : 1000 ≤ rate) {ts : List ℕ} (h : Ready rate d (now :: ts)) :
    (ctrlRefill rate now d).ctrlLast = now := by
  by_cases h0 : d.ctrlLast = 0
  · exact (refill_first rate now h0).2
  · obtain ⟨hle, hsmall⟩ := (h.resolve_left h0).2 now List.mem_cons_self
    rcases hle.lt_or_eq with hlt | heq
    · exact (refill_exact now h0 hrate hlt hsmall).2
    · rcases refill_later rate h0 hle with ⟨-, hl⟩ | ⟨-, hl⟩
      · exact hl
      · exact hl.trans heq

theorem Clock.tail {ts : List ℕ} (h : Clock rate (now :: ts)) : Clock rate ts :=
  ⟨fun t ht => h.pos t (List.mem_cons_of_mem _ ht), h.mono.of_cons, h.small.of_cons⟩

/-- What a frame leaves behind. -/
theorem ready_step (hr : cf.frameControlRate ≠ 0) (hrate : 1000 ≤ cf.frameControlRate) {ts : List ℕ}
    (hclock : Clock cf.frameControlRate (now :: ts)) (h : Ready cf.frameControlRate d (now :: ts)) :
    (ctrlAllowed cf now d).2.ctrlLast = now ∧
      ((ctrlAllowed cf now d).2.ctrlTokens + 1000 ≤ cf.frameControlRate ∨
        (ctrlAllowed cf now d).2.ctrlTokens < 1000) ∧
      Ready cf.frameControlRate (ctrlAllowed cf now d).2 ts := by
  have hnow := refill_now hrate h
  have hle := refill_le now (h.imp_right And.left)
  have hmono := (List.pairwise_cons.mp hclock.mono).1
  have hsmall := (List.pairwise_cons.mp hclock.small).1
  rcases allowed_cases hr now d with ⟨-, htok, hl⟩ | ⟨-, hlt, htok, hl⟩
  · refine ⟨hl.trans hnow, .inl (by omega), .inr ⟨by omega, ?_⟩⟩
    rw [hl, hnow]
    exact fun t ht => ⟨hmono t ht, hsmall t ht⟩
  · refine ⟨hl.trans hnow, .inr (by omega), .inr ⟨by omega, ?_⟩⟩
    rw [hl, hnow]
    exact fun t ht => ⟨hmono t ht, hsmall t ht⟩

/-- **No window admits more than the rate**, at a frame a second or more. -/
theorem window_le (hrate : 1000 ≤ cf.frameControlRate) {ts : List ℕ}
    (hclock : Clock cf.frameControlRate ts) (h : Ready cf.frameControlRate d ts) :
    1000 * passedIn s T (ctrlRun cf d ts) ≤
      cf.frameControlRate + cf.frameControlRate * T / 1000 := by
  induction ts generalizing d with
  | nil => simp [ctrlRun, passedIn]
  | cons now ts ih =>
    have hr : cf.frameControlRate ≠ 0 := by omega
    obtain ⟨hlast, -, hready⟩ := ready_step hr hrate hclock h
    have hle := refill_le now (h.imp_right And.left)
    by_cases hin : s ≤ now ∧ now ≤ s + T
    · -- the first frame of the window
      have hpos := hclock.pos now List.mem_cons_self
      have hcost := passedIn_le (s := s) (T := T) hr (d := (ctrlAllowed cf now d).2) (by omega)
        (by omega) hclock.tail.mono
        (by rw [hlast]; exact (List.pairwise_cons.mp hclock.mono).1)
      have hspan : cf.frameControlRate * (s + T - now) / 1000 ≤ cf.frameControlRate * T / 1000 :=
        Nat.div_le_div_right (Nat.mul_le_mul_left _ (by omega))
      rw [hlast] at hcost
      rw [ctrlRun, passedIn_cons]
      rcases allowed_cases hr now d with ⟨-, htok, -⟩ | ⟨hno, -, htok, -⟩
      · have hone : (if (ctrlAllowed cf now d).1 = true ∧ s ≤ now ∧ now ≤ s + T then 1 else 0) ≤ 1 :=
          ite_le_one le_rfl (Nat.zero_le _)
        simp only
        omega
      · rw [if_neg fun h => by simp [hno] at h]
        omega
    · rw [ctrlRun, passedIn_cons, if_neg fun h => hin h.2]
      exact ih hclock.tail hready

/-! ### Frames that keep their distance -/

/-- The distance of one frame pays for the next one. -/
theorem spaced_pass (hsteady : Steady cf.frameControlRate) {t u : ℕ} (hlast : d.ctrlLast = t)
    (ht : 0 < t) (hsmall : cf.frameControlRate * (u - t) < 2 ^ 64)
    (hroom : d.ctrlTokens + 1000 ≤ cf.frameControlRate ∨ d.ctrlTokens < 1000)
    (hdist : t + (1000000 + (cf.frameControlRate - 1)) / cf.frameControlRate ≤ u) :
    (ctrlAllowed cf u d).1 = true := by
  obtain ⟨hrate, hfit⟩ := hsteady
  have hpos : 0 < cf.frameControlRate := by omega
  have hmillion : 1000000 ≤ cf.frameControlRate * (u - t) := by
    have hceil := Nat.lt_div_mul_add (a := 1000000 + (cf.frameControlRate - 1)) hpos
    have hmul := Nat.mul_le_mul_left cf.frameControlRate
      (show (1000000 + (cf.frameControlRate - 1)) / cf.frameControlRate ≤ u - t by omega)
    rw [Nat.mul_comm] at hceil
    omega
  have hlt : t < u := by
    by_contra hno
    rw [Nat.sub_eq_zero_of_le (by omega), Nat.mul_zero] at hmillion
    omega
  have hexact := (refill_exact (d := d) u (by omega) hrate (by omega)
    (by rw [hlast]; exact hsmall)).1
  -- nothing overflows: after a second millisecond the rate is small
  have hwrap : d.ctrlTokens + cf.frameControlRate * (u - t) / 1000 < 2 ^ 64 := by
    rcases hroom with hroom | hroom
    · by_cases hone : u - t = 1
      · rw [hone, Nat.mul_one]
        omega
      · have htwo := Nat.mul_le_mul_left cf.frameControlRate (show 2 ≤ u - t by omega)
        omega
    · omega
  rw [hlast, Nat.mod_eq_of_lt hwrap] at hexact
  rcases allowed_cases (show cf.frameControlRate ≠ 0 by omega) u d with ⟨hyes, -⟩ | ⟨-, hlow, -⟩
  · exact hyes
  · rw [hexact] at hlow
    omega

theorem spaced_run (hsteady : Steady cf.frameControlRate) {before after ts : List ℕ} {t u : ℕ}
    (hclock : Clock cf.frameControlRate ts) (hready : Ready cf.frameControlRate d ts)
    (hts : ts = before ++ t :: u :: after)
    (hdist : t + (1000000 + (cf.frameControlRate - 1)) / cf.frameControlRate ≤ u) :
    (ctrlRun cf d ts)[before.length + 1]? = some (u, true) := by
  have hr : cf.frameControlRate ≠ 0 := by
    have := hsteady.1
    omega
  induction before generalizing d ts with
  | nil =>
    subst hts
    obtain ⟨hlast, hroom, -⟩ := ready_step hr hsteady.1 hclock hready
    have hsmall := (List.pairwise_cons.mp hclock.small).1 u List.mem_cons_self
    have hyes := spaced_pass hsteady hlast (hclock.pos t List.mem_cons_self) hsmall hroom hdist
    simp [ctrlRun, hyes]
  | cons now before ih =>
    subst hts
    obtain ⟨-, -, hnext⟩ := ready_step hr hsteady.1 hclock hready
    rw [List.cons_append, ctrlRun, List.length_cons, List.getElem?_cons_succ]
    exact ih hclock.tail hnext rfl

/-! ### The other rates -/

/-- Two frames at a distance, of which the second is not let through. -/
theorem steady_low (hpos : 0 < cf.frameControlRate) (hd : d.ctrlLast = 0) (h : RateKept cf d) :
    1000 ≤ cf.frameControlRate := by
  by_contra hlow
  generalize hgap : (1000000 + (cf.frameControlRate - 1)) / cf.frameControlRate = gap at *
  have hclock : Clock cf.frameControlRate [1, 1 + gap] := by
    have hmul := Nat.mul_div_le (1000000 + (cf.frameControlRate - 1)) cf.frameControlRate
    rw [hgap] at hmul
    constructor
    · simp
    · simp
    · simp only [List.pairwise_cons, List.mem_singleton, forall_eq, List.not_mem_nil,
        false_implies, implies_true, List.Pairwise.nil, and_self, and_true, Nat.add_sub_cancel_left]
      omega
  have hget := h.spaced [1, 1 + gap] [] 1 (1 + gap) [] hclock rfl (by rw [hgap])
  have hno := never_passed (by omega) (by omega) (.inl hd) [1, 1 + gap] (1 + gap, true)
    (List.mem_of_getElem? hget)
  cases hno

theorem refill_same (rate : ℕ) (h : d.ctrlLast ≠ 0) : ctrlRefill rate d.ctrlLast d = d := by
  have hzero : signed 0 = 0 := rfl
  rw [ctrlRefill, if_neg h]
  simp only [sub_self, hzero]
  rfl

/-- Frames at one time only take tokens. -/
theorem same_time (hr : cf.frameControlRate ≠ 0) (j : ℕ) (hlast : d.ctrlLast = 1)
    (htok : 1000 * j ≤ d.ctrlTokens) : ∃ d', d'.ctrlLast = 1 ∧
      d'.ctrlTokens + 1000 * j = d.ctrlTokens ∧ ∀ ts, ctrlRun cf d (List.replicate j 1 ++ ts) =
        List.replicate j (1, true) ++ ctrlRun cf d' ts := by
  induction j generalizing d with
  | zero => exact ⟨d, hlast, rfl, fun _ => rfl⟩
  | succ j ih =>
    have hsame := refill_same (d := d) cf.frameControlRate (by omega)
    rw [hlast] at hsame
    rcases allowed_cases hr 1 d with ⟨hyes, ht, hl⟩ | ⟨-, hlow, -⟩
    · rw [hsame] at ht hl
      obtain ⟨d', hl', ht', hrun⟩ := ih (hl.trans hlast) (by omega)
      have hsum : d'.ctrlTokens + 1000 * (j + 1) = d.ctrlTokens := by
        rw [← ht, ← ht']
        ring
      refine ⟨d', hl', hsum, fun ts => ?_⟩
      rw [List.replicate_succ, List.cons_append, ctrlRun, hyes, hrun, List.replicate_succ,
        List.cons_append]
    · rw [hsame] at hlow
      omega

/-- As many frames in the first millisecond as it takes for the next refill to overflow, and one
more frame. -/
theorem steady_high (hrate : 1000 ≤ cf.frameControlRate) (hlt : cf.frameControlRate < 2 ^ 64)
    (hd : d.ctrlLast = 0) (h : RateKept cf d) :
    cf.frameControlRate + cf.frameControlRate / 1000 < 2 ^ 64 + 1000 := by
  by_contra hwrap
  have hr : cf.frameControlRate ≠ 0 := by omega
  obtain ⟨k, hk⟩ : ∃ k, (cf.frameControlRate + cf.frameControlRate / 1000 - 2 ^ 64) / 1000 = k + 1 :=
    Nat.exists_eq_succ_of_ne_zero (by omega)
  have hfirst := refill_first cf.frameControlRate 1 hd
  rcases allowed_cases hr 1 d with ⟨-, ht, hl⟩ | ⟨-, hlow, -⟩
  · rw [hfirst.1] at ht
    rw [hfirst.2] at hl
    obtain ⟨d', hl', ht', hrun⟩ := same_time hr k hl (by omega)
    have hlist : List.replicate k 1 ++ [1, 2] = 1 :: (List.replicate k 1 ++ [2]) := by
      rw [← List.cons_append, ← List.replicate_succ, List.replicate_succ', List.append_assoc]
      rfl
    have hclock : Clock cf.frameControlRate (List.replicate k 1 ++ [1, 2]) := by
      rw [hlist]
      have hmem : ∀ t ∈ List.replicate k 1 ++ [2], 1 ≤ t := by
        intro t ht
        rcases List.mem_append.mp ht with ht | ht
        · rw [List.eq_of_mem_replicate ht]
        · rw [List.mem_singleton.mp ht]
          omega
      refine ⟨?_, List.pairwise_cons.mpr ⟨hmem, ?_⟩, List.pairwise_cons.mpr ⟨?_, ?_⟩⟩
      · intro t ht
        rcases List.mem_cons.mp ht with rfl | ht
        · exact Nat.one_pos
        · exact hmem t ht
      · simp [List.pairwise_append, List.pairwise_replicate]
      · intro t ht
        have hle : t - 1 ≤ 1 := by
          rcases List.mem_append.mp ht with ht | ht
          · rw [List.eq_of_mem_replicate ht]
            omega
          · rw [List.mem_singleton.mp ht]
        exact lt_of_le_of_lt (Nat.mul_le_mul_left _ hle) (by omega)
      · simp only [List.pairwise_append, List.pairwise_replicate, List.pairwise_singleton,
          List.mem_singleton, forall_eq, Nat.sub_self, Nat.mul_zero, true_and]
        refine ⟨.inr (by decide), fun t ht => ?_⟩
        rw [List.eq_of_mem_replicate ht]
        omega
    have hdist : 1 + (1000000 + (cf.frameControlRate - 1)) / cf.frameControlRate ≤ 2 := by
      have := Nat.div_lt_of_lt_mul (m := 1000000 + (cf.frameControlRate - 1))
        (n := cf.frameControlRate) (k := 2) (by omega)
      omega
    have hget := h.spaced _ (List.replicate k 1) 1 2 [] hclock rfl hdist
    have hexact := (refill_exact (d := d') 2 (by omega) hrate (by omega)
      (by rw [hl']; omega)).1
    rw [hlist, ctrlRun, hrun, List.length_replicate, List.getElem?_cons_succ,
      List.getElem?_append_right (by simp), List.length_replicate, Nat.sub_self, ctrlRun] at hget
    rw [hl', show 2 - 1 = 1 from rfl, Nat.mul_one] at hexact
    rcases allowed_cases hr 2 d' with ⟨-, ht2, -⟩ | ⟨hno, -⟩
    · have hsum : 2 ^ 64 ≤ d'.ctrlTokens + cf.frameControlRate / 1000 ∧
          d'.ctrlTokens + cf.frameControlRate / 1000 < 2 ^ 64 + 1000 := by omega
      have hmod : (d'.ctrlTokens + cf.frameControlRate / 1000) % 2 ^ 64 < 1000 := by
        rw [Nat.mod_eq_sub_mod hsum.1, Nat.mod_eq_of_lt (by omega)]
        omega
      have := min_le_left ((d'.ctrlTokens + cf.frameControlRate / 1000) % 2 ^ 64)
        cf.frameControlRate
      omega
    · simp [hno] at hget
  · omega

/-- **The rates that are kept.** -/
theorem rateKept_iff (hpos : 0 < cf.frameControlRate) (hlt : cf.frameControlRate < 2 ^ 64)
    (hd : d.ctrlLast = 0) : RateKept cf d ↔ Steady cf.frameControlRate := by
  constructor
  · intro h
    have hrate := steady_low hpos hd h
    exact ⟨hrate, steady_high hrate hlt hd h⟩
  · intro h
    exact ⟨fun ts hclock s T => window_le h.1 hclock (.inl hd),
      fun ts before t u after hclock hts hdist => spaced_run h hclock (.inl hd) hts hdist⟩

/-- The window is kept at all rates. -/
theorem window_all (hpos : 0 < cf.frameControlRate) (hd : d.ctrlLast = 0) {ts : List ℕ}
    (hclock : Clock cf.frameControlRate ts) (s T : ℕ) :
    1000 * passedIn s T (ctrlRun cf d ts) ≤
      cf.frameControlRate + cf.frameControlRate * T / 1000 := by
  by_cases hrate : 1000 ≤ cf.frameControlRate
  · exact window_le hrate hclock (.inl hd)
  · have hnone := never_passed (show cf.frameControlRate ≠ 0 by omega) (by omega) (.inl hd) ts
    have hzero : passedIn s T (ctrlRun cf d ts) = 0 := by
      rw [passedIn, List.countP_eq_zero]
      intro x hx
      simp [hnone x hx]
    omega

/-! ### The directive -/

theorem scaled_lt {n scale : ℕ} : n * 1000 % 2 ^ 64 / scale < 2 ^ 64 :=
  lt_of_le_of_lt (Nat.div_le_self _ _) (Nat.mod_lt _ (by decide))

theorem frameControlRate_lt {current : Option ℕ} {arg : Bytes} {n : ℕ}
    (h : frameControlRate current arg = .ok n) : n < 2 ^ 64 := by
  unfold frameControlRate at h
  simp only at h
  split_ifs at h
  · cases h
    decide
  all_goals
    cases hatoi : atoi (arg.take (arg.length - 3)) with
    | none => simp [hatoi] at h
    | some m =>
      simp only [hatoi] at h
      split_ifs at h
      cases h
      exact scaled_lt

/-- **When the control-frame limit is right**: from one frame a second on, and as long as the tokens
do not overflow. -/
theorem control_rate_kept_iff {arg : Bytes} (harg : frameControlRate none arg = .ok cf.frameControlRate)
    (hoff : cf.frameControlRate ≠ 0) (hd : d.ctrlLast = 0) :
    RateKept cf d ↔ Steady cf.frameControlRate :=
  rateKept_iff (Nat.pos_of_ne_zero hoff) (frameControlRate_lt harg) hd

/-- A location with the rate and one megabyte for bodies. -/
def rateConf (rate : ℕ) : Conf where
  frameReassemble := true
  bodyLimit := 1048576
  bodyLimit_lt := by decide
  bodyLimitPolicy := .block
  exceptionBody := .block
  rewriteClose := closeInternal "rewrite failed" "rewrite failed"
  sendBodyStore := false
  frameControlRate := rate
  auditFramesAll := false
  auditFramesSample := 0

/-- A direction after the handshake. -/
def freshDir (rate : ℕ) : Dir := (dirInit (rateConf rate) .inspect true []).get rfl

theorem control_rate_kept_ten : RateKept (rateConf 10000) (freshDir 10000) ↔ Steady 10000 :=
  control_rate_kept_iff
    (show frameControlRate none (ascii "10r/s") = .ok (rateConf 10000).frameControlRate by
      decide +kernel) (by decide) rfl

/-- Thirty pings a minute are allowed, and of two that are two seconds apart none is let through. -/
theorem half_rate_drops_all :
    frameControlRate none (ascii "30r/m") = .ok 500 ∧
      1 + (1000000 + (500 - 1)) / 500 ≤ 2001 ∧
      ctrlRun (rateConf 500) (freshDir 500) [1, 2001] = [(1, false), (2001, false)] :=
  ⟨by decide +kernel, by decide, by decide +kernel⟩

end Frames
