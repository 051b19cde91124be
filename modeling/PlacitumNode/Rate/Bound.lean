import PlacitumNode.Rate.Account

/-!
# What the local rate limit admits

A counter is created with an excess of zero by a call that is admitted, so the request that
created it is on nobody's account: the counter owes a thousand more than its `excess` says.
`rateExpire` frees a counter as soon as its excess is paid back, and the next call creates it anew.
The bound on the admissions of a window therefore holds in every run in which a counter is freed
only after that thousand is paid back too (`FreesRepaid`), and fails without it
(`admitted_over_bound`).

The proof follows the debt of one counter: `Owes` bounds a thousand times the admissions since the
window's first one by the debt of the counter (or by nothing, once it is freed) plus what time has
paid back since.
-/

namespace Rate

open Machine Octets Run

/-! ### The clock -/

theorem rateElapsed_le {now last : ℕ} (h : last ≤ now) : rateElapsed now last ≤ now - last := by
  unfold rateElapsed
  have h₁ := signed_le (x := (now : ℤ) - last) (by omega)
  by_cases hs : (now : ℤ) - last < 2 ^ 63
  · rw [signed_eq_self (by omega) hs]
    simp only
    split_ifs <;> omega
  · simp only
    split_ifs <;> omega

/-- A call that saw no time pass leaves the counter's time alone; later calls still see at most the
time since that call. -/
theorem rateElapsed_le_of_zero {t now last : ℕ} (hz : rateElapsed t last = 0) (hle : t ≤ now) :
    rateElapsed now last ≤ now - t := by
  have hz' : -60000 ≤ signed ((t : ℤ) - last) ∧ signed ((t : ℤ) - last) ≤ 0 := by
    unfold rateElapsed at hz
    simp only at hz
    split_ifs at hz <;> omega
  have hshift : signed ((now : ℤ) - last) = signed ((now - t : ℤ) + signed ((t : ℤ) - last)) := by
    unfold signed
    rw [Int.add_bmod_bmod]
    congr 1
    ring
  have hle' := signed_le (x := (now - t : ℤ) + signed ((t : ℤ) - last)) (by omega)
  unfold rateElapsed
  rw [hshift]
  simp only
  by_cases hx : (now - t : ℤ) + signed ((t : ℤ) - last) < 2 ^ 63
  · rw [signed_eq_self (by omega) hx]
    split_ifs <;> omega
  · split_ifs <;> omega

/-! ### One call -/

/-- `rateExpire` only cuts counters off the end of the queue. -/
theorem rateExpireLoop_begins (now n : ℕ) (force : Bool) (shm : Shm) :
    (rateExpireLoop now n force shm).lru <+: shm.lru := by
  induction n generalizing force shm with
  | zero => exact List.prefix_rfl
  | succ n ih =>
    unfold rateExpireLoop
    split
    · exact List.prefix_rfl
    · split
      · exact List.prefix_rfl
      · exact (ih _ _).trans (List.dropLast_prefix _)

theorem rateInsert_of_roomy {scf : ShmConf} {shm : Shm} {c : Call} (excess : ℕ)
    (hl : rateLookup shm c.rule.sig c.key = none) (h : Roomy scf shm c) :
    (rateInsert scf shm c.rule c.key excess c.now c.slab).lru =
      ⟨c.rule.sig, c.key, c.rule.rate, excess, c.now⟩ :: (rateExpire c.now shm false).lru := by
  obtain ⟨hroom, halloc⟩ := h hl
  have hloop : evictLoop scf c.now (rateCharge c.key.length) 16 (rateExpire c.now shm false)
      = rateExpire c.now shm false := by
    unfold evictLoop
    rw [if_neg (fun hc => absurd hc.1 (by omega))]
  unfold rateInsert
  simp only [hloop, if_pos hroom, halloc, if_true]

/-- Everything a call in gate mode can do when it finds room. -/
theorem step_cases {scf : ShmConf} {shm : Shm} {c : Call} (h : Roomy scf shm c) :
    (rateLookup shm c.rule.sig c.key = none ∧ c.answer scf shm = .ok ∧
      (step scf shm c).lru =
        ⟨c.rule.sig, c.key, c.rule.rate, 0, c.now⟩ :: (rateExpire c.now shm false).lru) ∨
    ∃ rn, rateLookup shm c.rule.sig c.key = some rn ∧
      ((c.answer scf shm = .ok ∧ levelAt c.rule rn .gate c.now ≤ signed c.rule.burst ∧
          (step scf shm c).lru =
            { rn with
              excess := (levelAt c.rule rn .gate c.now).toNat
              last := if rateElapsed c.now rn.last = 0 then rn.last else c.now } ::
              shm.lru.eraseP (Node.isFor c.rule.sig c.key)) ∨
        (c.answer scf shm = .declined ∧
          (step scf shm c).lru = rn :: shm.lru.eraseP (Node.isFor c.rule.sig c.key))) := by
  cases hl : rateLookup shm c.rule.sig c.key with
  | none =>
    refine Or.inl ⟨rfl, ?_, ?_⟩
    · simp [Call.answer, rateAccount, hl]
    · simp only [step, rateAccount, hl]
      exact rateInsert_of_roomy 0 hl h
  | some rn =>
    refine Or.inr ⟨rn, rfl, ?_⟩
    by_cases hv : levelAt c.rule rn .gate c.now ≤ signed c.rule.burst
    · exact Or.inl ⟨by simp [Call.answer, rateAccount, hl, hv], hv,
        by simp [step, rateAccount, hl, hv]⟩
    · exact Or.inr ⟨by simp [Call.answer, rateAccount, hl, hv],
        by simp [step, rateAccount, hl, hv]⟩

/-! ### The counter of one rule and key -/

section Counter

variable (rule : Rule) (key : Bytes)

/-- The counters of the rule and key, of which there is at most one. -/
def track (shm : Shm) : List Node := shm.lru.filter (Node.isFor rule.sig key)

/-- The call is about the counter of the rule and key. -/
def Touches (c : Call) : Prop := c.rule.sig = rule.sig ∧ c.key = key

instance (c : Call) : Decidable (Touches rule key c) := by unfold Touches; infer_instance

/-- Rules that share the signature share the rate and the burst. -/
def NoClash (c : Call) : Prop :=
  c.rule.sig = rule.sig → c.rule.rate = rule.rate ∧ c.rule.burst = rule.burst

instance (c : Call) : Decidable (NoClash rule c) := by unfold NoClash; infer_instance

/-- The call frees the counter only after its excess and the request that created it are both
paid back. -/
def FreesRepaid (shm : Shm) (c : Call) : Prop :=
  rateLookup shm c.rule.sig c.key = none →
    ∀ n ∈ shm.lru, n ∉ (rateExpire c.now shm false).lru → n.isFor rule.sig key = true →
      n.excess + 1000 ≤ perMille n.rate (rateElapsed c.now n.last)

instance (shm : Shm) (c : Call) : Decidable (FreesRepaid rule key shm c) := by
  unfold FreesRepaid; infer_instance

/-- The zone holds at most one counter for the rule and key, of the rule's rate, last used no later
than `cur` and within the rule's burst. -/
def Sane (cur : ℕ) (shm : Shm) : Prop :=
  track rule key shm = [] ∨
    ∃ n, track rule key shm = [n] ∧ n.rate = rule.rate ∧ n.last ≤ cur ∧
      (n.excess : ℤ) ≤ max 0 (signed rule.burst)

/-- What `A` admissions since the time `t₁` left behind: a thousand times their number is at most
the counter's debt plus what time has paid back, nothing being owed once the counter is freed.
`l` is the time up to which the counter has been paid. -/
def Owes (t₁ cur A : ℕ) : List Node → Prop
  | [] => ∃ R l, t₁ ≤ l ∧ l ≤ cur ∧ 1000 * R ≤ rule.rate * (l - t₁) ∧ 1000 * A ≤ R
  | n :: _ => ∃ R l, t₁ ≤ l ∧ l ≤ cur ∧ 1000 * R ≤ rule.rate * (l - t₁) ∧
      1000 * A ≤ n.excess + 1000 + R ∧ ∀ now, cur ≤ now → rateElapsed now n.last ≤ now - l

variable {rule key}

theorem rateLookup_eq_head? (shm : Shm) :
    rateLookup shm rule.sig key = (track rule key shm).head? := by
  rw [track, List.head?_filter, rateLookup]

theorem touches_isFor {c : Call} (h : Touches rule key c) :
    Node.isFor c.rule.sig c.key = Node.isFor rule.sig key := by rw [h.1, h.2]

theorem isFor_of_not_touches {c : Call} (h : ¬Touches rule key c) {n : Node}
    (hn : n.isFor c.rule.sig c.key = true) : n.isFor rule.sig key = false := by
  rw [isFor_iff] at hn
  rw [Bool.eq_false_iff]
  intro hf
  rw [isFor_iff] at hf
  exact h ⟨hn.1.symm.trans hf.1, hn.2.symm.trans hf.2⟩

theorem filter_eraseP_of_disjoint {α : Type*} {p q : α → Bool} (l : List α)
    (h : ∀ a, q a = true → p a = false) : (l.eraseP q).filter p = l.filter p := by
  induction l with
  | nil => rfl
  | cons a l ih =>
    by_cases ha : q a = true
    · rw [List.eraseP_cons_of_pos ha, List.filter_cons_of_neg (by simp [h a ha])]
    · rw [List.eraseP_cons_of_neg ha, List.filter_cons, List.filter_cons, ih]

theorem filter_eraseP_self {α : Type*} {p : α → Bool} (l : List α) :
    (l.eraseP p).filter p = (l.filter p).tail := by
  induction l with
  | nil => rfl
  | cons a l ih =>
    by_cases ha : p a = true
    · rw [List.eraseP_cons_of_pos ha, List.filter_cons_of_pos ha, List.tail_cons]
    · rw [List.eraseP_cons_of_neg ha, List.filter_cons_of_neg ha, List.filter_cons_of_neg ha, ih]

/-- A call about another counter leaves this one alone or frees it. -/
theorem track_step_other {scf : ShmConf} {shm : Shm} {c : Call} (hroom : Roomy scf shm c)
    (h : ¬Touches rule key c) :
    track rule key (step scf shm c) = track rule key shm ∨
      rateLookup shm c.rule.sig c.key = none ∧
        track rule key (step scf shm c) =
          (rateExpire c.now shm false).lru.filter (Node.isFor rule.sig key) := by
  rcases step_cases hroom with ⟨hl, -, hs⟩ | ⟨rn, hl, ⟨-, -, hs⟩ | ⟨-, hs⟩⟩
  · refine Or.inr ⟨hl, ?_⟩
    rw [track, hs, List.filter_cons_of_neg]
    have := isFor_of_not_touches h (n := ⟨c.rule.sig, c.key, c.rule.rate, 0, c.now⟩)
      (by simp [Node.isFor])
    simp [this]
  all_goals
    have hrn : rn.isFor c.rule.sig c.key = true := List.find?_some hl
    have hne := isFor_of_not_touches h hrn
    refine Or.inl ?_
    rw [track, hs, List.filter_cons_of_neg (by simpa [Node.isFor] using hne),
      filter_eraseP_of_disjoint _ fun a ha => isFor_of_not_touches h ha, track]

/-- A call about the counter: it creates it, charges it, or is declined. -/
theorem track_step_self {scf : ShmConf} {shm : Shm} {c : Call} (hroom : Roomy scf shm c)
    (h : Touches rule key c) {cur : ℕ} (hsane : Sane rule key cur shm) :
    (track rule key shm = [] ∧ c.answer scf shm = .ok ∧
      track rule key (step scf shm c) = [⟨rule.sig, key, c.rule.rate, 0, c.now⟩]) ∨
    ∃ n, track rule key shm = [n] ∧
      ((c.answer scf shm = .ok ∧ levelAt c.rule n .gate c.now ≤ signed c.rule.burst ∧
          track rule key (step scf shm c) = [{ n with
            excess := (levelAt c.rule n .gate c.now).toNat
            last := if rateElapsed c.now n.last = 0 then n.last else c.now }]) ∨
        (c.answer scf shm = .declined ∧ track rule key (step scf shm c) = [n])) := by
  have hlook : rateLookup shm c.rule.sig c.key = (track rule key shm).head? := by
    rw [h.1, h.2, rateLookup_eq_head?]
  have htail : (track rule key shm).tail = [] := by
    rcases hsane with h0 | ⟨n, hn, -⟩
    · rw [h0]; rfl
    · rw [hn]; rfl
  rcases step_cases hroom with ⟨hl, ha, hs⟩ | ⟨rn, hl, hor⟩
  · have hnil : track rule key shm = [] := by rwa [hlook, List.head?_eq_none_iff] at hl
    refine Or.inl ⟨hnil, ha, ?_⟩
    rw [track, hs, List.filter_cons_of_pos (by simp [Node.isFor, h.1, h.2]), h.1, h.2]
    have hpre := (rateExpireLoop_begins c.now 2 false shm).filter (Node.isFor rule.sig key)
    rw [show shm.lru.filter (Node.isFor rule.sig key) = [] from hnil, List.prefix_nil] at hpre
    rw [rateExpire, hpre]
  · have hone : track rule key shm = [rn] := by
      rw [hlook] at hl
      obtain ⟨l, hl'⟩ := List.head?_eq_some_iff.1 hl
      rw [hl'] at htail ⊢
      rw [List.tail_cons] at htail
      rw [htail]
    have hrn : rn.isFor rule.sig key = true := by
      have : rn ∈ track rule key shm := by rw [hone]; exact List.mem_singleton_self _
      exact (List.mem_filter.1 this).2
    refine Or.inr ⟨rn, hone, ?_⟩
    rcases hor with ⟨ha, hv, hs⟩ | ⟨ha, hs⟩
    · refine Or.inl ⟨ha, hv, ?_⟩
      rw [track, hs, touches_isFor h, List.filter_cons_of_pos (by simpa [Node.isFor] using hrn),
        filter_eraseP_self, ← track, htail]
    · refine Or.inr ⟨ha, ?_⟩
      rw [track, hs, touches_isFor h, List.filter_cons_of_pos hrn, filter_eraseP_self, ← track,
        htail]

/-- The level a call leaves is at least the old excess plus the call minus what is paid back. -/
theorem le_levelAt {n : Node} {c : Call} (hb : signed rule.burst + 1000 < 2 ^ 63)
    (he : (n.excess : ℤ) ≤ max 0 (signed rule.burst)) :
    (n.excess : ℤ) + 1000 - perMille c.rule.rate (rateElapsed c.now n.last) ≤
      levelAt c.rule n .gate c.now := by
  have hp : perMille c.rule.rate (rateElapsed c.now n.last) < 2 ^ 62 := by
    have h₁ := Nat.mod_lt (c.rule.rate * rateElapsed c.now n.last) (show 0 < 2 ^ 64 by norm_num)
    have h₂ := Nat.div_mul_le_self
      (c.rule.rate * rateElapsed c.now n.last % 2 ^ 64) 1000
    unfold perMille
    omega
  unfold levelAt
  rw [if_neg (by decide), signed_eq_self (x := n.excess) (by omega) (by omega),
    signed_eq_self (by omega) (by omega)]
  omega

theorem sane_mono {cur cur' : ℕ} {shm : Shm} (h : Sane rule key cur shm) (hle : cur ≤ cur') :
    Sane rule key cur' shm := by
  rcases h with h | ⟨n, hn, hr, hl, he⟩
  · exact Or.inl h
  · exact Or.inr ⟨n, hn, hr, hl.trans hle, he⟩

/-- What is left of the counter when its call about another counter expires the queue's end. -/
theorem expire_track {cur : ℕ} {shm : Shm} (now : ℕ) (h : Sane rule key cur shm) :
    (rateExpire now shm false).lru.filter (Node.isFor rule.sig key) = track rule key shm ∨
      ∃ n, track rule key shm = [n] ∧ n ∈ shm.lru ∧ n ∉ (rateExpire now shm false).lru ∧
        n.isFor rule.sig key = true ∧
        (rateExpire now shm false).lru.filter (Node.isFor rule.sig key) = [] := by
  have hpre := (rateExpireLoop_begins now 2 false shm).filter (Node.isFor rule.sig key)
  rcases h with h0 | ⟨n, hn, -⟩
  · refine Or.inl ?_
    rw [show shm.lru.filter (Node.isFor rule.sig key) = [] from h0, List.prefix_nil] at hpre
    rw [h0, rateExpire, hpre]
  · rw [show shm.lru.filter (Node.isFor rule.sig key) = [n] from hn] at hpre
    rcases List.prefix_cons_iff.1 hpre with h' | ⟨t, ht, hpt⟩
    · have hmem : n ∈ track rule key shm := by rw [hn]; exact List.mem_singleton_self _
      obtain ⟨hin, hfor⟩ := List.mem_filter.1 hmem
      refine Or.inr ⟨n, hn, hin, fun hmem' => ?_, hfor, h'⟩
      have : n ∈ (rateExpireLoop now 2 false shm).lru.filter (Node.isFor rule.sig key) :=
        List.mem_filter.2 ⟨hmem', hfor⟩
      rw [h'] at this
      exact List.not_mem_nil this
    · refine Or.inl ?_
      rw [List.prefix_nil] at hpt
      rw [hn, rateExpire, ht, hpt]

/-- A call keeps the counter sane. -/
theorem sane_step {scf : ShmConf} {shm : Shm} {c : Call} {cur : ℕ} (hroom : Roomy scf shm c)
    (hc : NoClash rule c) (hle : cur ≤ c.now) (h : Sane rule key cur shm) :
    Sane rule key c.now (step scf shm c) := by
  by_cases ht : Touches rule key c
  · rcases track_step_self hroom ht h with ⟨-, -, hs⟩ | ⟨n, hn, ⟨-, hv, hs⟩ | ⟨-, hs⟩⟩
    · exact Or.inr ⟨_, hs, (hc ht.1).1, le_rfl, by positivity⟩
    · rcases h with h0 | ⟨m, hm, hr, hl, -⟩
      · rw [h0] at hn; cases hn
      · rw [hm] at hn; cases hn
        refine Or.inr ⟨_, hs, hr, ?_, ?_⟩
        · simp only
          split_ifs
          · exact hl.trans hle
          · exact le_rfl
        · rw [(hc ht.1).2] at hv
          have hpos : 0 ≤ levelAt c.rule n .gate c.now := le_max_left _ _
          simp only
          omega
    · rcases h with h0 | ⟨m, hm, hr, hl, he⟩
      · rw [h0] at hn; cases hn
      · rw [hm] at hn; cases hn
        exact Or.inr ⟨n, hs, hr, hl.trans hle, he⟩
  · have h' := sane_mono h hle
    rcases track_step_other hroom ht with hs | ⟨-, hs⟩
    · unfold Sane at h' ⊢
      rwa [hs]
    · rcases expire_track c.now h with he | ⟨n, -, -, -, -, he⟩
      · unfold Sane at h' ⊢
        rwa [hs, he]
      · exact Or.inl (hs.trans he)

theorem owes_of_le {t₁ cur A B : ℕ} {l : List Node} (h : Owes rule t₁ cur B l) (hle : A ≤ B) :
    Owes rule t₁ cur A l := by
  cases l with
  | nil =>
    obtain ⟨R, l, h₁, h₂, h₃, h₄⟩ := h
    exact ⟨R, l, h₁, h₂, h₃, by omega⟩
  | cons n ns =>
    obtain ⟨R, l, h₁, h₂, h₃, h₄, h₅⟩ := h
    exact ⟨R, l, h₁, h₂, h₃, by omega, h₅⟩

theorem owes_mono {t₁ cur cur' A : ℕ} {l : List Node} (h : Owes rule t₁ cur A l)
    (hle : cur ≤ cur') : Owes rule t₁ cur' A l := by
  cases l with
  | nil =>
    obtain ⟨R, l, h₁, h₂, h₃, h₄⟩ := h
    exact ⟨R, l, h₁, by omega, h₃, h₄⟩
  | cons n ns =>
    obtain ⟨R, l, h₁, h₂, h₃, h₄, h₅⟩ := h
    exact ⟨R, l, h₁, by omega, h₃, h₄, fun now hn => h₅ now (hle.trans hn)⟩

/-- What time pays back between `l` and `now` extends the account of the time since `t₁`. -/
theorem paid_extend {r t₁ l now R ms : ℕ} (h₁ : t₁ ≤ l) (h₂ : l ≤ now) (hms : ms ≤ now - l)
    (hR : 1000 * R ≤ r * (l - t₁)) : 1000 * (R + perMille r ms) ≤ r * (now - t₁) := by
  have h₃ := perMille_mul_le r ms
  have h₄ : r * ms ≤ r * (now - l) := Nat.mul_le_mul_left r hms
  have h₅ : r * (l - t₁) + r * (now - l) = r * (now - t₁) := by
    rw [← Nat.mul_add]
    congr 1
    omega
  omega

/-- **One call keeps the account.** Admitted calls add one admission; freeing the counter keeps the
account because the counter was paid back in full. -/
theorem owes_step {scf : ShmConf} {shm : Shm} {c : Call} {cur t₁ A : ℕ} (hroom : Roomy scf shm c)
    (hc : NoClash rule c) (hfree : FreesRepaid rule key shm c)
    (hb : signed rule.burst + 1000 < 2 ^ 63) (hle : cur ≤ c.now) (hs : Sane rule key cur shm)
    (h : Owes rule t₁ cur A (track rule key shm)) :
    Owes rule t₁ c.now
      (A + if Touches rule key c ∧ c.answer scf shm = .ok then 1 else 0)
      (track rule key (step scf shm c)) := by
  by_cases ht : Touches rule key c
  · rcases track_step_self hroom ht hs with ⟨hn, ha, hst⟩ | ⟨n, hn, ⟨ha, hv, hst⟩ | ⟨ha, hst⟩⟩
    · rw [if_pos ⟨ht, ha⟩, hst]
      rw [hn] at h
      obtain ⟨R, l, h₁, h₂, h₃, h₄⟩ := h
      refine ⟨R, c.now, by omega, le_rfl, h₃.trans (Nat.mul_le_mul_left _ (by omega)), ?_,
        fun now hnow => rateElapsed_le hnow⟩
      simp only
      omega
    · rw [if_pos ⟨ht, ha⟩, hst]
      rw [hn] at h
      obtain ⟨R, l, h₁, h₂, h₃, h₄, h₅⟩ := h
      obtain ⟨hrate, -⟩ := hc ht.1
      rcases hs with h0 | ⟨m, hm, -, hl, he⟩
      · rw [h0] at hn; cases hn
      rw [hm] at hn; cases hn
      have hlev : n.excess + 1000 ≤ (levelAt c.rule n .gate c.now).toNat +
          perMille rule.rate (rateElapsed c.now n.last) := by
        have := le_levelAt (c := c) hb he
        rw [hrate] at this
        exact_mod_cast (sub_le_iff_le_add.1 this).trans
          (add_le_add_left (Int.self_le_toNat _) _)
      have hpaid := paid_extend (r := rule.rate) h₁ (h₂.trans hle) (h₅ c.now hle) h₃
      refine ⟨R + perMille rule.rate (rateElapsed c.now n.last), c.now, by omega, le_rfl, hpaid,
        ?_, ?_⟩
      · simp only
        linarith
      · intro now hnow
        simp only
        split_ifs with hz
        · exact rateElapsed_le_of_zero hz hnow
        · exact rateElapsed_le hnow
    · rw [if_neg (fun hx => by rw [ha] at hx; cases hx.2), hst, ← hn]
      exact owes_mono h hle
  · rw [if_neg (fun hx => ht hx.1)]
    have h' := owes_mono h hle
    rcases track_step_other hroom ht with hst | ⟨hl, hst⟩
    · rwa [hst]
    · rcases expire_track c.now hs with he | ⟨n, hn, hin, hout, hfor, he⟩
      · rwa [hst, he]
      · rw [hst, he]
        rw [hn] at h
        obtain ⟨R, l, h₁, h₂, h₃, h₄, h₅⟩ := h
        have hrep := hfree hl n hin hout hfor
        rcases hs with h0 | ⟨m, hm, hr, -, -⟩
        · rw [h0] at hn; cases hn
        rw [hm] at hn; cases hn
        rw [hr] at hrep
        have hpaid := paid_extend (r := rule.rate) h₁ (h₂.trans hle) (h₅ c.now hle) h₃
        exact ⟨R + perMille rule.rate (rateElapsed c.now n.last), c.now, by omega, le_rfl, hpaid,
          by omega⟩

/-- An account over at most `T` milliseconds is within the bound. -/
theorem bound_of_owes {shm : Shm} {t₁ cur A T : ℕ} (hs : Sane rule key cur shm)
    (h : Owes rule t₁ cur A (track rule key shm)) (hT : cur ≤ t₁ + T) :
    1000 * A ≤ 1000 + rule.burst + rule.rate * T / 1000 := by
  have hR : ∀ {R l : ℕ}, t₁ ≤ l → l ≤ cur → 1000 * R ≤ rule.rate * (l - t₁) →
      R ≤ rule.rate * T / 1000 := by
    intro R l h₁ h₂ h₃
    rw [Nat.le_div_iff_mul_le (by norm_num), mul_comm]
    exact h₃.trans (Nat.mul_le_mul_left _ (by omega))
  have hsigned : signed rule.burst ≤ rule.burst := signed_le (by omega)
  rcases hs with h0 | ⟨n, hn, -, -, he⟩
  · rw [h0] at h
    obtain ⟨R, l, h₁, h₂, h₃, h₄⟩ := h
    have := hR h₁ h₂ h₃
    omega
  · rw [hn] at h
    obtain ⟨R, l, h₁, h₂, h₃, h₄, -⟩ := h
    have := hR h₁ h₂ h₃
    omega

/-- The conditions under which one step keeps the account. -/
def Fair (scf : ShmConf) (shm : Shm) (c : Call) : Prop :=
  Roomy scf shm c ∧ FreesRepaid rule key shm c

/-- After the first admission of the window: the rest of the run stays within the bound. -/
theorem admitted_after {scf : ShmConf} {t₀ t₁ T : ℕ} (hb : signed rule.burst + 1000 < 2 ^ 63)
    (ht : t₀ ≤ t₁) (cs : List Call) :
    ∀ {shm : Shm} {cur A : ℕ}, Sane rule key cur shm →
      Owes rule t₁ cur A (track rule key shm) →
      1000 * A ≤ 1000 + rule.burst + rule.rate * T / 1000 →
      Monotone cs → (∀ c ∈ cs, cur ≤ c.now) → (∀ c ∈ cs, NoClash rule c) →
      Along (step scf) (@Fair rule key scf) shm cs →
      1000 * (A + admitted scf rule key t₀ T shm cs) ≤
        1000 + rule.burst + rule.rate * T / 1000 := by
  induction cs with
  | nil => intro shm cur A _ _ hA _ _ _ _; simpa [admitted] using hA
  | cons c cs ih =>
    intro shm cur A hs ho hA hm hcur hclash hfair
    obtain ⟨⟨hroom, hfree⟩, hrest⟩ := hfair
    have hle : cur ≤ c.now := hcur c List.mem_cons_self
    have hc := hclash c List.mem_cons_self
    have hs' := sane_step hroom hc hle hs
    have ho' := owes_step hroom hc hfree hb hle hs ho
    have hm' := List.pairwise_cons.1 hm
    have hcl' : ∀ d ∈ cs, NoClash rule d := fun d hd => hclash d (List.mem_cons_of_mem _ hd)
    rw [admitted, ← Nat.add_assoc]
    split_ifs with hcount
    · obtain ⟨hr, hk, -, hT, hok⟩ := hcount
      have htouch : Touches rule key c := ⟨by rw [hr], hk⟩
      rw [if_pos ⟨htouch, hok⟩] at ho'
      exact ih hs' ho' (bound_of_owes hs' ho' (by omega)) hm'.2 hm'.1 hcl' hrest
    · exact ih hs' (owes_of_le ho' (by omega)) hA hm'.2 hm'.1 hcl' hrest

/-- Before the first admission of the window nothing is owed; from it on `admitted_after` counts. -/
theorem admitted_le {scf : ShmConf} {t₀ T : ℕ} (hb : signed rule.burst + 1000 < 2 ^ 63)
    (cs : List Call) :
    ∀ {shm : Shm} {cur : ℕ}, Sane rule key cur shm →
      Monotone cs → (∀ c ∈ cs, cur ≤ c.now) → (∀ c ∈ cs, NoClash rule c) →
      Along (step scf) (@Fair rule key scf) shm cs →
      1000 * admitted scf rule key t₀ T shm cs ≤ 1000 + rule.burst + rule.rate * T / 1000 := by
  induction cs with
  | nil => intro shm cur _ _ _ _ _; simp [admitted]
  | cons c cs ih =>
    intro shm cur hs hm hcur hclash hfair
    obtain ⟨⟨hroom, hfree⟩, hrest⟩ := hfair
    have hle : cur ≤ c.now := hcur c List.mem_cons_self
    have hc := hclash c List.mem_cons_self
    have hs' := sane_step hroom hc hle hs
    have hm' := List.pairwise_cons.1 hm
    have hcl' : ∀ d ∈ cs, NoClash rule d := fun d hd => hclash d (List.mem_cons_of_mem _ hd)
    rw [admitted]
    split_ifs with hcount
    · obtain ⟨hr, hk, h₀, hT, hok⟩ := hcount
      have htouch : Touches rule key c := ⟨by rw [hr], hk⟩
      -- the window's first admission: the counter owes at least this call
      have ho' : Owes rule c.now c.now 1 (track rule key (step scf shm c)) := by
        rcases track_step_self hroom htouch hs with ⟨-, -, hst⟩ | ⟨n, -, ⟨-, -, hst⟩ | ⟨ha, -⟩⟩
        · rw [hst]
          exact ⟨0, c.now, le_rfl, le_rfl, by omega, by simp, fun now h => rateElapsed_le h⟩
        · rw [hst]
          refine ⟨0, c.now, le_rfl, le_rfl, by omega, by omega, fun now h => ?_⟩
          simp only
          split_ifs with hz
          · exact rateElapsed_le_of_zero hz h
          · exact rateElapsed_le h
        · rw [ha] at hok; cases hok
      exact admitted_after hb h₀ cs hs' ho' (by omega) hm'.2 hm'.1 hcl' hrest
    · rw [Nat.zero_add]
      exact ih hs' hm'.2 hm'.1 hcl' hrest

end Counter

/-- **The bound on admissions.** In every run from the empty zone with a clock that never goes back,
no forced eviction and no failed allocation, in which the signature names one rate and burst and
the counter of the key is freed only once it is paid back together with the request that created
it, at most `1000 + burst + rate * T / 1000` thousandths of a request are admitted for the key in
any window of `T` milliseconds. -/
theorem rate_admitted_le (scf : ShmConf) (rule : Rule) (key : Bytes) (t₀ T : ℕ) (cs : List Call)
    (hclock : Monotone cs) (hroom : Along (step scf) (Roomy scf) Shm.init cs)
    (hsig : ∀ c ∈ cs, NoClash rule c) (hburst : signed rule.burst + 1000 < 2 ^ 63)
    (hfree : Along (step scf) (FreesRepaid rule key) Shm.init cs) :
    1000 * admitted scf rule key t₀ T Shm.init cs ≤
      1000 + rule.burst + rule.rate * T / 1000 :=
  @admitted_le _ _ _ _ _ hburst cs _ 0 (Or.inl rfl) hclock (fun _ _ => Nat.zero_le _) hsig
    (along_and hroom hfree)

/-! ### A rule of one request a second -/

/-- One request a second, no burst. -/
def oneASecond : Rule := ⟨1000, 0, .requests, .none, [107]⟩

/-- A call at the millisecond `now` for the one-byte key `k`. -/
def callOf (k : UInt8) (now : ℕ) : Call := ⟨oneASecond, [k], now, (true, true)⟩

/-- Three calls of one key in two seconds; a second key comes when the first is paid back. -/
theorem rate_admitted_le_spaced :
    1000 * admitted ⟨4096⟩ oneASecond [65] 0 2500 Shm.init
        [callOf 65 0, callOf 65 500, callOf 66 1200, callOf 65 1300, callOf 65 2400] ≤
      1000 + oneASecond.burst + oneASecond.rate * 2500 / 1000 :=
  rate_admitted_le ⟨4096⟩ oneASecond [65] 0 2500
    [callOf 65 0, callOf 65 500, callOf 66 1200, callOf 65 1300, callOf 65 2400]
    (by unfold Monotone; decide +kernel) (by decide +kernel) (by decide +kernel) (by decide)
    (by decide +kernel)

/-- Two keys called in turn within one millisecond free each other's counters: two requests of the
first key are admitted where the rule allows one. -/
theorem admitted_over_bound :
    ∃ cs : List Call, Monotone cs ∧ Along (step ⟨4096⟩) (Roomy ⟨4096⟩) Shm.init cs ∧
      (∀ c ∈ cs, c.rule = oneASecond) ∧
      ¬1000 * admitted ⟨4096⟩ oneASecond [65] 0 0 Shm.init cs ≤
        1000 + oneASecond.burst + oneASecond.rate * 0 / 1000 :=
  ⟨[callOf 65 0, callOf 66 0, callOf 65 0], by unfold Monotone; decide +kernel,
    by decide +kernel, by decide +kernel, by decide +kernel⟩

end Rate
