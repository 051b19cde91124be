import PlacitumNode.Lib.Framing
import PlacitumNode.Lib.Machine
import PlacitumNode.Lib.Run

/-!
# The frame verdict cache (`local/ngx_http_waf_frame_cache.c`)

A frame that was allowed is remembered for a while under its route, phase, opcode and digest, in a table
in shared memory that is probed at eight places from a place that the digest fixes.

* `fcacheLookup`, `fcacheInsert`: the two operations, under the lock of the zone;
* `Inv`: an entry stands at a place of its key, at one only, with the end that its last insertion gave it;
* `inv_step`: every operation keeps it;
* `frame_cache_sound`: a hit was inserted and has not ended, no key has two entries, and an inserted frame
  is found until its end.
-/

namespace FrameCache

open Octets Machine Run Framing

/-! ### The table -/

/-- `NGX_HTTP_WAF_FCACHE_ENTRIES` -/
def entries : ℕ := 4096

/-- The arguments that name a frame. -/
structure Key where
  route : ℕ
  phase : ℕ
  opcode : ℕ
  sha256 : Bytes
  deriving DecidableEq

/-- `ngx_http_waf_fcache_entry_t` -/
structure Entry where
  digest : Bytes
  route : ℕ
  phase : ℕ
  opcode : ℕ
  expires : ℕ
  deriving DecidableEq

/-- `ngx_http_waf_fcache_t` -/
abbrev Fcache := ℕ → Entry

/-- The table as the master allocates it. -/
def Fcache.zero : Fcache := fun _ => ⟨List.replicate 16 0, 0, 0, 0, 0⟩

/-- `ngx_http_waf_fcache_slot` -/
def fcacheSlot (digest : Bytes) : ℕ := be (digest.take 8) &&& (entries - 1)

/-- The places that are probed, in order. -/
def places (digest : Bytes) : List ℕ :=
  (List.range 8).map fun i => (fcacheSlot digest + i) &&& (entries - 1)

/-- The entry is in use and names the frame. -/
def Entry.isFor (e : Entry) (k : Key) : Bool :=
  e.expires ≠ 0 && e.route = k.route && e.phase = k.phase && e.opcode = k.opcode &&
    e.digest = k.sha256.take 16

/-- The entry has ended. -/
def Entry.ended (e : Entry) (now : ℕ) : Bool := decide (signed ((e.expires : ℤ) - now) ≤ 0)

/-! ### The operations -/

/-- The probes of `ngx_http_waf_fcache_lookup`: an entry that has ended is given up on the way. -/
def lookupLoop (k : Key) (now : ℕ) : List ℕ → Fcache → Bool × Fcache
  | [], fc => (false, fc)
  | p :: ps, fc =>
    if (fc p).expires = 0 then lookupLoop k now ps fc
    else if !(fc p).isFor k then lookupLoop k now ps fc
    else if (fc p).ended now then
      lookupLoop k now ps (Function.update fc p { fc p with expires := 0 })
    else (true, fc)

/-- `ngx_http_waf_fcache_lookup`: whether the answer is `NGX_OK`, and the table. -/
def fcacheLookup (fc : Fcache) (k : Key) (now : ℕ) : Bool × Fcache :=
  lookupLoop k now (places k.sha256) fc

/-- The probes of `ngx_http_waf_fcache_insert`: the entry of the frame, else the first free one, else the
one that ends first. -/
def insertLoop (fc : Fcache) (k : Key) (now : ℕ) : List ℕ → Option ℕ → Option ℕ → Option ℕ
  | [], empty, soonest => empty <|> soonest
  | p :: ps, empty, soonest =>
    if (fc p).isFor k then some p
    else if (fc p).expires = 0 ∨ (fc p).ended now then
      insertLoop fc k now ps (empty <|> some p) soonest
    else
      let sooner := match soonest with
        | none => true
        | some q => decide (signed (((fc p).expires : ℤ) - (fc q).expires) < 0)
      insertLoop fc k now ps empty (if sooner then some p else soonest)

/-- `ngx_http_waf_fcache_insert` -/
def fcacheInsert (fc : Fcache) (k : Key) (ttl now : ℕ) : Fcache :=
  if ttl = 0 then fc
  else
    match insertLoop fc k now (places k.sha256) none none with
    | none => fc
    | some victim =>
      Function.update fc victim
        ⟨k.sha256.take 16, k.route, k.phase % 256, k.opcode % 256, (now + ttl) % 2 ^ 64⟩

/-! ### Sequences of calls -/

inductive Call
  | lookup (k : Key) (now : ℕ)
  | insert (k : Key) (ttl now : ℕ)
  deriving DecidableEq

def Call.key : Call → Key
  | lookup k _ => k
  | insert k _ _ => k

def Call.now : Call → ℕ
  | lookup _ now => now
  | insert _ _ now => now

/-- The phase is a number of a phase and the opcode one of four bits, as the callers have them. -/
def Call.Proper (c : Call) : Prop := c.key.phase < 256 ∧ c.key.opcode < 256

instance (c : Call) : Decidable c.Proper := inferInstanceAs (Decidable (_ ∧ _))

def step (fc : Fcache) : Call → Fcache
  | .lookup k now => (fcacheLookup fc k now).2
  | .insert k ttl now => fcacheInsert fc k ttl now

/-- The route, the phase, the opcode and the first sixteen bytes of the digest. -/
def Key.id (k : Key) : ℕ × ℕ × ℕ × Bytes := (k.route, k.phase, k.opcode, k.sha256.take 16)

/-- The time and the duration of the last insertion of a frame; one for no time stores nothing. -/
def latest (id : ℕ × ℕ × ℕ × Bytes) : List Call → Option (ℕ × ℕ)
  | [] => none
  | c :: cs =>
    match latest id cs with
    | some x => some x
    | none =>
      match c with
      | .lookup _ _ => none
      | .insert k ttl now => if k.id = id ∧ ttl ≠ 0 then some (now, ttl) else none

/-! ### What the probes do -/

section

variable {fc : Fcache} {k : Key} {now : ℕ} {ps : List ℕ} {p q : ℕ} {e : Entry}

def Entry.id (e : Entry) : ℕ × ℕ × ℕ × Bytes := (e.route, e.phase, e.opcode, e.digest)

theorem isFor_iff : e.isFor k = true ↔ e.expires ≠ 0 ∧ e.id = k.id := by
  simp [Entry.isFor, Entry.id, Key.id, and_assoc]

/-- The places of a frame are told by the bytes that are kept of its digest. -/
theorem places_take (digest : Bytes) : places (digest.take 16) = places digest := by
  simp [places, fcacheSlot, List.take_take]

theorem places_ne_nil (digest : Bytes) : places digest ≠ [] := by
  simp [places]

/-- A lookup changes entries of the frame that have ended, and gives them up. -/
theorem lookupLoop_frame (ps : List ℕ) (fc : Fcache) (p : ℕ) :
    (lookupLoop k now ps fc).2 p = fc p ∨
      (fc p).isFor k = true ∧ (fc p).ended now = true ∧
        (lookupLoop k now ps fc).2 p = { fc p with expires := 0 } := by
  induction ps generalizing fc with
  | nil => exact .inl rfl
  | cons q ps ih =>
    simp only [lookupLoop]
    split
    · exact ih fc
    split
    · exact ih fc
    next hfor =>
    split
    · next hended =>
      rw [Bool.not_eq_true', Bool.not_eq_false] at hfor
      by_cases hpq : p = q
      · subst hpq
        rcases ih (Function.update fc p { fc p with expires := 0 }) with h | ⟨h, -⟩
        · rw [Function.update_self] at h
          exact .inr ⟨hfor, hended, h⟩
        · rw [Function.update_self] at h
          exact absurd rfl (isFor_iff.1 h).1
      · have h := ih (Function.update fc q { fc q with expires := 0 })
        rwa [Function.update_of_ne hpq] at h
    · exact .inl rfl

/-- A hit is an entry of the frame that has not ended, and any such entry is a hit. -/
theorem lookupLoop_hit (ps : List ℕ) (fc : Fcache) : (lookupLoop k now ps fc).1 = true ↔
    ∃ p ∈ ps, (fc p).isFor k = true ∧ (fc p).ended now = false := by
  induction ps generalizing fc with
  | nil => simp [lookupLoop]
  | cons q ps ih =>
    simp only [lookupLoop, List.exists_mem_cons_iff]
    split
    · next h0 =>
      have hnot : (fc q).isFor k = false := by
        rw [← Bool.not_eq_true, isFor_iff]
        exact fun h => h.1 h0
      simp [ih, hnot]
    split
    · next hfor =>
      rw [Bool.not_eq_true'] at hfor
      simp [ih, hfor]
    next hfor =>
    rw [Bool.not_eq_true', Bool.not_eq_false] at hfor
    split
    · next hended =>
      rw [ih]
      simp only [hended, Bool.true_eq_false, and_false, false_or]
      refine exists_congr fun p => and_congr_right fun _ => ?_
      by_cases hpq : p = q
      · subst hpq
        rw [Function.update_self]
        simp [Entry.isFor, hended]
      · rw [Function.update_of_ne hpq]
    · next hended =>
      simp [hfor, Bool.not_eq_true _ ▸ hended]

theorem insertLoop_mem {empty soonest : Option ℕ} {v : ℕ}
    (h : insertLoop fc k now ps empty soonest = some v) :
    v ∈ ps ∨ empty = some v ∨ soonest = some v := by
  induction ps generalizing empty soonest with
  | nil =>
    simp only [insertLoop] at h
    cases empty with
    | none => exact .inr (.inr h)
    | some _ => exact .inr (.inl h)
  | cons p ps ih =>
    simp only [insertLoop] at h
    split at h
    · cases h
      exact .inl List.mem_cons_self
    split at h
    · rcases ih h with h | h | h
      · exact .inl (List.mem_cons_of_mem p h)
      · cases empty with
        | none =>
          cases h
          exact .inl List.mem_cons_self
        | some _ => exact .inr (.inl h)
      · exact .inr (.inr h)
    · rcases ih h with h | h | h
      · exact .inl (List.mem_cons_of_mem p h)
      · exact .inr (.inl h)
      · split_ifs at h
        · cases h
          exact .inl List.mem_cons_self
        · exact .inr (.inr h)

/-- An entry of the frame is written over. -/
theorem insertLoop_found {empty soonest : Option ℕ} {v : ℕ}
    (h : insertLoop fc k now ps empty soonest = some v) (hp : p ∈ ps) (hfor : (fc p).isFor k = true) :
    (fc v).isFor k = true := by
  induction ps generalizing empty soonest with
  | nil => cases hp
  | cons q ps ih =>
    simp only [insertLoop] at h
    split at h
    · next hq =>
      cases h
      exact hq
    next hq =>
    have hrest : p ∈ ps := by
      rcases List.mem_cons.1 hp with rfl | hp
      · exact absurd hfor hq
      · exact hp
    split at h
    · exact ih h hrest
    · exact ih h hrest

theorem insertLoop_some {empty soonest : Option ℕ} (h : ps ≠ [] ∨ empty.isSome ∨ soonest.isSome) :
    (insertLoop fc k now ps empty soonest).isSome := by
  induction ps generalizing empty soonest with
  | nil =>
    simp only [insertLoop]
    cases empty with
    | none => simpa using h
    | some _ => rfl
  | cons p ps ih =>
    simp only [insertLoop]
    split
    · rfl
    split
    · refine ih (.inr (.inl ?_))
      cases empty <;> rfl
    · refine ih (.inr (.inr ?_))
      cases soonest with
      | none => rfl
      | some q =>
        simp only
        split <;> rfl

end

/-! ### The invariant -/

/-- An entry stands at one of its places, at one only, with the end that its last insertion gave it. -/
structure Inv (hist : List Call) (fc : Fcache) : Prop where
  placed : ∀ p, (fc p).expires ≠ 0 → p ∈ places (fc p).digest
  one : ∀ p q, (fc p).expires ≠ 0 → (fc q).expires ≠ 0 → (fc p).id = (fc q).id → p = q
  last : ∀ p, (fc p).expires ≠ 0 → ∃ t ttl, latest (fc p).id hist = some (t, ttl) ∧
    (fc p).expires = (t + ttl) % 2 ^ 64

section

variable {hist : List Call} {fc : Fcache} {k : Key} {p v : ℕ} {ttl now : ℕ} {c : Call}

theorem latest_concat (id : ℕ × ℕ × ℕ × Bytes) (hist : List Call) (c : Call) :
    latest id (hist ++ [c]) = (latest id [c]).or (latest id hist) := by
  have hcons : ∀ d cs, latest id (d :: cs) = (latest id cs).or (latest id [d]) := by
    intro d cs
    simp only [latest]
    cases latest id cs <;> rfl
  induction hist with
  | nil => simp [latest]
  | cons d hist ih => rw [List.cons_append, hcons, ih, hcons d hist, Option.or_assoc]

theorem inv_zero : Inv [] .zero where
  placed _ h := absurd rfl h
  one _ _ h := absurd rfl h
  last _ h := absurd rfl h

/-- A frame that has an entry has it where its entries are looked for. -/
theorem Inv.found (hi : Inv hist fc) (hfor : (fc p).isFor k = true) : p ∈ places k.sha256 := by
  obtain ⟨hlive, hid⟩ := isFor_iff.1 hfor
  have hdigest : (fc p).digest = k.sha256.take 16 := congrArg (fun x => x.2.2.2) hid
  have h := hi.placed p hlive
  rwa [hdigest, places_take] at h

theorem Inv.lookup (hi : Inv hist fc) (k : Key) (now : ℕ) :
    Inv (hist ++ [.lookup k now]) (fcacheLookup fc k now).2 := by
  have hsame : ∀ p, ((fcacheLookup fc k now).2 p).expires ≠ 0 →
      (fcacheLookup fc k now).2 p = fc p := by
    intro p hp
    rcases lookupLoop_frame (places k.sha256) fc p with h | ⟨-, -, h⟩
    · exact h
    · refine absurd ?_ hp
      exact congrArg Entry.expires h
  have hlatest : ∀ id, latest id (hist ++ [.lookup k now]) = latest id hist := fun id => by
    rw [latest_concat]
    rfl
  constructor
  · intro p hp
    have h := hsame p hp
    rw [h] at hp ⊢
    exact hi.placed p hp
  · intro p q hp hq hid
    have h := hsame p hp
    have h' := hsame q hq
    rw [h] at hp hid
    rw [h'] at hq hid
    exact hi.one p q hp hq hid
  · intro p hp
    have h := hsame p hp
    rw [h] at hp ⊢
    rw [hlatest]
    exact hi.last p hp

theorem Inv.insert (hi : Inv hist fc) (hproper : (Call.insert k ttl now).Proper) :
    Inv (hist ++ [.insert k ttl now]) (fcacheInsert fc k ttl now) := by
  have hlatest : ∀ id, latest id (hist ++ [.insert k ttl now]) =
      if k.id = id ∧ ttl ≠ 0 then some (now, ttl) else latest id hist := fun id => by
    rw [latest_concat]
    simp only [latest]
    split <;> rfl
  unfold fcacheInsert
  by_cases h0 : ttl = 0
  · rw [if_pos h0]
    refine ⟨hi.placed, hi.one, fun p hp => ?_⟩
    rw [hlatest, if_neg fun h => h.2 h0]
    exact hi.last p hp
  rw [if_neg h0]
  -- The window is not empty, so that the probe always ends with a victim in it.
  have hsome : (insertLoop fc k now (places k.sha256) none none).isSome :=
    insertLoop_some (.inl (places_ne_nil _))
  obtain ⟨v, hv⟩ := Option.isSome_iff_exists.1 hsome
  rw [hv]
  simp only
  have hmem : v ∈ places k.sha256 := by
    rcases insertLoop_mem hv with h | h | h
    · exact h
    · cases h
    · cases h
  set e : Entry := ⟨k.sha256.take 16, k.route, k.phase % 256, k.opcode % 256, (now + ttl) % 2 ^ 64⟩
    with he
  have hphase : k.phase < 256 := hproper.1
  have hopcode : k.opcode < 256 := hproper.2
  have hid : e.id = k.id := by
    simp [he, Entry.id, Key.id, Nat.mod_eq_of_lt hphase, Nat.mod_eq_of_lt hopcode]
  -- a frame that had an entry is written over it, so the new entry is the only one
  have hother : ∀ p, p ≠ v → (fc p).expires ≠ 0 → (fc p).id ≠ k.id := by
    intro p hpv hp hpk
    have hfor : (fc p).isFor k = true := isFor_iff.2 ⟨hp, hpk⟩
    have hforv := isFor_iff.1 (insertLoop_found hv (hi.found hfor) hfor)
    exact hpv (hi.one p v hp hforv.1 (hpk.trans hforv.2.symm))
  constructor
  · intro p hp
    by_cases hpv : p = v
    · subst hpv
      rw [Function.update_self, places_take]
      exact hmem
    · rw [Function.update_of_ne hpv] at hp ⊢
      exact hi.placed p hp
  · intro p q hp hq hpq
    by_cases hpv : p = v <;> by_cases hqv : q = v
    · rw [hpv, hqv]
    · subst hpv
      rw [Function.update_self, Function.update_of_ne hqv, hid] at hpq
      rw [Function.update_of_ne hqv] at hq
      exact absurd hpq.symm (hother q hqv hq)
    · subst hqv
      rw [Function.update_self, Function.update_of_ne hpv, hid] at hpq
      rw [Function.update_of_ne hpv] at hp
      exact absurd hpq (hother p hpv hp)
    · rw [Function.update_of_ne hpv] at hp hpq
      rw [Function.update_of_ne hqv] at hq hpq
      exact hi.one p q hp hq hpq
  · intro p hp
    rw [hlatest]
    by_cases hpv : p = v
    · subst hpv
      rw [Function.update_self, hid, if_pos ⟨rfl, h0⟩]
      exact ⟨now, ttl, rfl, rfl⟩
    · rw [Function.update_of_ne hpv] at hp ⊢
      rw [if_neg fun h => hother p hpv hp h.1.symm]
      exact hi.last p hp

/-- **Step lemma.** -/
theorem inv_step (hi : Inv hist fc) (hproper : c.Proper) : Inv (hist ++ [c]) (step fc c) := by
  cases c with
  | lookup k now => exact hi.lookup k now
  | insert k ttl now => exact hi.insert hproper

theorem inv_run (calls : List Call) (hproper : ∀ c ∈ calls, c.Proper) :
    Inv calls (runFrom step .zero calls) := by
  induction calls using List.reverseRecOn with
  | nil => exact inv_zero
  | append_singleton calls c ih =>
    rw [runFrom_append]
    exact inv_step (ih fun d hd => hproper d (List.mem_append_left _ hd)) (hproper c (by simp))

/-! ### Hits -/

theorem ended_iff {e : Entry} {t ttl : ℕ} (he : e.expires = (t + ttl) % 2 ^ 64) (now : ℕ) :
    e.ended now = true ↔ signed (((t + ttl : ℕ) : ℤ) - now) ≤ 0 := by
  have hneg : signed (((t + ttl) % 2 ^ 64 : ℕ) - (now : ℤ)) = signed (((t + ttl : ℕ) : ℤ) - now) := by
    have hdiv := Nat.mod_add_div (t + ttl) (2 ^ 64)
    unfold signed
    have h := Int.add_mul_bmod_self_left (((t + ttl) % 2 ^ 64 : ℕ) - (now : ℤ)) (2 ^ 64)
      (((t + ttl) / 2 ^ 64 : ℕ) : ℤ)
    rw [← h]
    congr 1
    push_cast
    omega
  rw [Entry.ended, he, decide_eq_true_eq, hneg]

/-- **A hit was inserted.**  The last insertion of the frame has not ended, unless the clock has gone on
for half its range after it. -/
theorem Inv.hit (hi : Inv hist fc) (h : (fcacheLookup fc k now).1 = true) :
    ∃ t ttl, latest k.id hist = some (t, ttl) ∧ (now < t + ttl ∨ t + ttl + 2 ^ 63 < now) := by
  obtain ⟨p, -, hfor, hended⟩ := (lookupLoop_hit _ fc).1 h
  obtain ⟨hlive, hid⟩ := isFor_iff.1 hfor
  obtain ⟨t, ttl, hlatest, hexp⟩ := hi.last p hlive
  rw [hid] at hlatest
  refine ⟨t, ttl, hlatest, ?_⟩
  by_contra hcon
  rw [not_or, Nat.not_lt, Nat.not_lt] at hcon
  have hleft : signed (((t + ttl : ℕ) : ℤ) - now) = ((t + ttl : ℕ) : ℤ) - now := by
    clear hexp
    exact signed_eq_self (by omega) (by omega)
  have hend : (fc p).ended now = true := (ended_iff hexp now).2 (by omega)
  rw [hended] at hend
  cases hend

/-- An entry that has not ended outlives lookups. -/
theorem lookups_keep {cs : List Call} (hcs : ∀ c ∈ cs, ∃ k now, c = .lookup k now)
    (hkeep : ∀ c ∈ cs, (fc p).ended c.now = false) : runFrom step fc cs p = fc p := by
  induction cs generalizing fc with
  | nil => rfl
  | cons c cs ih =>
    obtain ⟨k, now, rfl⟩ := hcs c List.mem_cons_self
    have halive : (fc p).ended now = false := hkeep (.lookup k now) List.mem_cons_self
    have hframe : (fcacheLookup fc k now).2 p = fc p ∨ (fc p).isFor k = true ∧
        (fc p).ended now = true ∧ _ := lookupLoop_frame (places k.sha256) fc p
    have hsame : step fc (.lookup k now) p = fc p := by
      rcases hframe with h | ⟨-, h, -⟩
      · exact h
      · rw [halive] at h
        cases h
    rw [runFrom_cons, ih (fun d hd => hcs d (List.mem_cons_of_mem _ hd)), hsame]
    intro d hd
    rw [hsame]
    exact hkeep d (List.mem_cons_of_mem _ hd)

end

/-! ### The result -/

/-- **The cache invents no allow.**  After any calls with a clock that does not go back: a frame that is
found was inserted, and its last insertion has not ended (unless it ended half the clock's range ago); no
frame has two entries; and a frame that was inserted, for less than half the range and not to the very
moment when the clock wraps around, is found until its end when only lookups follow. -/
theorem frame_cache_sound (calls : List Call) (hproper : ∀ c ∈ calls, c.Proper)
    (hclock : calls.Pairwise fun c d => c.now ≤ d.now) (k : Key) (now : ℕ) (hword : now < 2 ^ 64)
    (hnow : ∀ c ∈ calls, c.now ≤ now) :
    let fc := runFrom step .zero calls
    ((fcacheLookup fc k now).1 = true → ∃ t ttl, latest k.id calls = some (t, ttl) ∧
      (now < t + ttl ∨ t + ttl + 2 ^ 63 < now)) ∧
    (∀ p q, (fc p).expires ≠ 0 → (fc q).expires ≠ 0 → (fc p).id = (fc q).id → p = q) ∧
    ∀ pre k' ttl t mid, calls = pre ++ .insert k' ttl t :: mid → k'.id = k.id →
      (∀ c ∈ mid, ∃ k'' u, c = .lookup k'' u) → 0 < ttl → ttl < 2 ^ 63 → t + ttl ≠ 2 ^ 64 →
      now < t + ttl → (fcacheLookup fc k now).1 = true := by
  intro fc
  have hi : Inv calls fc := inv_run calls hproper
  refine ⟨hi.hit, hi.one, ?_⟩
  rintro pre k' ttl t mid rfl hid hmid h0 httl hwrap hend
  set before := runFrom step .zero (pre ++ [.insert k' ttl t]) with hbefore
  have hfc : fc = runFrom step before mid := by
    rw [hbefore, ← runFrom_append, List.append_assoc, List.singleton_append]
  have hinsert : before = fcacheInsert (runFrom step .zero pre) k' ttl t := by
    rw [hbefore, runFrom_append]
    rfl
  -- the place the frame was written to
  have hsome : (insertLoop (runFrom step .zero pre) k' t (places k'.sha256) none none).isSome :=
    insertLoop_some (.inl (places_ne_nil _))
  obtain ⟨v, hv⟩ := Option.isSome_iff_exists.1 hsome
  have hmem : v ∈ places k'.sha256 := by
    rcases insertLoop_mem hv with h | h | h
    · exact h
    · cases h
    · cases h
  have hentry : before v = ⟨k'.sha256.take 16, k'.route, k'.phase % 256, k'.opcode % 256,
      (t + ttl) % 2 ^ 64⟩ := by
    rw [hinsert, fcacheInsert, if_neg h0.ne', hv]
    exact Function.update_self ..
  have hexp : (before v).expires = (t + ttl) % 2 ^ 64 := by rw [hentry]
  -- it has not ended at any time from the insertion to the lookup
  have hsplit := List.pairwise_append.1 hclock
  have hlater : ∀ c ∈ mid, t ≤ c.now := (List.pairwise_cons.1 hsplit.2.1).1
  have htime : t ≤ now := hnow (.insert k' ttl t) (by simp)
  have hbefore' : ∀ u, t ≤ u → u ≤ now → (before v).ended u = false := by
    intro u htu hu
    rw [← Bool.not_eq_true, ended_iff hexp, signed_eq_self (by omega) (by omega)]
    omega
  have hkept : fc v = before v := by
    rw [hfc]
    refine lookups_keep hmid fun c hc => hbefore' c.now (hlater c hc) (hnow c ?_)
    simp [hc]
  have hproper' := hproper (.insert k' ttl t) (by simp)
  have hphase : k'.phase < 256 := hproper'.1
  have hopcode : k'.opcode < 256 := hproper'.2
  have hfor : (fc v).isFor k = true := by
    refine isFor_iff.2 ⟨?_, ?_⟩
    · rw [hkept, hexp]
      omega
    · rw [hkept, hentry, ← hid]
      simp [Entry.id, Key.id, Nat.mod_eq_of_lt hphase, Nat.mod_eq_of_lt hopcode]
  refine (lookupLoop_hit _ fc).2 ⟨v, hi.found hfor, hfor, ?_⟩
  rw [hkept]
  exact hbefore' now htime le_rfl

/-- A frame. -/
def textFrame : Key := ⟨7, 2, 1, List.replicate 32 5⟩

/-- What the bounds on the durations and on the clock are for.  An insertion for no time leaves the older
one in force; an entry comes back half the clock's range after its end; and one for more than half the
range is not found. -/
theorem frame_cache_bounds :
    (fcacheLookup (runFrom step .zero [.insert textFrame 100 0, .insert textFrame 0 5])
      textFrame 10).1 = true ∧
    (fcacheLookup (runFrom step .zero [.insert textFrame 1 0]) textFrame (2 ^ 63 + 5)).1 = true ∧
    (fcacheLookup (runFrom step .zero [.insert textFrame (2 ^ 63 + 5) 0]) textFrame 1).1 = false := by
  decide +kernel

/-- A frame is allowed for a hundred milliseconds, and looked for after fifty. -/
theorem frame_cache_sound_once :
    (fcacheLookup (runFrom step .zero [.insert textFrame 100 0, .lookup textFrame 20])
      textFrame 50).1 = true :=
  (frame_cache_sound [.insert textFrame 100 0, .lookup textFrame 20] (by decide) (by decide) textFrame 50
    (by decide) (by decide)).2.2 [] textFrame 100 0 [.lookup textFrame 20] rfl rfl
    (by simp) (by decide) (by decide) (by decide) (by decide)

end FrameCache
