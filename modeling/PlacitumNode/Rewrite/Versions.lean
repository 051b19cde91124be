import PlacitumNode.Wave.Phase

/-!
# Versions of a rewritten body (`runtime/ngx_http_waf_handler.c`, `body/ngx_http_waf_body.c`)

An inspector may put another body in place of the one it was shown.  Its reply names the object and
its size, and the end of the wave makes it the live version, which the later waves are shown.

* `settle`: `ngx_http_waf_rewrite_settle`, with every field of the locator;
* `settle_agrees`: on the fields of the phase it is the settling of the waves;
* `locatorWrite`, `storeWriteBody`: what the inspectors are shown of the body;
* `published`: the replies whose bodies became versions;
* `versions_described`: the live version and what is shown of it, along every run.
-/

namespace Rewrites

open Octets Flags Waves Run

/-- `NGX_HTTP_WAF_BODY_*` -/
inductive Unavailable
  | available
  | oversize
  | storeError
  | storeUnconfigured
  deriving DecidableEq

/-- `ngx_http_waf_body_unavail_names` -/
def Unavailable.name : Unavailable → Bytes
  | available => ascii "available"
  | oversize => ascii "oversize"
  | storeError => ascii "store_error"
  | storeUnconfigured => ascii "store_unconfigured"

/-- `ngx_http_waf_locator_t` -/
structure Locator where
  store : Bytes
  driver : Bytes
  key : Bytes
  inlineData : Option Bytes
  size : ℕ
  declaredSize : ℕ
  sha256 : Bytes
  expiresAt : ℕ
  encoding : Bytes
  hint : Bytes
  offset : ℕ
  unavailable : Unavailable
  hasSha256 : Bool
  complete : Bool
  truncated : Bool
  deriving DecidableEq

/-- The fields of `ngx_http_waf_phase_ctx_t` that belong to the body and its versions. -/
structure PhaseCtx where
  locator : Option Locator
  live : Option Locator
  stale : List Bytes
  rewriteDepth : ℕ
  rewriteLast : ℕ
  rewriteApplied : Mask
  fail : Code

/-- The end of a wave: who answered, the replies, and whether the locator and the place in `stale` can
be allocated. -/
structure WaveEnd where
  got : Mask
  replies : Index → Reply
  memLive : Bool
  memStale : Bool

/-- The declared inspectors. -/
def inspectors (n : ℕ) : List Index := (List.finRange 64).filter fun i => i.val < n

/-- The tests of the loop. -/
def WaveEnd.rewrites (w : WaveEnd) (i : Index) : Bool :=
  has w.got i && (w.replies i).received && !(w.replies i).passive && !(w.replies i).vote
    && (w.replies i).rewriteHas && (w.replies i).rewriteBody && (w.replies i).verdict != .deny

/-- `found` in the loop of `ngx_http_waf_rewrite_settle`; no result is a second rewrite. -/
def findRewriter (w : WaveEnd) : List Index → Option Index → Option (Option Index)
  | [], found => some found
  | i :: is, found =>
    if w.rewrites i then if found.isSome then none else findRewriter w is (some i)
    else findRewriter w is found

/-- `ngx_http_waf_store_locator_live` for the body -/
def storeLocatorLive (ph : PhaseCtx) : Option Locator :=
  match ph.live with
  | some live => some live
  | none => ph.locator

/-- The fields of the copy that a reply replaces. -/
def version (source : Locator) (r : Reply) : Locator :=
  { source with
    key := r.rewriteKey
    size := r.rewriteSize
    truncated := false
    inlineData := none
    sha256 := r.rewriteSha256.getD (List.replicate 32 0) }

/-- `NGX_HTTP_WAF_REWRITE_MAX_DEPTH` -/
def rewriteMaxDepth : ℕ := 8

/-- The end of `ngx_http_waf_rewrite_settle`. -/
def publish (ph : PhaseCtx) (live : Locator) (stale : List Bytes) (i : Index) : PhaseCtx :=
  { ph with
    live := some live
    stale := stale
    rewriteLast := i.val
    rewriteDepth := ph.rewriteDepth + 1
    rewriteApplied := ph.rewriteApplied ||| bit i }

/-- `ngx_http_waf_rewrite_settle` -/
def settle (n : ℕ) (ph : PhaseCtx) (w : WaveEnd) : PhaseCtx :=
  match findRewriter w (inspectors n) none with
  | none => { ph with fail := .failBody }
  | some none => ph
  | some (some i) =>
    if rewriteMaxDepth ≤ ph.rewriteDepth then { ph with fail := .failBody }
    else
      match storeLocatorLive ph with
      | none => ph
      | some source =>
        if w.memLive then
          match ph.live with
          | none => publish ph (version source (w.replies i)) ph.stale i
          | some old =>
            if w.memStale then publish ph (version source (w.replies i)) (ph.stale ++ [old.key]) i
            else { ph with fail := .failBody }
        else { ph with fail := .failBody }

/-! ### What the inspectors are shown -/

/-- The value of a member. -/
inductive Val
  | num (n : ℕ)
  | bool (b : Bool)
  | str (s : Bytes)
  deriving DecidableEq

/-- `ngx_hex_dump` -/
def hexDump (bs : Bytes) : Bytes :=
  bs.flatMap fun b => [hexDigit (b.toNat / 16), hexDigit (b.toNat % 16)]

/-- The members that `ngx_http_waf_locator_write` writes; `none` is the word null. -/
def locatorWrite (loc : Option Locator) (body attach address : Bool) : Option (List (String × Val)) :=
  match loc with
  | none => none
  | some loc =>
    if loc.unavailable ≠ .available then
      some ([("unavailable", .str loc.unavailable.name), ("size", .num loc.size)]
        ++ if body then [("declared_size", .num loc.declaredSize)] else [])
    else
      some ([("size", .num loc.size)]
        ++ (if body && loc.hasSha256 then [("sha256", .str (hexDump loc.sha256))] else [])
        ++ (if body then [("complete", .bool loc.complete), ("truncated", .bool loc.truncated),
            ("encoding", .str loc.encoding)] else [])
        ++ if attach then [("store", .str (ascii "attach")), ("offset", .num loc.offset)]
          else if address then
            (if loc.store ≠ [] then [("store", .str loc.store), ("driver", .str loc.driver),
              ("key", .str loc.key)] else [])
            ++ (if loc.expiresAt ≠ 0 then [("expires_at", .num loc.expiresAt)] else [])
            ++ if loc.hint ≠ [] then [("hint", .str loc.hint)] else []
          else [])

/-- The body in `ngx_http_waf_store_write_phase` of the current phase, where `visible` says whether the
phase captures it and `cap` is the limit of the capture (0 is none). -/
def storeWriteBody (ph : PhaseCtx) (visible : Bool) (cap : ℕ) : Option (List (String × Val)) :=
  match storeLocatorLive ph with
  | none => none
  | some loc =>
    if visible then
      let cap := if ph.live.isSome then 0 else cap
      locatorWrite (some (if cap ≠ 0 ∧ cap < loc.size then { loc with size := cap } else loc))
        true false true
    else none

/-! ### Runs -/

/-- The body is placed, or a wave ends. -/
inductive Event
  | place (loc : Locator)
  | settled (w : WaveEnd)

def step (n : ℕ) (ph : PhaseCtx) : Event → PhaseCtx
  | .place loc => if ph.locator.isSome then ph else { ph with locator := some loc }
  | .settled w => settle n ph w

/-- The inspectors whose rewrites count in a wave. -/
def rewriters (n : ℕ) (w : WaveEnd) : List Index := (inspectors n).filter w.rewrites

/-- The replies whose bodies became versions: a wave adds one when one inspector rewrote the body and
the chain is not too long. -/
def published (n : ℕ) (vs : List Reply) : Event → List Reply
  | .place _ => vs
  | .settled w =>
    match rewriters n w with
    | [i] => if vs.length < rewriteMaxDepth then vs ++ [w.replies i] else vs
    | _ => vs

/-- The versions of a run. -/
def versions (n : ℕ) (es : List Event) : List Reply := runFrom (published n) [] es

/-- A phase without a version. -/
structure PhaseCtx.Fresh (ph : PhaseCtx) : Prop where
  live : ph.live = none
  stale : ph.stale = []
  depth : ph.rewriteDepth = 0

/-- The digest that is known of the version that is shown. -/
def digest (loc : Locator) (vs : List Reply) : Option Bytes :=
  match vs.getLast? with
  | some r => r.rewriteSha256
  | none => if loc.unavailable = .available ∧ loc.hasSha256 = true then some loc.sha256 else none

/-- The live version is the last one, it is shown as what it is, and the others are stale. -/
structure Described (ph : PhaseCtx) (vs : List Reply) : Prop where
  live : (ph.live.map fun l => (l.key, l.size)) =
    vs.getLast?.map fun r => (r.rewriteKey, r.rewriteSize)
  sha256 : ∀ loc, ph.locator = some loc → ∀ cap, ∃ ms, storeWriteBody ph true cap = some ms ∧
    ms.lookup "sha256" = (digest loc vs).map fun d => .str (hexDump d)
  whole : ∀ r, vs.getLast? = some r → ∀ cap, ∃ ms, storeWriteBody ph true cap = some ms ∧
    ms.lookup "size" = some (.num r.rewriteSize) ∧ ms.lookup "complete" = some (.bool true) ∧
      ms.lookup "truncated" = some (.bool false)
  stale : ph.stale = vs.dropLast.map Reply.rewriteKey

/-- The one rewrite of a wave is of a body that is available, complete, and has a digest exactly when
the reply declares one; and nothing fails to be allocated. -/
def StepOk (n : ℕ) (ph : PhaseCtx) : Event → Prop
  | .place _ => True
  | .settled w => ∀ i, rewriters n w = [i] → ph.rewriteDepth < rewriteMaxDepth →
      (∃ loc, ph.locator = some loc ∧ loc.unavailable = .available ∧ loc.complete = true ∧
        loc.hasSha256 = (w.replies i).rewriteSha256.isSome) ∧
      w.memLive = true ∧ (ph.live.isSome = true → w.memStale = true)

/-! ### One wave -/

/-- With an inspector already found, another one is too many. -/
theorem findRewriter_some (w : WaveEnd) (is : List Index) (j : Index) :
    findRewriter w is (some j) = if is.filter w.rewrites = [] then some (some j) else none := by
  induction is with
  | nil => rfl
  | cons i is ih =>
    rw [findRewriter]
    by_cases hi : w.rewrites i = true
    · rw [if_pos hi, List.filter_cons_of_pos hi]
      rfl
    · rw [if_neg hi, List.filter_cons_of_neg hi]
      exact ih

/-- The loop finds the one inspector that rewrote the body. -/
theorem findRewriter_none (w : WaveEnd) (is : List Index) :
    findRewriter w is none = match is.filter w.rewrites with
      | [] => some none
      | [i] => some (some i)
      | _ => none := by
  induction is with
  | nil => rfl
  | cons i is ih =>
    rw [findRewriter]
    by_cases hi : w.rewrites i = true
    · rw [if_pos hi, List.filter_cons_of_pos hi, if_neg (by simp), findRewriter_some]
      cases is.filter w.rewrites <;> rfl
    · rw [if_neg hi, List.filter_cons_of_neg hi]
      exact ih

theorem settle_none {n : ℕ} {ph : PhaseCtx} {w : WaveEnd} (h : rewriters n w = []) :
    settle n ph w = ph := by
  unfold settle
  rw [findRewriter_none, show (inspectors n).filter w.rewrites = [] from h]

theorem settle_many {n : ℕ} {ph : PhaseCtx} {w : WaveEnd} {i j : Index} {is : List Index}
    (h : rewriters n w = i :: j :: is) : settle n ph w = { ph with fail := .failBody } := by
  unfold settle
  rw [findRewriter_none, show (inspectors n).filter w.rewrites = i :: j :: is from h]

theorem settle_deep {n : ℕ} {ph : PhaseCtx} {w : WaveEnd} {i : Index} (h : rewriters n w = [i])
    (hd : rewriteMaxDepth ≤ ph.rewriteDepth) : settle n ph w = { ph with fail := .failBody } := by
  unfold settle
  rw [findRewriter_none, show (inspectors n).filter w.rewrites = [i] from h]
  exact if_pos hd

/-- The one rewrite of a wave becomes the live version, when the memory suffices. -/
theorem settle_one {n : ℕ} {ph : PhaseCtx} {w : WaveEnd} {i : Index} {source : Locator}
    (h : rewriters n w = [i]) (hd : ph.rewriteDepth < rewriteMaxDepth)
    (hs : storeLocatorLive ph = some source) (hl : w.memLive = true)
    (hst : ph.live.isSome = true → w.memStale = true) :
    settle n ph w = publish ph (version source (w.replies i))
      (ph.stale ++ (ph.live.map Locator.key).toList) i := by
  unfold settle
  rw [findRewriter_none, show (inspectors n).filter w.rewrites = [i] from h]
  dsimp only
  rw [if_neg (by omega), hs]
  dsimp only
  rw [if_pos hl]
  cases hlive : ph.live with
  | none => simp
  | some old => simp [hst (by simp [hlive])]

/-! ### The waves -/

/-- The locator of the waves. -/
def Locator.core (loc : Locator) : Waves.Locator where
  key := loc.key
  size := loc.size
  truncated := loc.truncated
  inlineData := loc.inlineData
  sha256 := loc.sha256

/-- A phase and the state of its waves agree about the body. -/
structure Agrees (ph : PhaseCtx) (s : St) : Prop where
  locator : s.locator = ph.locator.map Locator.core
  live : s.live = ph.live.map Locator.core
  stale : s.stale = ph.stale
  depth : s.rewriteDepth = ph.rewriteDepth
  last : s.rewriteLast = ph.rewriteLast
  applied : s.rewriteApplied = ph.rewriteApplied
  fail : s.fail = ph.fail

/-- The end of a wave of the waves. -/
def waveEnd (s : St) (slot : SlotRec) : WaveEnd := ⟨slot.got, s.replies, true, true⟩

theorem rewriters_eq (c : Conf) (s : St) (slot : SlotRec) :
    Waves.rewriters c s slot = rewriters c.ninspectors (waveEnd s slot) := by
  unfold rewriters inspectors Waves.rewriters
  rw [List.filter_filter]
  refine List.filter_congr fun i _ => ?_
  simp only [WaveEnd.rewrites, waveEnd]
  cases decide (i.val < c.ninspectors) <;> simp

/-- The locator that is copied is the same one. -/
theorem Agrees.source {ph : PhaseCtx} {s : St} (h : Agrees ph s) :
    s.live.or s.locator = (storeLocatorLive ph).map Locator.core := by
  rw [h.live, h.locator]
  unfold storeLocatorLive
  cases ph.live <;> rfl

/-- The settling of the waves is this one. -/
theorem settle_agrees (c : Conf) {s : St} {ph : PhaseCtx} (slot : SlotRec) (h : Agrees ph s) :
    Agrees (settle c.ninspectors ph (waveEnd s slot)) (rewriteSettle c s slot) := by
  unfold rewriteSettle
  rw [rewriters_eq]
  rcases hr : rewriters c.ninspectors (waveEnd s slot) with _ | ⟨i, _ | ⟨j, is⟩⟩
  · rw [settle_none hr]
    exact h
  · dsimp only
    by_cases hd : 8 ≤ s.rewriteDepth
    · rw [if_pos hd, settle_deep hr (h.depth ▸ hd)]
      exact ⟨h.locator, h.live, h.stale, h.depth, h.last, h.applied, rfl⟩
    · rw [if_neg hd, h.source]
      cases hs : storeLocatorLive ph with
      | none =>
        have hsame : settle c.ninspectors ph (waveEnd s slot) = ph := by
          unfold settle
          rw [findRewriter_none, show (inspectors c.ninspectors).filter _ = [i] from hr]
          dsimp only
          rw [if_neg (h.depth ▸ hd), hs]
        rw [hsame]
        exact h
      | some source =>
        rw [settle_one hr (h.depth ▸ Nat.lt_of_not_le hd) hs rfl fun _ => rfl]
        refine ⟨h.locator, rfl, ?_, congrArg (· + 1) h.depth, rfl, ?_, h.fail⟩
        · have hlive := h.live
          cases hl : ph.live with
          | none => simp [publish, hl ▸ hlive, h.stale]
          | some old => simp [publish, hl ▸ hlive, h.stale, Locator.core]
        · exact congrArg (· ||| bit i) h.applied
  · rw [settle_many hr]
    exact ⟨h.locator, h.live, h.stale, h.depth, h.last, h.applied, rfl⟩

/-! ### The chain -/

/-- What a run keeps: each version was made of the original, whose flags it still has. -/
structure Chain (ph : PhaseCtx) (vs : List Reply) : Prop where
  depth : ph.rewriteDepth = vs.length
  original : vs = [] → ph.live = none
  last : ∀ r, vs.getLast? = some r → ∃ loc, ph.locator = some loc ∧
    ph.live = some (version loc r) ∧ loc.unavailable = .available ∧ loc.complete = true ∧
      loc.hasSha256 = r.rewriteSha256.isSome
  stale : ph.stale = vs.dropLast.map Reply.rewriteKey

theorem PhaseCtx.Fresh.chain {ph : PhaseCtx} (h : ph.Fresh) : Chain ph [] :=
  ⟨h.depth, fun _ => h.live, fun _ hr => by simp at hr, h.stale⟩

/-- A failure leaves the chain as it is. -/
theorem Chain.failed {ph : PhaseCtx} {vs : List Reply} (h : Chain ph vs) (code : Code) :
    Chain { ph with fail := code } vs :=
  ⟨h.depth, h.original, h.last, h.stale⟩

/-- The copied locator is the original one, or a version of it. -/
theorem Chain.source {ph : PhaseCtx} {vs : List Reply} (h : Chain ph vs) {loc : Locator}
    (hloc : ph.locator = some loc) :
    ∃ source, storeLocatorLive ph = some source ∧ ∀ r, version source r = version loc r := by
  rcases hlast : vs.getLast? with _ | r
  · refine ⟨loc, ?_, fun _ => rfl⟩
    rw [storeLocatorLive, h.original (List.getLast?_eq_none_iff.1 hlast)]
    exact hloc
  · obtain ⟨loc', hloc', hlive, -⟩ := h.last r hlast
    rw [hloc] at hloc'
    obtain rfl := Option.some.inj hloc'
    exact ⟨version loc r, by rw [storeLocatorLive, hlive], fun _ => rfl⟩

/-- The key of the version that is replaced joins the stale ones. -/
theorem Chain.superseded {ph : PhaseCtx} {vs : List Reply} (h : Chain ph vs) :
    ph.stale ++ (ph.live.map Locator.key).toList = vs.map Reply.rewriteKey := by
  rcases hlast : vs.getLast? with _ | r
  · obtain rfl := List.getLast?_eq_none_iff.1 hlast
    rw [h.stale, h.original rfl]
    rfl
  · obtain ⟨loc, -, hlive, -⟩ := h.last r hlast
    obtain ⟨init, rfl⟩ := List.getLast?_eq_some_iff.1 hlast
    rw [h.stale, hlive]
    simp [version]

/-- One wave. -/
theorem Chain.settled {n : ℕ} {ph : PhaseCtx} {vs : List Reply} {w : WaveEnd} (h : Chain ph vs)
    (ok : StepOk n ph (.settled w)) : Chain (settle n ph w) (published n vs (.settled w)) := by
  rcases hr : rewriters n w with _ | ⟨i, _ | ⟨j, is⟩⟩
  · simp only [published, hr]
    rw [settle_none hr]
    exact h
  · simp only [published, hr]
    by_cases hd : vs.length < rewriteMaxDepth
    · obtain ⟨⟨loc, hloc, hav, hco, hsha⟩, hl, hst⟩ := ok i hr (h.depth ▸ hd)
      obtain ⟨source, hs, hversion⟩ := h.source hloc
      rw [if_pos hd, settle_one hr (h.depth ▸ hd) hs hl hst, hversion, h.superseded]
      refine ⟨by simp [publish, h.depth], by simp, fun r hr => ?_, by simp [publish]⟩
      rw [List.getLast?_concat, Option.some.injEq] at hr
      subst hr
      exact ⟨loc, hloc, rfl, hav, hco, hsha⟩
    · rw [if_neg hd, settle_deep hr (by rw [h.depth]; omega)]
      exact h.failed _
  · simp only [published, hr]
    rw [settle_many hr]
    exact h.failed _

/-- One step. -/
theorem chain_step {n : ℕ} {ph : PhaseCtx} {vs : List Reply} (e : Event) (h : Chain ph vs)
    (ok : StepOk n ph e) : Chain (step n ph e) (published n vs e) := by
  cases e with
  | place loc =>
    simp only [step, published]
    split_ifs with hp
    · exact h
    · refine ⟨h.depth, h.original, fun r hr => ?_, h.stale⟩
      obtain ⟨loc', hloc', -⟩ := h.last r hr
      simp [hloc'] at hp
  | settled w => exact h.settled ok

/-- A run. -/
theorem chain_run {n : ℕ} {ph : PhaseCtx} {vs : List Reply} {es : List Event} (h : Chain ph vs)
    (ok : Along (step n) (StepOk n) ph es) :
    Chain (runFrom (step n) ph es) (runFrom (published n) vs es) := by
  induction es generalizing ph vs with
  | nil => exact h
  | cons e es ih => exact ih (chain_step e h ok.1) ok.2

/-! ### What is shown -/

/-- Where the object is found. -/
def address (loc : Locator) : List (String × Val) :=
  (if loc.store ≠ [] then [("store", .str loc.store), ("driver", .str loc.driver),
    ("key", .str loc.key)] else [])
  ++ (if loc.expiresAt ≠ 0 then [("expires_at", .num loc.expiresAt)] else [])
  ++ if loc.hint ≠ [] then [("hint", .str loc.hint)] else []

/-- The address says nothing of the body. -/
theorem lookup_address (loc : Locator) {name : String}
    (h : name ∉ ["store", "driver", "key", "expires_at", "hint"]) :
    (address loc).lookup name = none := by
  rw [List.lookup_eq_none_iff]
  intro p hp
  have hmem : p.1 ∈ ["store", "driver", "key", "expires_at", "hint"] := by
    simp only [address, List.mem_append] at hp
    rcases hp with (hp | hp) | hp <;> split_ifs at hp <;>
      simp only [List.mem_cons, List.not_mem_nil, or_false] at hp
    · rcases hp with rfl | rfl | rfl <;> simp
    · simp [hp]
    · simp [hp]
  have hne : name ≠ p.1 := fun hn => h (hn ▸ hmem)
  simpa using hne

theorem write_available {loc : Locator} (h : loc.unavailable = .available) :
    locatorWrite (some loc) true false true = some ([("size", .num loc.size)]
      ++ (if loc.hasSha256 then [("sha256", .str (hexDump loc.sha256))] else [])
      ++ [("complete", .bool loc.complete), ("truncated", .bool loc.truncated),
        ("encoding", .str loc.encoding)] ++ address loc) := by
  unfold locatorWrite
  dsimp only
  rw [if_neg (not_not.2 h)]
  rfl

theorem write_unavailable {loc : Locator} (h : loc.unavailable ≠ .available) :
    locatorWrite (some loc) true false true = some [("unavailable", .str loc.unavailable.name),
      ("size", .num loc.size), ("declared_size", .num loc.declaredSize)] := by
  unfold locatorWrite
  dsimp only
  rw [if_pos h]
  rfl

/-- The digest is shown when the locator has one and the body is available. -/
theorem lookup_sha256 (loc : Locator) : ∃ ms, locatorWrite (some loc) true false true = some ms ∧
    ms.lookup "sha256" = if loc.unavailable = .available ∧ loc.hasSha256 = true
      then some (.str (hexDump loc.sha256)) else none := by
  by_cases hav : loc.unavailable = .available
  · refine ⟨_, write_available hav, ?_⟩
    have haddress := lookup_address loc (show "sha256" ∉ _ by decide)
    cases hsha : loc.hasSha256 <;> simp [hav, List.lookup, haddress]
  · exact ⟨_, write_unavailable hav, by simp [hav, List.lookup]⟩

/-- The members of a version that is available. -/
theorem write_version {loc : Locator} {r : Reply} (hav : loc.unavailable = .available)
    (hco : loc.complete = true) : ∃ ms,
    locatorWrite (some (version loc r)) true false true = some ms ∧
      ms.lookup "size" = some (.num r.rewriteSize) ∧
      ms.lookup "complete" = some (.bool true) ∧ ms.lookup "truncated" = some (.bool false) := by
  refine ⟨_, write_available hav, ?_⟩
  cases hsha : loc.hasSha256 <;> simp [version, hsha, hco, List.lookup]

/-- A version is shown whole. -/
theorem storeWriteBody_live {ph : PhaseCtx} {live : Locator} (h : ph.live = some live) (cap : ℕ) :
    storeWriteBody ph true cap = locatorWrite (some live) true false true := by
  simp [storeWriteBody, storeLocatorLive, h]

theorem Chain.described {ph : PhaseCtx} {vs : List Reply} (h : Chain ph vs) : Described ph vs := by
  refine ⟨?_, fun loc hloc cap => ?_, fun r hr cap => ?_, h.stale⟩
  · rcases hlast : vs.getLast? with _ | r
    · rw [h.original (List.getLast?_eq_none_iff.1 hlast)]
      rfl
    · obtain ⟨loc, -, hlive, -⟩ := h.last r hlast
      rw [hlive]
      rfl
  · rcases hlast : vs.getLast? with _ | r
    · have hlive := h.original (List.getLast?_eq_none_iff.1 hlast)
      simp only [storeWriteBody, storeLocatorLive, hlive, hloc, digest, hlast]
      obtain ⟨ms, hms, hsha⟩ := lookup_sha256
        (if cap ≠ 0 ∧ cap < loc.size then { loc with size := cap } else loc)
      refine ⟨ms, hms, hsha.trans ?_⟩
      by_cases hcut : cap ≠ 0 ∧ cap < loc.size
      · rw [if_pos hcut]
        by_cases hav : loc.unavailable = .available ∧ loc.hasSha256 = true <;> simp [hav]
      · rw [if_neg hcut]
        by_cases hav : loc.unavailable = .available ∧ loc.hasSha256 = true <;> simp [hav]
    · obtain ⟨loc', -, hlive, hav, -, hhas⟩ := h.last r hlast
      rw [storeWriteBody_live hlive]
      obtain ⟨ms, hms, hsha⟩ := lookup_sha256 (version loc' r)
      refine ⟨ms, hms, hsha.trans ?_⟩
      cases hd : r.rewriteSha256 <;> simp [digest, hlast, version, hav, hhas, hd]
  · obtain ⟨loc, -, hlive, hav, hco, -⟩ := h.last r hr
    rw [storeWriteBody_live hlive]
    exact write_version hav hco

/-- **The live version is described truthfully.** In a run whose rewrites are of a complete body,
whose digest is known exactly when the reply declares one, the live version is the last one that was
published, it is shown as what it is, and its forerunners are stale.  A wave with two rewrites, or
with one beyond the limit, fails the phase and leaves the version as it was. -/
theorem versions_described (n : ℕ) (ph : PhaseCtx) (es : List Event) (h0 : ph.Fresh)
    (ok : Along (step n) (StepOk n) ph es) :
    Described (runFrom (step n) ph es) (versions n es) ∧
      ∀ w, (2 ≤ (rewriters n w).length ∨
          ((rewriters n w).length = 1 ∧ rewriteMaxDepth ≤ (versions n es).length)) →
        (step n (runFrom (step n) ph es) (.settled w)).fail = .failBody ∧
        (step n (runFrom (step n) ph es) (.settled w)).live = (runFrom (step n) ph es).live := by
  have hc := chain_run h0.chain ok
  refine ⟨hc.described, fun w hw => ?_⟩
  have hfail : settle n (runFrom (step n) ph es) w =
      { runFrom (step n) ph es with fail := .failBody } := by
    rcases hr : rewriters n w with _ | ⟨i, _ | ⟨j, is⟩⟩
    · simp [hr] at hw
    · refine settle_deep hr ?_
      rw [hr] at hw
      rw [hc.depth]
      exact hw.elim (fun h2 => absurd h2 (by simp)) And.right
    · exact settle_many hr
  rw [step, hfail]
  exact ⟨rfl, rfl⟩

/-! ### A digest that is not the body's -/

/-- A body of nine bytes with its digest. -/
def placed : Locator where
  store := ascii "body"
  driver := ascii "redis"
  key := ascii "n:r:req"
  inlineData := none
  size := 9
  declaredSize := 9
  sha256 := List.replicate 32 1
  expiresAt := 0
  encoding := ascii "identity"
  hint := []
  offset := 0
  unavailable := .available
  hasSha256 := true
  complete := true
  truncated := false

/-- The phase before its body is placed. -/
def blank : PhaseCtx := ⟨none, none, [], 0, 0, 0#64, .none⟩

/-- An answer that puts a body of five bytes in place of the one that was shown. -/
def replacing (sha256 : Option Bytes) : Reply :=
  { Reply.zero with
    received := true
    rewriteHas := true
    rewriteBody := true
    rewriteKey := ascii "n:r:req:clean"
    rewriteSize := 5
    rewriteSha256 := sha256 }

/-- The wave of two inspectors of which the first one puts another body in place. -/
def replaced (sha256 : Option Bytes) : WaveEnd :=
  ⟨bit 0 ||| bit 1, fun i => if i = 0 then replacing sha256 else { Reply.zero with received := true },
    true, true⟩

theorem described_sample : Described
    (runFrom (step 2) blank [.place placed, .settled (replaced (some (List.replicate 32 2)))])
    (versions 2 [.place placed, .settled (replaced (some (List.replicate 32 2)))]) := by
  have ok : Along (step 2) (StepOk 2) blank
      [.place placed, .settled (replaced (some (List.replicate 32 2)))] := by
    refine ⟨trivial, fun i hi _ => ?_, trivial⟩
    have hone : rewriters 2 (replaced (some (List.replicate 32 2))) = [0] := by decide +kernel
    obtain rfl : (0 : Index) = i := by simpa using hone.symm.trans hi
    exact ⟨⟨placed, rfl, rfl, rfl, rfl⟩, rfl, fun _ => rfl⟩
  exact (versions_described 2 blank _ ⟨rfl, rfl, rfl⟩ ok).1

/-- A reply that declares no digest leaves the mark of the original one, and the zeroes are shown as
the digest of the new body. -/
theorem unknown_digest_shown :
    digest placed (versions 2 [.place placed, .settled (replaced none)]) = none ∧
      (storeWriteBody (runFrom (step 2) blank [.place placed, .settled (replaced none)]) true 0).map
        (fun ms => ms.lookup "sha256") = some (some (.str (List.replicate 64 48))) := by
  decide +kernel

end Rewrites
