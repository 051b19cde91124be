import PlacitumNode.Rewrite.Versions
import PlacitumNode.Slot.Table

/-!
# The keys of rewritten bodies (`codec/ngx_http_waf_msg_reply.c`)

A reply that rewrites a body names the object by its key.  The key is accepted when it continues the
key of the version that was shown, or when it belongs to the request id under which the reply came.
An accepted key becomes that of the live version, which the next one may continue, and every wave may
have another request id.

* `rewriteKeyClean`: `ngx_http_waf_rewrite_key_clean`;
* `Request`, `step`: a phase whose request id changes, with the settling of its waves;
* `Extends`: a key of the request, followed by parts;
* `Request.Kept`: what every reachable request keeps;
* `accepted_key_own`: the keys that are accepted, along every run.
-/

namespace Rewrites

open Octets Run Flags Waves

/-! ### The check -/

/-- The letters of a suffix. -/
def suffixChar (c : UInt8) : Bool :=
  (97 ≤ c && c ≤ 122) || (48 ≤ c && c ≤ 57) || c = 95 || c = 45

/-- `ngx_http_waf_obj_suffix_reserved` -/
def suffixReserved (suffix : Bytes) : Bool :=
  suffix ∈ [Slots.Obj.headers.suffix, Slots.Obj.args.suffix]

/-- A phase of a request: the node, the slot fields of the context and the body; `rids` are the request
ids that it has had. -/
structure Request where
  nodeId : Bytes
  ctx : Slots.Ctx
  ph : PhaseCtx
  rids : List Bytes

/-- The key continues the one of the version that was shown. -/
def continues (live : Option Locator) (key : Bytes) : Option Bytes :=
  match live with
  | none => none
  | some loc =>
    if loc.key ≠ [] ∧ loc.key.length + 1 < key.length ∧ key.length ≤ loc.key.length + 1 + 32 ∧
        key.take loc.key.length = loc.key ∧ (key.drop loc.key.length).head? = some 58 then
      some (key.drop (loc.key.length + 1))
    else none

/-- A text and a colon at the front, and what is behind them. -/
def field (text : Bytes) (p : Bytes) : Option Bytes :=
  if p.take text.length = text ∧ (p.drop text.length).head? = some 58 then
    some (p.drop (text.length + 1))
  else none

/-- The key belongs to the request id. -/
def belongs (r : Request) (key : Bytes) : Option Bytes :=
  let pre := r.nodeId.length + 1 + 16 + 1 + r.ctx.phase.tag.length + 1
  if key.length ≤ pre ∨ pre + 32 < key.length then none
  else ((field r.nodeId key).bind (field r.ctx.ridHex)).bind (field r.ctx.phase.tag)

/-- The letters and the reserved suffixes are checked alike behind both. -/
def suffixClean (suffix : Bytes) : Bool := suffix.all suffixChar && !suffixReserved suffix

/-- `ngx_http_waf_rewrite_key_clean` -/
def rewriteKeyClean (r : Request) (key : Bytes) : Bool :=
  match continues (storeLocatorLive r.ph) key with
  | some suffix => suffixClean suffix
  | none =>
    match belongs r key with
    | some suffix => suffixClean suffix
    | none => false

/-! ### Runs -/

/-- The request acquires a slot, its body is placed, or a wave ends. -/
inductive KeyEvent
  | acquire (rid : ℕ)
  | place (loc : Locator)
  | settled (w : WaveEnd)

/-- The key of an object of the phase under a request id. -/
def Request.keyOf (r : Request) (rid suffix : Bytes) : Bytes :=
  Slots.bodyKey r.nodeId { r.ctx with ridHex := rid } suffix

def Request.step (n : ℕ) (r : Request) : KeyEvent → Request
  | .acquire rid =>
    { r with
      ctx := { r.ctx with rid := rid, ridHex := Slots.ridHex rid }
      rids := Slots.ridHex rid :: r.rids }
  | .place loc => { r with ph := Rewrites.step n r.ph (.place loc) }
  | .settled w => { r with ph := Rewrites.step n r.ph (.settled w) }

/-- A body that is placed has its own key, or none where it is not in the store; the replies of a wave
were accepted in it. -/
def Request.StepOk (r : Request) : KeyEvent → Prop
  | .acquire _ => True
  | .place loc => loc.key = [] ∨ loc.key = r.keyOf r.ctx.ridHex []
  | .settled w => ∀ i, w.rewrites i = true → rewriteKeyClean r (w.replies i).rewriteKey = true

/-- A phase without a body, under its first request id. -/
structure Request.Fresh (r : Request) : Prop where
  locator : r.ph.locator = none
  live : r.ph.live = none
  depth : r.ph.rewriteDepth = 0
  rids : r.rids = [r.ctx.ridHex]
  length : r.ctx.ridHex.length = 16

/-! ### Keys of the request -/

/-- One part of a key. -/
structure Part (s : Bytes) : Prop where
  pos : 0 < s.length
  short : s.length ≤ 32
  letters : s.all suffixChar = true

/-- The parts behind a key, each with a colon before it. -/
def tail (parts : List Bytes) : Bytes := parts.flatMap (58 :: ·)

/-- A key and some parts behind it, of which the last one is no suffix of another object. -/
structure Extends (base : Bytes) (n : ℕ) (key : Bytes) (parts : List Bytes) : Prop where
  eq : key = base ++ tail parts
  ne : parts ≠ []
  count : parts.length ≤ n
  part : ∀ p ∈ parts, Part p
  last : ∀ p ∈ parts.getLast?, suffixReserved p = false

/-- What every reachable request keeps. -/
structure Request.Kept (r : Request) : Prop where
  current : r.ctx.ridHex ∈ r.rids
  length : ∀ rid ∈ r.rids, rid.length = 16
  locator : ∀ loc, r.ph.locator = some loc →
    loc.key = [] ∨ ∃ rid ∈ r.rids, loc.key = r.keyOf rid []
  live : ∀ loc, r.ph.live = some loc → 0 < r.ph.rewriteDepth ∧
    ∃ rid ∈ r.rids, ∃ parts, Extends (r.keyOf rid []) r.ph.rewriteDepth loc.key parts

theorem Request.Fresh.kept {r : Request} (h : r.Fresh) : r.Kept := by
  refine ⟨by simp [h.rids], ?_, ?_, ?_⟩
  · intro rid hrid
    rw [h.rids, List.mem_singleton] at hrid
    rw [hrid]
    exact h.length
  · intro loc hloc
    rw [h.locator] at hloc
    cases hloc
  · intro loc hloc
    rw [h.live] at hloc
    cases hloc

/-! ### What is accepted -/

theorem drop_cons {c : UInt8} {s : Bytes} {n : ℕ} (h : (s.drop n).head? = some c) :
    s.drop n = c :: s.drop (n + 1) := by
  cases hs : s.drop n with
  | nil => rw [hs] at h; cases h
  | cons b t =>
    rw [hs] at h
    cases h
    have hdrop := congrArg List.tail hs
    rw [List.tail_drop] at hdrop
    rw [hdrop, List.tail_cons]

theorem field_eq {text p q : Bytes} (h : field text p = some q) : p = text ++ 58 :: q := by
  unfold field at h
  split_ifs at h with hif
  obtain ⟨htake, hhead⟩ := hif
  cases h
  rw [← drop_cons hhead]
  conv_lhs => rw [← List.take_append_drop text.length p, htake]

theorem continues_eq {live : Option Locator} {key suffix : Bytes}
    (h : continues live key = some suffix) :
    ∃ loc, live = some loc ∧ loc.key ≠ [] ∧ key = loc.key ++ 58 :: suffix ∧
      0 < suffix.length ∧ suffix.length ≤ 32 := by
  cases live with
  | none => cases h
  | some loc =>
    unfold continues at h
    dsimp only at h
    split_ifs at h with hif
    obtain ⟨hne, hlo, hhi, htake, hhead⟩ := hif
    cases h
    refine ⟨loc, rfl, hne, ?_, ?_, ?_⟩
    · rw [← drop_cons hhead]
      conv_lhs => rw [← List.take_append_drop loc.key.length key, htake]
    · rw [List.length_drop]
      omega
    · rw [List.length_drop]
      omega

theorem keyOf_nil (r : Request) (rid : Bytes) :
    r.keyOf rid [] = r.nodeId ++ 58 :: (rid ++ 58 :: r.ctx.phase.tag) := by
  simp [Request.keyOf, Slots.bodyKey]

theorem belongs_eq {r : Request} (hlen : r.ctx.ridHex.length = 16) {key suffix : Bytes}
    (h : belongs r key = some suffix) :
    key = r.keyOf r.ctx.ridHex [] ++ 58 :: suffix ∧ 0 < suffix.length ∧ suffix.length ≤ 32 := by
  unfold belongs at h
  dsimp only at h
  split_ifs at h with hif
  obtain ⟨q, hq, htag⟩ := Option.bind_eq_some_iff.1 h
  obtain ⟨p, hnode, hrid⟩ := Option.bind_eq_some_iff.1 hq
  have hkey : key = r.keyOf r.ctx.ridHex [] ++ 58 :: suffix := by
    rw [field_eq hnode, field_eq hrid, field_eq htag, keyOf_nil]
    simp only [List.append_assoc, List.cons_append]
  have hsize := congrArg List.length hkey
  rw [keyOf_nil] at hsize
  simp only [List.length_append, List.length_cons] at hsize
  refine ⟨hkey, ?_, ?_⟩ <;> omega

theorem part_of_clean {suffix : Bytes} (hpos : 0 < suffix.length) (hshort : suffix.length ≤ 32)
    (h : suffixClean suffix = true) : Part suffix ∧ suffixReserved suffix = false := by
  rw [suffixClean, Bool.and_eq_true, Bool.not_eq_true'] at h
  exact ⟨⟨hpos, hshort, h.1⟩, h.2⟩

/-- One more part. -/
theorem Extends.snoc {base key suffix : Bytes} {n : ℕ} {parts : List Bytes}
    (h : Extends base n key parts) (hpart : Part suffix) (hlast : suffixReserved suffix = false) :
    Extends base (n + 1) (key ++ 58 :: suffix) (parts ++ [suffix]) := by
  refine ⟨?_, by simp, ?_, ?_, ?_⟩
  · rw [h.eq, tail, tail, List.flatMap_append, List.append_assoc]
    simp
  · rw [List.length_append, List.length_singleton]
    exact Nat.add_le_add_right h.count 1
  · intro p hp
    rcases List.mem_append.1 hp with hp | hp
    · exact h.part p hp
    · rw [List.mem_singleton.1 hp]
      exact hpart
  · intro p hp
    rw [List.getLast?_concat] at hp
    cases hp
    exact hlast

theorem extends_one {base suffix : Bytes} (n : ℕ) (hpart : Part suffix)
    (hlast : suffixReserved suffix = false) :
    Extends base (n + 1) (base ++ 58 :: suffix) [suffix] := by
  refine ⟨by simp [tail], by simp, by simp, ?_, ?_⟩
  · intro p hp
    rw [List.mem_singleton.1 hp]
    exact hpart
  · intro p hp
    cases hp
    exact hlast

/-- **A key that is accepted continues a key of the request.** -/
theorem Request.Kept.clean {r : Request} (h : r.Kept) {key : Bytes}
    (hkey : rewriteKeyClean r key = true) :
    ∃ rid ∈ r.rids, ∃ parts, Extends (r.keyOf rid []) (r.ph.rewriteDepth + 1) key parts ∧
      (r.ph.rewriteDepth = 0 →
        r.ph.locator.map Locator.key = some (r.keyOf rid []) ∨ rid = r.ctx.ridHex) := by
  unfold rewriteKeyClean at hkey
  cases hcont : continues (storeLocatorLive r.ph) key with
  | some suffix =>
    rw [hcont] at hkey
    obtain ⟨loc, hloc, hne, rfl, hpos, hshort⟩ := continues_eq hcont
    obtain ⟨hpart, hlast⟩ := part_of_clean hpos hshort hkey
    cases hlive : r.ph.live with
    | some live =>
      obtain ⟨hdepth, rid, hrid, parts, hparts⟩ := h.live live hlive
      rw [storeLocatorLive, hlive] at hloc
      cases hloc
      exact ⟨rid, hrid, _, hparts.snoc hpart hlast, fun hzero => by omega⟩
    | none =>
      rw [storeLocatorLive, hlive] at hloc
      change r.ph.locator = some loc at hloc
      obtain ⟨rid, hrid, heq⟩ := (h.locator loc hloc).resolve_left hne
      refine ⟨rid, hrid, [suffix], ?_, fun _ => .inl ?_⟩
      · rw [heq]
        exact extends_one _ hpart hlast
      · rw [hloc, Option.map_some, heq]
  | none =>
    rw [hcont] at hkey
    cases hbel : belongs r key with
    | none => rw [hbel] at hkey; cases hkey
    | some suffix =>
      rw [hbel] at hkey
      obtain ⟨rfl, hpos, hshort⟩ := belongs_eq (h.length _ h.current) hbel
      obtain ⟨hpart, hlast⟩ := part_of_clean hpos hshort hkey
      exact ⟨_, h.current, [suffix], extends_one _ hpart hlast, fun _ => .inr rfl⟩

/-! ### Runs -/

/-- A settled wave leaves the phase, fails it, or publishes a version that one inspector named. -/
theorem settle_cases (n : ℕ) (ph : PhaseCtx) (w : WaveEnd) :
    settle n ph w = ph ∨ settle n ph w = { ph with fail := .failBody } ∨
      ∃ i source stale, w.rewrites i = true ∧
        settle n ph w = publish ph (version source (w.replies i)) stale i := by
  rcases hfound : rewriters n w with _ | ⟨i, _ | ⟨j, is⟩⟩
  · exact .inl (settle_none hfound)
  · have hi : w.rewrites i = true := by
      have hmem : i ∈ rewriters n w := by rw [hfound]; exact List.mem_singleton_self i
      exact (List.mem_filter.1 hmem).2
    by_cases hdeep : rewriteMaxDepth ≤ ph.rewriteDepth
    · exact .inr (.inl (settle_deep hfound hdeep))
    · unfold settle
      rw [findRewriter_none, show (inspectors n).filter w.rewrites = [i] from hfound]
      dsimp only
      rw [if_neg hdeep]
      cases storeLocatorLive ph with
      | none => exact .inl rfl
      | some source =>
        dsimp only
        split
        · cases ph.live with
          | none => exact .inr (.inr ⟨i, source, _, hi, rfl⟩)
          | some old =>
            dsimp only
            split
            · exact .inr (.inr ⟨i, source, _, hi, rfl⟩)
            · exact .inr (.inl rfl)
        · exact .inr (.inl rfl)
  · exact .inr (.inl (settle_many hfound))

theorem Request.Kept.step {n : ℕ} (r : Request) (e : KeyEvent) (h : r.Kept) (hok : r.StepOk e) :
    (r.step n e).Kept := by
  cases e with
  | acquire rid =>
    refine ⟨List.mem_cons_self, ?_, ?_, ?_⟩
    · intro old hold
      rcases List.mem_cons.1 hold with rfl | hold
      · exact length_hexField 16 rid
      · exact h.length old hold
    · intro loc hloc
      refine (h.locator loc hloc).imp_right ?_
      rintro ⟨old, hold, heq⟩
      exact ⟨old, List.mem_cons_of_mem _ hold, heq⟩
    · intro loc hloc
      obtain ⟨hdepth, old, hold, parts, hparts⟩ := h.live loc hloc
      exact ⟨hdepth, old, List.mem_cons_of_mem _ hold, parts, hparts⟩
  | place loc =>
    refine ⟨h.current, h.length, ?_, ?_⟩
    · intro got hgot
      simp only [Request.step, Rewrites.step] at hgot
      split at hgot
      · exact h.locator got hgot
      · cases hgot
        exact hok.imp_right fun heq => ⟨_, h.current, heq⟩
    · intro got hgot
      simp only [Request.step, Rewrites.step] at hgot ⊢
      split at hgot
      · next hsome =>
        rw [if_pos hsome]
        exact h.live got hgot
      · next hnone =>
        rw [if_neg hnone]
        exact h.live got hgot
  | settled w =>
    have hcase := settle_cases n r.ph w
    simp only [Request.step, Rewrites.step]
    rcases hcase with heq | heq | ⟨i, source, stale, hi, heq⟩
    · rw [heq]
      exact h
    · rw [heq]
      exact ⟨h.current, h.length, h.locator, h.live⟩
    · rw [heq]
      refine ⟨h.current, h.length, h.locator, ?_⟩
      intro got hgot
      cases hgot
      obtain ⟨rid, hrid, parts, hparts, _⟩ := h.clean (hok i hi)
      exact ⟨Nat.succ_pos _, rid, hrid, parts, hparts⟩

/-- Everything that a run does to a request keeps this. -/
theorem Request.Kept.run {n : ℕ} {r : Request} {es : List KeyEvent} (h : r.Kept)
    (hok : Along (Request.step n) Request.StepOk r es) : (runFrom (Request.step n) r es).Kept :=
  invariant_run Request.Kept.step h hok

/-! ### Whose keys they are -/

theorem length_keyOf {r : Request} {a b : Bytes} (h : a.length = b.length) :
    (r.keyOf a []).length = (r.keyOf b []).length := by
  simp only [keyOf_nil, List.length_append, List.length_cons, h]

theorem keyOf_suffix (r : Request) (rid suffix : Bytes) :
    r.keyOf rid suffix = r.keyOf rid [] ++ if suffix ≠ [] then 58 :: suffix else [] := by
  simp [Request.keyOf, Slots.bodyKey]

/-- A key with clean parts is not that of an object of the phase, under any request id. -/
theorem Extends.ne_object {r : Request} {rid rid' key : Bytes} {n : ℕ} {parts : List Bytes}
    (h : Extends (r.keyOf rid []) n key parts) (hlen : rid.length = rid'.length) (obj : Slots.Obj) :
    key ≠ r.keyOf rid' obj.suffix := by
  intro heq
  rw [h.eq, keyOf_suffix r rid' obj.suffix] at heq
  have htail := (List.append_inj heq (length_keyOf hlen)).2
  obtain ⟨p, ps, rfl⟩ := List.exists_cons_of_ne_nil h.ne
  have hnocolon : (58 : UInt8) ∉ obj.suffix := by cases obj <;> decide
  rw [tail, List.flatMap_cons, List.cons_append] at htail
  split at htail
  · have hrest := (List.cons.inj htail).2
    cases ps with
    | nil =>
      rw [List.flatMap_nil, List.append_nil] at hrest
      have hclean := h.last p rfl
      subst hrest
      cases obj with
      | headers => exact absurd hclean (by decide)
      | args => exact absurd hclean (by decide)
      | body => exact absurd rfl ‹Slots.Obj.body.suffix ≠ []›
    | cons q qs =>
      refine hnocolon ?_
      rw [← hrest]
      simp
  · cases htail

/-- A key begins with the node and one request id only. -/
theorem Extends.prefix_eq {r : Request} {rid rid' key : Bytes} {n : ℕ} {parts : List Bytes}
    (h : Extends (r.keyOf rid []) n key parts) (hlen : rid.length = rid'.length)
    (hpre : r.nodeId ++ 58 :: rid' <+: key) : rid' = rid := by
  obtain ⟨t, ht⟩ := hpre
  rw [h.eq, keyOf_nil] at ht
  simp only [List.append_assoc, List.cons_append] at ht
  have hrest := (List.cons.inj (List.append_cancel_left ht)).2
  exact (List.append_inj hrest hlen.symm).1

/-- **A rewritten body stays in its own request.**  Whatever waves, placements and new request ids a
phase has seen, an accepted key is the key of the phase under one of its own request ids, followed by
between one and as many parts as there are versions and one more; the last part names no other object.
Without a version the base is the key of the placed body or that of the present request id.  So the key
is never that of a captured object, of this or another request, and begins with no other request id. -/
theorem accepted_key_own (n : ℕ) (r : Request) (es : List KeyEvent) (hfresh : r.Fresh)
    (hok : Along (Request.step n) Request.StepOk r es) (key : Bytes)
    (hkey : rewriteKeyClean (runFrom (Request.step n) r es) key = true) :
    ∃ rid ∈ (runFrom (Request.step n) r es).rids, ∃ parts,
      Extends ((runFrom (Request.step n) r es).keyOf rid [])
        ((runFrom (Request.step n) r es).ph.rewriteDepth + 1) key parts ∧
      ((runFrom (Request.step n) r es).ph.rewriteDepth = 0 →
        (runFrom (Request.step n) r es).ph.locator.map Locator.key =
          some ((runFrom (Request.step n) r es).keyOf rid []) ∨
        rid = (runFrom (Request.step n) r es).ctx.ridHex) ∧
      ∀ rid' : Bytes, rid'.length = 16 →
        (∀ obj, key ≠ (runFrom (Request.step n) r es).keyOf rid' (Slots.Obj.suffix obj)) ∧
        ((runFrom (Request.step n) r es).nodeId ++ 58 :: rid' <+: key → rid' = rid) := by
  have hkept := hfresh.kept.run hok
  generalize runFrom (Request.step n) r es = q at hkept hkey ⊢
  obtain ⟨rid, hrid, parts, hparts, hbase⟩ := hkept.clean hkey
  refine ⟨rid, hrid, parts, hparts, hbase, fun rid' hlen => ?_⟩
  have hsame : rid.length = rid'.length := (hkept.length rid hrid).trans hlen.symm
  exact ⟨hparts.ne_object hsame, hparts.prefix_eq hsame⟩

/-- Request 42 of a node, in its first phase. -/
def fortyTwo : Request where
  nodeId := ascii "n"
  ctx := ⟨none, 42, Slots.ridHex 42, .request⟩
  ph := blank
  rids := [Slots.ridHex 42]

/-- Its body is placed, a wave puts another one in place, and the next wave has request id 43. -/
def fortyTwoRun : List KeyEvent :=
  [.place { placed with key := ascii "n:000000000000002a:req" },
    .settled ⟨bit 0, fun _ => { replacing none with
      rewriteKey := ascii "n:000000000000002a:req:clean" }, true, true⟩,
    .acquire 43]

/-- The second version goes on from the first one, under the old request id. -/
theorem accepted_key_next :
    ∃ rid ∈ (runFrom (Request.step 2) fortyTwo fortyTwoRun).rids, ∃ parts,
      Extends ((runFrom (Request.step 2) fortyTwo fortyTwoRun).keyOf rid [])
        ((runFrom (Request.step 2) fortyTwo fortyTwoRun).ph.rewriteDepth + 1)
        (ascii "n:000000000000002a:req:clean:v2") parts := by
  have hchecks : fortyTwo.StepOk (.place { placed with key := ascii "n:000000000000002a:req" }) ∧
      rewriteKeyClean (fortyTwo.step 2 (.place { placed with key := ascii "n:000000000000002a:req" }))
        (ascii "n:000000000000002a:req:clean") = true ∧
      rewriteKeyClean (runFrom (Request.step 2) fortyTwo fortyTwoRun)
        (ascii "n:000000000000002a:req:clean:v2") = true := by
    refine ⟨Or.inr ?_, ?_⟩ <;> decide +kernel
  have hok : Along (Request.step 2) Request.StepOk fortyTwo fortyTwoRun :=
    ⟨hchecks.1, fun _ _ => hchecks.2.1, trivial, trivial⟩
  obtain ⟨rid, hrid, parts, hparts, _⟩ :=
    accepted_key_own 2 fortyTwo fortyTwoRun ⟨rfl, rfl, rfl, rfl, rfl⟩ hok _ hchecks.2.2
  exact ⟨rid, hrid, parts, hparts⟩

end Rewrites
