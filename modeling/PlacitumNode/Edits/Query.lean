import PlacitumNode.Lib.Octets
import PlacitumNode.Lib.Separated
import PlacitumNode.Slot.Table
import PlacitumNode.Wave.State

/-!
# Edits of the query string (`runtime/ngx_http_waf_apply.c`)

Inspectors may ask for arguments to be set and unset.  The query string is split into pairs once, the
edits of each inspector mark pairs dead, change values and append pairs, and the pairs that are left
are joined again.

* `argsSplit`, `argsUnset`, `argsSet`, `argsLoop`, `argsApply`: the code, with its allocations;
* `Query`, `parse`, `render`, `unset`, `set`, `editOf`: what a query string says and what edits mean;
* `live_argsSet`, `live_argsUnset`, `argsLoop_spec`: the code on pairs is the edits on queries;
* `parse_render`: a query that is written is read back;
* `args_apply_exact`: either nothing has happened, or exactly the edits have.
-/

namespace Edits

open Octets

/-! ### The code -/

/-- `ngx_http_waf_arg_clean` -/
def argClean (s : Bytes) (name : Bool) : Bool :=
  !(name && s = []) && s.all fun c => !(c ≤ 32 || c = 127 || c = 38 || c = 35 || (name && c = 61))

/-- `ngx_http_waf_arg_pair_t` -/
structure Pair where
  name : Bytes
  value : Bytes
  hasEq : Bool
  dead : Bool
  deriving DecidableEq

/-- The answers of the allocator: for the array, for the place of each pair, for the new string. -/
structure Mem where
  create : Bool
  push : ℕ → Bool
  out : Bool

/-- `ngx_array_push` -/
def push (mem : Mem) (pairs : List Pair) (p : Pair) : Option (List Pair) :=
  if mem.push pairs.length then some (pairs ++ [p]) else none

/-- The pair of a part. -/
def pairOf (part : Bytes) : Pair :=
  match part.dropWhile (· ≠ 61) with
  | [] => ⟨part, [], false, false⟩
  | _ :: value => ⟨part.takeWhile (· ≠ 61), value, true, false⟩

theorem length_rest_lt {p rest : Bytes} {c : UInt8} (h : p.dropWhile (· ≠ 38) = c :: rest) :
    rest.length < p.length := by
  have hle := (List.dropWhile_suffix (· ≠ (38 : UInt8)) (l := p)).length_le
  rw [h, List.length_cons] at hle
  omega

/-- The loop of `ngx_http_waf_args_split`. -/
def argsSplitFrom (mem : Mem) (pairs : List Pair) (p : Bytes) : Option (List Pair) :=
  match push mem pairs (pairOf (p.takeWhile (· ≠ 38))) with
  | none => none
  | some pairs =>
    match _h : p.dropWhile (· ≠ 38) with
    | [] => some pairs
    | _ :: rest => argsSplitFrom mem pairs rest
termination_by p.length
decreasing_by exact length_rest_lt _h

/-- `ngx_http_waf_args_split` -/
def argsSplit (mem : Mem) (args : Bytes) : Option (List Pair) :=
  if args.length = 0 then some [] else argsSplitFrom mem [] args

/-- `ngx_http_waf_args_unset` -/
def argsUnset (pairs : List Pair) (name : Bytes) : List Pair :=
  pairs.map fun p => if !p.dead && p.name = name then { p with dead := true } else p

/-- The loop of `ngx_http_waf_args_set`: the first pair of the name takes the value, others die. -/
def setPairs (key value : Bytes) : Bool → List Pair → List Pair
  | _, [] => []
  | found, p :: ps =>
    if p.dead || p.name ≠ key then p :: setPairs key value found ps
    else if found then { p with dead := true } :: setPairs key value true ps
    else { p with value := value, hasEq := true } :: setPairs key value true ps

/-- `ngx_http_waf_args_set` -/
def argsSet (mem : Mem) (pairs : List Pair) (kv : Bytes × Bytes) : Option (List Pair) :=
  if pairs.any fun p => !p.dead && p.name = kv.1 then some (setPairs kv.1 kv.2 false pairs)
  else push mem pairs ⟨kv.1, kv.2, true, false⟩

/-- The fields of `ngx_http_waf_reply_t` that belong to the query string; `none` is a NULL array. -/
structure Reply where
  received : Bool
  passive : Bool
  vote : Bool
  argsSet : Option (List (Bytes × Bytes))
  argsUnset : Option (List Bytes)
  argsApplied : Bool
  deriving DecidableEq

/-- The request with its replies (`none` is NULL); `store` says whether `waf_send` stores the
arguments, and `cap` is `ngx_http_waf_args_cap`. -/
structure Ctx where
  phase : Slots.Phase
  verdict : Waves.Verdict
  byLocal : Bool
  replies : Option (List Reply)
  store : Bool
  cap : ℕ
  args : Bytes
  validUnparsedUri : Bool

/-- The edits of one inspector. -/
def argsReply (mem : Mem) (r : Reply) (pairs : List Pair) : Option (List Pair) :=
  (r.argsSet.getD []).foldlM (argsSet mem) ((r.argsUnset.getD []).foldl argsUnset pairs)

/-- The reply has edits that count. -/
def Reply.edits (r : Reply) : Bool :=
  r.received && !r.passive && !r.vote && (r.argsSet.isSome || r.argsUnset.isSome)

/-- The loop over the inspectors; no result is a failed allocation.  There are authors exactly when
the pairs are there at the end. -/
def argsLoop (mem : Mem) (store : Bool) (args : Bytes) :
    List Reply → Option (List Pair) → Option (List Reply × Option (List Pair))
  | [], pairs => some ([], pairs)
  | r :: rs, pairs =>
    if !r.edits || !store then (argsLoop mem store args rs pairs).map fun x => (r :: x.1, x.2)
    else
      match pairs.orElse fun _ => if mem.create then argsSplit mem args else none with
      | none => none
      | some pairs =>
        match argsReply mem r pairs with
        | none => none
        | some pairs =>
          (argsLoop mem store args rs (some pairs)).map fun x =>
            ({ r with argsApplied := true } :: x.1, x.2)

/-- The length of the new string, before the last separator is taken off. -/
def lenOf : List Pair → ℕ
  | [] => 0
  | p :: ps =>
    if p.dead then lenOf ps
    else p.name.length + 1 + (if p.hasEq then 1 + p.value.length else 0) + lenOf ps

/-- The bytes of the new string. -/
def build : Bool → List Pair → Bytes
  | _, [] => []
  | first, p :: ps =>
    if p.dead then build first ps
    else (if first then [] else [38]) ++ p.name ++ (if p.hasEq then 61 :: p.value else []) ++
      build false ps

/-- The end of `ngx_http_waf_args_apply` on a failure. -/
def Ctx.undo (c : Ctx) (rs : List Reply) : Ctx :=
  { c with replies := some (rs.map fun r => { r with argsApplied := false }) }

/-- `ngx_http_waf_args_apply` -/
def argsApply (mem : Mem) (c : Ctx) : Ctx :=
  match c.replies with
  | none => c
  | some rs =>
    if c.phase ≠ .request ∨ c.verdict ≠ .allow ∨ c.byLocal = true then c
    else
      match argsLoop mem c.store c.args rs none with
      | none => c.undo rs
      | some (_, none) => c
      | some (rs', some pairs) =>
        let len := lenOf pairs - 1
        if c.cap < len then c.undo rs
        else if mem.out then
          { c with replies := some rs', args := build true pairs, validUnparsedUri := false }
        else c.undo rs

/-! ### What a query string says -/

/-- The names of a query string in order, each with its value where it has one. -/
abbrev Query := List (Bytes × Option Bytes)

def part (x : Bytes × Option Bytes) : Bytes :=
  match x.2 with
  | none => x.1
  | some v => x.1 ++ 61 :: v

/-- A query as a string. -/
def render (q : Query) : Bytes := [38].intercalate (q.map part)

/-- The pair of a part. -/
def split (s : Bytes) : Bytes × Option Bytes :=
  match s.dropWhile (· ≠ 61) with
  | [] => (s, none)
  | _ :: v => (s.takeWhile (· ≠ 61), some v)

/-- The pairs of a string; the empty string has none. -/
def parse (args : Bytes) : Query := if args = [] then [] else (args.splitOn 38).map split

/-- All pairs of a name go. -/
def unset (name : Bytes) (q : Query) : Query := q.filter fun x => x.1 ≠ name

/-- The first pair of a name takes the value and the others go; without one, a pair is appended. -/
def set (key value : Bytes) (q : Query) : Query :=
  match q.findIdx? fun x => x.1 = key with
  | none => q ++ [(key, some value)]
  | some i => q.take i ++ (key, some value) :: unset key (q.drop (i + 1))

/-- What a reply asks for: first what it unsets, then what it sets. -/
def editOf (r : Reply) (q : Query) : Query :=
  (r.argsSet.getD []).foldl (fun q kv => set kv.1 kv.2 q)
    ((r.argsUnset.getD []).foldl (fun q name => unset name q) q)

/-- What the replies ask for that count, in the order of the inspectors. -/
def editAll (store : Bool) (rs : List Reply) (q : Query) : Query :=
  (rs.filter fun r => r.edits && store).foldl (fun q r => editOf r q) q

/-! ### Pairs and queries -/

def Pair.view (p : Pair) : Bytes × Option Bytes := (p.name, if p.hasEq then some p.value else none)

/-- The pairs that are not dead. -/
def live (pairs : List Pair) : Query := (pairs.filter fun p => !p.dead).map Pair.view

section Live

variable {mem : Mem} {pairs pairs' : List Pair} {key value name : Bytes}

theorem live_cons (p : Pair) (ps : List Pair) :
    live (p :: ps) = if p.dead then live ps else p.view :: live ps := by
  unfold live
  rw [List.filter_cons]
  cases p.dead <;> rfl

theorem live_append (ps qs : List Pair) : live (ps ++ qs) = live ps ++ live qs := by
  rw [live, List.filter_append, List.map_append]
  rfl

/-- **Unsetting.** -/
theorem live_argsUnset (pairs : List Pair) (name : Bytes) :
    live (argsUnset pairs name) = unset name (live pairs) := by
  induction pairs with
  | nil => rfl
  | cons p ps ih =>
    rw [argsUnset, List.map_cons, live_cons, live_cons, ← argsUnset, ih]
    cases hdead : p.dead with
    | true => simp [hdead]
    | false =>
      by_cases hname : p.name = name
      · simp [hname, unset, Pair.view]
      · simp [hname, hdead, unset, Pair.view]

/-- The other pairs of a name die. -/
theorem live_setPairs_true (pairs : List Pair) :
    live (setPairs key value true pairs) = unset key (live pairs) := by
  induction pairs with
  | nil => rfl
  | cons p ps ih =>
    rw [setPairs]
    cases hdead : p.dead with
    | true => simp [live_cons, hdead, ih]
    | false =>
      by_cases hname : p.name = key
      · simp [live_cons, hdead, hname, ih, unset, Pair.view]
      · simp [live_cons, hdead, hname, ih, unset, Pair.view]

theorem set_cons_self (x : Bytes × Option Bytes) (q : Query) (h : x.1 = key) :
    set key value (x :: q) = (key, some value) :: unset key q := by
  simp [set, List.findIdx?_cons, h]

theorem set_cons_ne (x : Bytes × Option Bytes) (q : Query) (h : x.1 ≠ key) :
    set key value (x :: q) = x :: set key value q := by
  simp only [set, List.findIdx?_cons, decide_eq_false h, Bool.false_eq_true, if_false]
  cases q.findIdx? fun x => x.1 = key <;> rfl

theorem set_of_not_mem {q : Query} (h : ∀ x ∈ q, x.1 ≠ key) :
    set key value q = q ++ [(key, some value)] := by
  induction q with
  | nil => rfl
  | cons x q ih =>
    rw [set_cons_ne x q (h x List.mem_cons_self), ih fun y hy => h y (List.mem_cons_of_mem x hy)]
    rfl

/-- The first pair of a name takes the value. -/
theorem live_setPairs_false (h : pairs.any (fun p => !p.dead && p.name = key) = true) :
    live (setPairs key value false pairs) = set key value (live pairs) := by
  induction pairs with
  | nil => cases h
  | cons p ps ih =>
    rw [setPairs]
    by_cases hother : (p.dead || p.name ≠ key) = true
    · have hrest : ps.any (fun p => !p.dead && p.name = key) = true := by
        rw [List.any_cons] at h
        cases hdead : p.dead <;> simp_all
      rw [if_pos hother, live_cons, live_cons, ih hrest]
      cases hdead : p.dead with
      | true => simp
      | false =>
        have hname : p.name ≠ key := by simpa [hdead] using hother
        rw [if_neg Bool.false_ne_true, if_neg Bool.false_ne_true, set_cons_ne p.view _ hname]
    · have hthis : p.dead = false ∧ p.name = key := by simpa using hother
      rw [if_neg hother, if_neg Bool.false_ne_true, live_cons, live_cons, live_setPairs_true, hthis.1,
        if_neg Bool.false_ne_true, if_neg Bool.false_ne_true, set_cons_self p.view _ hthis.2,
        ← hthis.2]
      rfl

/-- **Setting.** -/
theorem live_argsSet {kv : Bytes × Bytes} (h : argsSet mem pairs kv = some pairs') :
    live pairs' = set kv.1 kv.2 (live pairs) := by
  unfold argsSet at h
  split at h
  · next hany =>
    cases h
    exact live_setPairs_false hany
  · next hany =>
    unfold push at h
    split at h
    · cases h
      have hnone : ∀ x ∈ live pairs, x.1 ≠ kv.1 := by
        intro x hx
        obtain ⟨p, hp, rfl⟩ := List.mem_map.1 hx
        rw [List.mem_filter] at hp
        intro hname
        refine hany (List.any_eq_true.2 ⟨p, hp.1, ?_⟩)
        have hdead := hp.2
        have hname' : p.name = kv.1 := hname
        simp [hname'] at hdead ⊢
        exact hdead
      rw [live_append, set_of_not_mem hnone]
      rfl
    · cases h

/-- **The edits of one inspector.** -/
theorem live_argsReply {r : Reply} (h : argsReply mem r pairs = some pairs') :
    live pairs' = editOf r (live pairs) := by
  unfold argsReply at h
  unfold editOf
  generalize hunset : (r.argsUnset.getD []).foldl argsUnset pairs = mid at h
  have hmid : live mid = (r.argsUnset.getD []).foldl (fun q name => unset name q) (live pairs) := by
    rw [← hunset]
    generalize r.argsUnset.getD [] = names
    clear hunset h
    induction names generalizing pairs with
    | nil => rfl
    | cons name names ih => rw [List.foldl_cons, List.foldl_cons, ih, live_argsUnset]
  rw [← hmid]
  generalize r.argsSet.getD [] = kvs at h
  clear hunset hmid
  induction kvs generalizing mid with
  | nil =>
    cases h
    rfl
  | cons kv kvs ih =>
    rw [List.foldlM_cons] at h
    obtain ⟨next, hone, hrest⟩ := Option.bind_eq_some_iff.1 h
    rw [List.foldl_cons, ih next hrest, live_argsSet hone]

/-- The pairs of a query string. -/
theorem pairOf_view (s : Bytes) : (pairOf s).view = split s ∧ (pairOf s).dead = false := by
  unfold pairOf split
  split <;> exact ⟨rfl, rfl⟩

theorem live_argsSplitFrom {p : Bytes} (h : argsSplitFrom mem pairs p = some pairs') :
    live pairs' = live pairs ++ (p.splitOn 38).map split := by
  induction hn : p.length using Nat.strong_induction_on generalizing pairs p with
  | _ n ih =>
    subst hn
    rw [argsSplitFrom] at h
    unfold push at h
    split at h
    · cases h
    next mid hmid =>
    split at hmid
    · cases hmid
      have hview : live [pairOf (p.takeWhile (· ≠ 38))] = [split (p.takeWhile (· ≠ 38))] := by
        obtain ⟨hview, hdead⟩ := pairOf_view (p.takeWhile (· ≠ 38))
        rw [live_cons, hdead, hview]
        rfl
      split at h
      · next hdrop =>
        cases h
        have hall : p.takeWhile (· ≠ 38) = p := by
          have hsplit := List.takeWhile_append_dropWhile (p := (· ≠ 38)) (l := p)
          rwa [hdrop, List.append_nil] at hsplit
        rw [live_append, hview, hall, Separated.splitOn_of_nil hdrop, List.map_singleton]
      · next c rest hdrop =>
        rw [ih _ (length_rest_lt hdrop) h rfl, live_append, hview, Separated.splitOn_of_cons hdrop,
          List.map_cons, List.append_assoc, List.singleton_append]
    · cases hmid

/-- **Splitting.** -/
theorem live_argsSplit {args : Bytes} (h : argsSplit mem args = some pairs) :
    live pairs = parse args := by
  unfold argsSplit at h
  unfold parse
  by_cases hnil : args = []
  · rw [hnil] at h ⊢
    cases h
    rfl
  · rw [if_neg (fun hlen => hnil (List.length_eq_zero_iff.1 hlen))] at h
    rw [if_neg hnil, live_argsSplitFrom h]
    rfl

end Live

/-! ### The loop over the inspectors -/

/-- The mark that a reply gets. -/
def Reply.mark (store : Bool) (r : Reply) : Reply :=
  if r.edits && store then { r with argsApplied := true } else r

/-- **The loop.**  The pairs, once there are any, are the edits of the replies so far. -/
theorem argsLoop_spec {mem : Mem} {store : Bool} {args : Bytes} {rs rs' : List Reply}
    {pairs pairs' : Option (List Pair)}
    (h : argsLoop mem store args rs pairs = some (rs', pairs')) :
    rs' = rs.map (Reply.mark store) ∧
      (pairs' = none ↔ pairs = none ∧ ∀ r ∈ rs, (r.edits && store) = false) ∧
      ∀ ps, pairs' = some ps →
        live ps = editAll store rs ((pairs.map live).getD (parse args)) := by
  induction rs generalizing rs' pairs with
  | nil =>
    cases h
    refine ⟨rfl, by simp, fun ps hps => ?_⟩
    rw [hps]
    rfl
  | cons r rs ih =>
    rw [argsLoop] at h
    by_cases hskip : (!r.edits || !store) = true
    · have hno : (r.edits && store) = false := by
        rwa [← Bool.not_and, Bool.not_eq_true'] at hskip
      rw [if_pos hskip] at h
      obtain ⟨⟨rs₁, pairs₁⟩, hrest, heq⟩ := Option.map_eq_some_iff.1 h
      cases heq
      obtain ⟨h₁, h₂, h₃⟩ := ih hrest
      refine ⟨?_, ?_, ?_⟩
      · rw [List.map_cons, h₁, Reply.mark, hno]
        rfl
      · rw [h₂, List.forall_mem_cons]
        exact ⟨fun h => ⟨h.1, hno, h.2⟩, fun h => ⟨h.1, h.2.2⟩⟩
      · intro ps hps
        rw [h₃ ps hps, editAll, editAll, List.filter_cons, hno]
        rfl
    · have hyes : (r.edits && store) = true := by
        rw [← Bool.not_and, Bool.not_eq_true'] at hskip
        exact Bool.eq_true_of_not_eq_false hskip
      rw [if_neg hskip] at h
      split at h
      · cases h
      next start hstart =>
      split at h
      · cases h
      next mid hmid =>
      obtain ⟨⟨rs₁, pairs₁⟩, hrest, heq⟩ := Option.map_eq_some_iff.1 h
      cases heq
      obtain ⟨h₁, h₂, h₃⟩ := ih hrest
      -- The first reply that edits splits the arguments; the later ones go on with its pairs.
      have hlive : live start = (pairs.map live).getD (parse args) := by
        cases pairs with
        | some ps =>
          cases hstart
          rfl
        | none =>
          have hsplit : (if mem.create = true then argsSplit mem args else none) = some start :=
            hstart
          split at hsplit
          · exact live_argsSplit hsplit
          · cases hsplit
      refine ⟨?_, ?_, ?_⟩
      · rw [List.map_cons, h₁, Reply.mark, hyes]
        rfl
      · rw [h₂, List.forall_mem_cons, hyes]
        exact ⟨(fun h => by cases h.1), fun h => by cases h.2.1⟩
      · intro ps hps
        rw [h₃ ps hps, editAll, editAll, List.filter_cons, hyes, if_pos rfl, List.foldl_cons, ← hlive,
          ← live_argsReply hmid]
        rfl

/-- With memory for everything the loop does not fail. -/
theorem argsLoop_isSome {mem : Mem} (hcreate : mem.create = true) (hpush : ∀ n, mem.push n = true)
    (store : Bool) (args : Bytes) (rs : List Reply) (pairs : Option (List Pair)) :
    (argsLoop mem store args rs pairs).isSome = true := by
  have hset : ∀ pairs kv, ∃ ps, argsSet mem pairs kv = some ps := by
    intro pairs kv
    unfold argsSet push
    rw [if_pos (hpush _)]
    split <;> exact ⟨_, rfl⟩
  -- The split goes on behind each separator, with less to read.
  have hfrom : ∀ p pairs, ∃ ps, argsSplitFrom mem pairs p = some ps := by
    intro p
    induction hn : p.length using Nat.strong_induction_on generalizing p with
    | _ n ih =>
      subst hn
      intro pairs
      rw [argsSplitFrom, push, if_pos (hpush _)]
      dsimp only
      split
      · exact ⟨_, rfl⟩
      · next c rest hdrop => exact ih _ (length_rest_lt hdrop) rest rfl _
  have hsplit : ∃ ps, argsSplit mem args = some ps := by
    unfold argsSplit
    split
    · exact ⟨_, rfl⟩
    · exact hfrom args []
  have hreply : ∀ (r : Reply) pairs, ∃ ps, argsReply mem r pairs = some ps := by
    intro r pairs
    unfold argsReply
    generalize (r.argsUnset.getD []).foldl argsUnset pairs = mid
    induction r.argsSet.getD [] generalizing mid with
    | nil => exact ⟨mid, rfl⟩
    | cons kv kvs ih =>
      obtain ⟨next, hnext⟩ := hset mid kv
      rw [List.foldlM_cons, hnext]
      exact ih next
  induction rs generalizing pairs with
  | nil => rfl
  | cons r rs ih =>
    rw [argsLoop]
    by_cases hskip : (!r.edits || !store) = true
    · rw [if_pos hskip, Option.isSome_map]
      exact ih pairs
    · obtain ⟨start, hstart⟩ : ∃ ps, (pairs.orElse fun _ =>
          if mem.create then argsSplit mem args else none) = some ps := by
        cases pairs with
        | some ps => exact ⟨ps, rfl⟩
        | none =>
          obtain ⟨ps, hps⟩ := hsplit
          exact ⟨ps, by rw [Option.orElse_none, if_pos hcreate, hps]⟩
      obtain ⟨mid, hmid⟩ := hreply r start
      rw [if_neg hskip, hstart]
      dsimp only
      rw [hmid]
      dsimp only
      rw [Option.isSome_map]
      exact ih _

/-- Replies that do not count change nothing and need no memory. -/
theorem argsLoop_of_none {mem : Mem} {store : Bool} {args : Bytes} {rs : List Reply}
    (h : ∀ r ∈ rs, (r.edits && store) = false) (pairs : Option (List Pair)) :
    argsLoop mem store args rs pairs = some (rs, pairs) := by
  induction rs with
  | nil => rfl
  | cons r rs ih =>
    have hskip : (!r.edits || !store) = true := by
      rw [← Bool.not_and, h r List.mem_cons_self]
      rfl
    rw [argsLoop, if_pos hskip, ih fun r' hr' => h r' (List.mem_cons_of_mem r hr')]
    rfl

/-! ### Writing the pairs -/

theorem part_view (p : Pair) :
    part p.view = p.name ++ if p.hasEq then 61 :: p.value else [] := by
  unfold part Pair.view
  cases p.hasEq <;> simp

theorem build_eq (first : Bool) (pairs : List Pair) : build first pairs =
    if first then render (live pairs) else (live pairs).flatMap fun x => 38 :: part x := by
  induction pairs generalizing first with
  | nil => cases first <;> rfl
  | cons p ps ih =>
    rw [build, live_cons]
    cases hdead : p.dead with
    | true =>
      simp only [if_true]
      exact ih first
    | false =>
      have hrest := ih false
      rw [if_neg Bool.false_ne_true] at hrest
      rw [if_neg Bool.false_ne_true, if_neg Bool.false_ne_true, hrest]
      cases first with
      | true =>
        rw [if_pos rfl, if_pos rfl, render, List.map_cons, Separated.intercalate_cons, part_view,
          List.nil_append, List.flatMap_map]
      | false =>
        rw [if_neg Bool.false_ne_true, if_neg Bool.false_ne_true, List.flatMap_cons, part_view]
        simp

theorem lenOf_eq (pairs : List Pair) : lenOf pairs = Separated.room ((live pairs).map part) := by
  induction pairs with
  | nil => rfl
  | cons p ps ih =>
    rw [lenOf, live_cons]
    cases hdead : p.dead with
    | true =>
      simp only [if_true]
      exact ih
    | false =>
      simp only [Bool.false_eq_true, if_false, List.map_cons]
      rw [Separated.room_cons, part_view, ih, List.length_append]
      cases p.hasEq <;> simp
      omega

/-- The length that is computed is the length that is written. -/
theorem length_build (pairs : List Pair) : (build true pairs).length = lenOf pairs - 1 := by
  rw [build_eq, if_pos rfl, lenOf_eq, render]
  cases (live pairs).map part with
  | nil => rfl
  | cons x xs =>
    rw [Separated.intercalate_cons, List.length_append, Separated.length_flatMap_sep,
      Separated.room_cons]
    omega

/-! ### Reading a query back -/

/-- No name holds a separator or an equals sign, and no value a separator. -/
def WellFormed (q : Query) : Prop :=
  ∀ x ∈ q, 38 ∉ x.1 ∧ 61 ∉ x.1 ∧ ∀ v ∈ x.2, 38 ∉ v

theorem split_part {x : Bytes × Option Bytes} (h : 61 ∉ x.1) : split (part x) = x := by
  obtain ⟨n, v⟩ := x
  have hall : ∀ c ∈ n, decide (c ≠ 61) = true := by
    intro c hc
    rw [decide_eq_true_eq]
    rintro rfl
    exact h hc
  cases v with
  | none =>
    have hdrop : n.dropWhile (· ≠ 61) = [] := List.dropWhile_eq_nil_iff.2 hall
    simp only [split, part, hdrop]
  | some v =>
    simp only [split, part]
    rw [List.dropWhile_append_of_pos hall, List.takeWhile_append_of_pos hall,
      List.dropWhile_cons_of_neg (by simp), List.takeWhile_cons_of_neg (by simp), List.append_nil]

theorem not_mem_part {x : Bytes × Option Bytes} (h : 38 ∉ x.1 ∧ 61 ∉ x.1 ∧ ∀ v ∈ x.2, 38 ∉ v) :
    38 ∉ part x := by
  obtain ⟨n, v⟩ := x
  cases v with
  | none => exact h.1
  | some v =>
    simp only [part, List.mem_append, List.mem_cons, not_or]
    exact ⟨h.1, by decide, h.2.2 v rfl⟩

theorem wellFormed_parse (args : Bytes) : WellFormed (parse args) := by
  intro x hx
  unfold parse at hx
  split at hx
  · cases hx
  obtain ⟨s, hs, rfl⟩ := List.mem_map.1 hx
  have hsep : (38 : UInt8) ∉ s := Separated.not_mem_of_mem_splitOn hs
  unfold split
  split
  · next hdrop =>
    refine ⟨hsep, fun hmem => ?_, fun v hv => by cases hv⟩
    simpa using List.dropWhile_eq_nil_iff.1 hdrop 61 hmem
  · next c v hdrop =>
    have hsub : (c :: v).Sublist s := hdrop ▸ List.dropWhile_sublist _
    refine ⟨fun hmem => hsep ((List.takeWhile_sublist _).subset hmem), ?_, ?_⟩
    · exact Separated.not_mem_takeWhile 61 s
    · intro w hw
      cases hw
      exact fun hmem => hsep (hsub.subset (List.mem_cons_of_mem c hmem))

theorem argClean_name {s : Bytes} (h : argClean s true = true) : 38 ∉ s ∧ 61 ∉ s := by
  simp only [argClean, Bool.and_eq_true, List.all_eq_true] at h
  constructor
  · intro hmem
    simpa using h.2 38 hmem
  · intro hmem
    simpa using h.2 61 hmem

theorem argClean_value {s : Bytes} (h : argClean s false = true) : 38 ∉ s := by
  simp only [argClean, Bool.and_eq_true, List.all_eq_true] at h
  intro hmem
  simpa using h.2 38 hmem

theorem WellFormed.unset {q : Query} (h : WellFormed q) (name : Bytes) :
    WellFormed (Edits.unset name q) := fun x hx => h x (List.mem_of_mem_filter hx)

theorem WellFormed.set {q : Query} (h : WellFormed q) {key value : Bytes}
    (hkey : argClean key true = true) (hvalue : argClean value false = true) :
    WellFormed (Edits.set key value q) := by
  have hnew : 38 ∉ key ∧ 61 ∉ key ∧ ∀ v ∈ some value, 38 ∉ v := by
    refine ⟨(argClean_name hkey).1, (argClean_name hkey).2, fun v hv => ?_⟩
    cases hv
    exact argClean_value hvalue
  intro x hx
  unfold Edits.set at hx
  split at hx
  · rcases List.mem_append.1 hx with hx | hx
    · exact h x hx
    · rw [List.mem_singleton.1 hx]
      exact hnew
  · rcases List.mem_append.1 hx with hx | hx
    · exact h x (List.mem_of_mem_take hx)
    · rcases List.mem_cons.1 hx with rfl | hx
      · exact hnew
      · exact h x (List.mem_of_mem_drop (List.mem_of_mem_filter hx))

/-- The edits that `ngx_http_waf_reply_args` accepts. -/
structure Reply.Clean (r : Reply) : Prop where
  set : ∀ kvs, r.argsSet = some kvs →
    ∀ kv ∈ kvs, argClean kv.1 true = true ∧ argClean kv.2 false = true
  unset : ∀ names, r.argsUnset = some names → ∀ name ∈ names, argClean name true = true

theorem WellFormed.editOf {q : Query} (h : WellFormed q) {r : Reply} (hr : r.Clean) :
    WellFormed (Edits.editOf r q) := by
  have hunset : ∀ (names : List Bytes) (q : Query), WellFormed q →
      WellFormed (names.foldl (fun q name => Edits.unset name q) q) := by
    intro names
    induction names with
    | nil => exact fun _ hq => hq
    | cons name names ih => exact fun q hq => ih _ (hq.unset name)
  have hset : ∀ (kvs : List (Bytes × Bytes)) (q : Query), WellFormed q →
      (∀ kv ∈ kvs, argClean kv.1 true = true ∧ argClean kv.2 false = true) →
      WellFormed (kvs.foldl (fun q kv => Edits.set kv.1 kv.2 q) q) := by
    intro kvs
    induction kvs with
    | nil => exact fun _ hq _ => hq
    | cons kv kvs ih =>
      intro q hq hkvs
      obtain ⟨hkey, hvalue⟩ := hkvs kv List.mem_cons_self
      exact ih _ (hq.set hkey hvalue) fun kv' hkv' => hkvs kv' (List.mem_cons_of_mem kv hkv')
  refine hset _ _ (hunset _ _ h) ?_
  cases hkvs : r.argsSet with
  | none => exact fun kv hkv => absurd hkv List.not_mem_nil
  | some kvs => exact hr.set kvs hkvs

theorem WellFormed.editAll {q : Query} (h : WellFormed q) {rs : List Reply} (hrs : ∀ r ∈ rs, r.Clean)
    (store : Bool) : WellFormed (Edits.editAll store rs q) := by
  unfold Edits.editAll
  have hall : ∀ r ∈ rs.filter fun r => r.edits && store, r.Clean :=
    fun r hr => hrs r (List.mem_of_mem_filter hr)
  generalize rs.filter (fun r => r.edits && store) = rs' at hall
  induction rs' generalizing q with
  | nil => exact h
  | cons r rs' ih =>
    exact ih (h.editOf (hall r List.mem_cons_self)) fun r' hr' => hall r' (List.mem_cons_of_mem r hr')

/-- **A query that is written is read back**, but for the one that is a single empty part. -/
theorem parse_render {q : Query} (h : WellFormed q) (hne : q ≠ [([], none)]) :
    parse (render q) = q := by
  rcases eq_or_ne q [] with rfl | hq
  · rfl
  have hparts : ∀ l ∈ q.map part, (38 : UInt8) ∉ l := by
    intro l hl
    obtain ⟨x, hx, rfl⟩ := List.mem_map.1 hl
    exact not_mem_part (h x hx)
  have hsplit : (render q).splitOn 38 = q.map part :=
    List.splitOn_intercalate 38 hparts (by simpa using hq)
  have hrender : render q ≠ [] := by
    intro hnil
    rw [hnil] at hsplit
    obtain ⟨x, xs, rfl⟩ := List.exists_cons_of_ne_nil hq
    have hone : ([] : Bytes).splitOn 38 = [[]] := List.splitOn_eq_singleton List.not_mem_nil
    rw [hone, List.map_cons, List.cons.injEq] at hsplit
    obtain ⟨hpart, hxs⟩ := hsplit
    obtain rfl := List.map_eq_nil_iff.1 hxs.symm
    have hx := split_part (h x List.mem_cons_self).2.1
    rw [← hpart] at hx
    exact hne (by rw [← hx]; rfl)
  rw [parse, if_neg hrender, hsplit, List.map_map]
  refine (List.map_congr_left fun x hx => ?_).trans (List.map_id q)
  exact split_part (h x hx).2.1

/-! ### The result -/

/-- The request may be edited, and some reply asks for it. -/
def Ctx.Asked (c : Ctx) (rs : List Reply) : Prop :=
  c.phase = .request ∧ c.verdict = .allow ∧ c.byLocal = false ∧ ∃ r ∈ rs, (r.edits && c.store) = true

/-- The request with the edits made. -/
def Ctx.edited (c : Ctx) (rs : List Reply) : Ctx :=
  { c with
    replies := some (rs.map (Reply.mark c.store))
    args := render (editAll c.store rs (parse c.args))
    validUnparsedUri := false }

/-- Memory for everything. -/
structure Mem.Enough (mem : Mem) : Prop where
  create : mem.create = true
  push : ∀ n, mem.push n = true
  out : mem.out = true

theorem argsApply_asked {mem : Mem} {c : Ctx} {rs : List Reply} (hrs : c.replies = some rs)
    (hasked : c.Asked rs) : argsApply mem c =
      match argsLoop mem c.store c.args rs none with
      | none => c.undo rs
      | some _ =>
        if c.cap < (c.edited rs).args.length then c.undo rs
        else if mem.out then c.edited rs
        else c.undo rs := by
  obtain ⟨hphase, hverdict, hlocal, r, hr, hcounts⟩ := hasked
  have hcond : ¬ (c.phase ≠ .request ∨ c.verdict ≠ .allow ∨ c.byLocal = true) := by
    simp [hphase, hverdict, hlocal]
  unfold argsApply
  rw [hrs]
  dsimp only
  rw [if_neg hcond]
  cases hloop : argsLoop mem c.store c.args rs none with
  | none => rfl
  | some x =>
    obtain ⟨rs', pairs'⟩ := x
    obtain ⟨hmarks, hnone, hlive⟩ := argsLoop_spec hloop
    cases pairs' with
    | none =>
      have hno := (hnone.1 rfl).2 r hr
      rw [hcounts] at hno
      cases hno
    | some pairs =>
      have hq : live pairs = editAll c.store rs (parse c.args) := hlive pairs rfl
      have hbuild : build true pairs = (c.edited rs).args := by
        rw [build_eq, if_pos rfl, hq]
        rfl
      dsimp only
      rw [← length_build, hbuild, hmarks]
      rfl

/-- **The query string is edited exactly, or not at all.**  Where nothing is asked for, nothing
happens.  Otherwise either the string and all marks are as if nothing had been asked for, or the
string is the original one with the edits of each inspector made in order, within the limit, and it
reads back as that; the latter is so whenever the string fits and there is memory. -/
theorem args_apply_exact (mem : Mem) (c : Ctx) (rs : List Reply) (hrs : c.replies = some rs)
    (hclean : ∀ r ∈ rs, r.Clean) :
    (¬ c.Asked rs → argsApply mem c = c) ∧
      (c.Asked rs → argsApply mem c = c.undo rs ∨
        (argsApply mem c = c.edited rs ∧ (c.edited rs).args.length ≤ c.cap)) ∧
      (c.Asked rs → mem.Enough → (c.edited rs).args.length ≤ c.cap → argsApply mem c = c.edited rs) ∧
      WellFormed (editAll c.store rs (parse c.args)) ∧
      (editAll c.store rs (parse c.args) ≠ [([], none)] →
        parse (c.edited rs).args = editAll c.store rs (parse c.args)) := by
  have hwf := (wellFormed_parse c.args).editAll hclean c.store
  refine ⟨fun hnot => ?_, fun hasked => ?_, fun hasked hmem hcap => ?_, hwf, parse_render hwf⟩
  · unfold argsApply
    rw [hrs]
    dsimp only
    split
    · rfl
    · next hcond =>
      simp only [ne_eq, not_or, not_not, Bool.not_eq_true] at hcond
      obtain ⟨hphase, hverdict, hlocal⟩ := hcond
      have hno : ∀ r ∈ rs, (r.edits && c.store) = false := by
        intro r hr
        by_contra hyes
        exact hnot ⟨hphase, hverdict, hlocal, r, hr, Bool.eq_true_of_not_eq_false hyes⟩
      rw [argsLoop_of_none hno]
  · rw [argsApply_asked hrs hasked]
    split
    · exact .inl rfl
    · split
      · exact .inl rfl
      · next hcap =>
        split
        · exact .inr ⟨rfl, Nat.le_of_not_lt hcap⟩
        · exact .inl rfl
  · rw [argsApply_asked hrs hasked]
    have hsome := argsLoop_isSome hmem.create hmem.push c.store c.args rs none
    cases hloop : argsLoop mem c.store c.args rs none with
    | none =>
      rw [hloop] at hsome
      cases hsome
    | some x =>
      dsimp only
      rw [if_neg (Nat.not_lt.2 hcap), if_pos hmem.out]

/-- Two inspectors: the first one sets `a`, the second one takes out `b`. -/
def twoEdits : List Reply :=
  [⟨true, false, false, some [(ascii "a", ascii "x")], none, false⟩,
    ⟨true, false, false, none, some [ascii "b"], false⟩]

/-- A request with two pairs of the one name. -/
def twice : Ctx :=
  ⟨.request, .allow, false, some twoEdits, true, 64, ascii "a=1&b&c=&a=2", true⟩

theorem twice_edited :
    (argsApply ⟨true, fun _ => true, true⟩ twice).args = ascii "a=x&c=" := by
  have hclean : ∀ r ∈ twoEdits, r.Clean := by
    intro r hr
    simp only [twoEdits, List.mem_cons, List.not_mem_nil, or_false] at hr
    rcases hr with rfl | rfl
    · refine ⟨fun kvs hkvs kv hkv => ?_, fun _ h => by cases h⟩
      cases hkvs
      rw [List.mem_singleton.1 hkv]
      decide
    · refine ⟨(fun _ h => by cases h), fun names hnames name hname => ?_⟩
      cases hnames
      rw [List.mem_singleton.1 hname]
      decide
  have hargs : (twice.edited twoEdits).args = ascii "a=x&c=" := by decide +kernel
  have hdone := (args_apply_exact ⟨true, fun _ => true, true⟩ twice twoEdits rfl hclean).2.2.1
    ⟨rfl, rfl, rfl, _, List.mem_cons_self, rfl⟩ ⟨rfl, fun _ => rfl, rfl⟩ (by rw [hargs]; decide)
  rw [hdone, hargs]

end Edits
