import PlacitumNode.Lib.Machine
import PlacitumNode.Lib.Octets
import PlacitumNode.Lib.Run
import PlacitumNode.Lib.SearchTree

/-!
# The live overlay of a dataset (`local/ngx_http_waf_ds_live.c`)

The entries a keeper sends and the bans of the node itself are kept in a red-black tree in shared
memory, ordered by the checksum of the key and then by its bytes.  Beside the tree stand four
summaries: the number of entries, the XOR of the keeper's hashes, and for each family and prefix
length the number of networks.

* `LiveNode`, `Live`, `Slot`: the data;
* `livePut`, `liveDrop`, `liveMark`, `liveBegin`, `liveSweep`, `liveReset`: the operations that
  change it, with the answers of the slab allocator as an argument;
* `liveHit`: the lookup of a key;
* `LiveOp`, `liveStep`: any of the operations, by any worker under the slot's lock.

The checksum is a parameter, and so is what nginx's red-black tree does besides the insertion itself.
-/

namespace Dataset

open Octets Machine SearchTree

/-- `NGX_HTTP_WAF_DS_CIDR` and `NGX_HTTP_WAF_DS_STRING` -/
inductive DsType
  | cidr
  | string
  deriving DecidableEq

/-- The family of an address, `fam` in the source. -/
inductive Fam
  | v4
  | v6
  deriving DecidableEq

/-- The return codes of nginx the overlay uses. -/
inductive Rc
  | ok
  | error
  | busy
  | declined
  deriving DecidableEq

/-- `ngx_http_waf_ds_live_node_t`, with the key of its tree node. -/
structure LiveNode where
  hash : ℕ
  data : Bytes
  gen : ℕ
  expires : ℕ
  h : UInt64
  deriving DecidableEq

/-- What the tree is ordered by. -/
def LiveNode.id (ln : LiveNode) : ℕ × Bytes := (ln.hash, ln.data)

/-- The checksum first, then `ngx_memn2cmp`. -/
abbrev liveCmp : ℕ × Bytes → ℕ × Bytes → Ordering := lexOrd.compare

/-- `ngx_http_waf_ds_live_t` -/
structure Live where
  tree : Bst LiveNode
  n : ℕ
  max : ℕ
  gen : ℕ
  lens : Fam → ℕ → ℕ

/-- The part of `ngx_http_waf_ds_slot_t` that the overlay and its keeper use. -/
structure Slot where
  type : DsType
  live : Option Live
  liveMax : ℕ
  seq : UInt64
  epoch : UInt64
  key : Bytes
  liveHash : UInt64
  syncing : Bool
  snapBad : Bool

/-- `NGX_HTTP_WAF_DS_ENTRY_MAX` -/
def entryMax : ℕ := 4096

/-- The limit of the overlay, `NGX_HTTP_WAF_DS_LIVE_MAX` by default. -/
def Slot.liveLimit (slot : Slot) : ℕ := if slot.liveMax ≠ 0 then slot.liveMax else 10000

/-- The answer of `ngx_http_waf_ds_live_bits`. -/
inductive Bits
  | declined
  | error
  | ok (fam : Fam) (bits : ℕ)
  deriving DecidableEq

def liveBits (type : DsType) (key : Bytes) : Bits :=
  if type ≠ .cidr then .declined
  else if key.length = 6 ∧ key.getD 0 0 = 4 ∧ key.getD 1 0 ≤ 32 then .ok .v4 (key.getD 1 0).toNat
  else if key.length = 18 ∧ key.getD 0 0 = 6 ∧ key.getD 1 0 ≤ 128 then .ok .v6 (key.getD 1 0).toNat
  else .error

/-- The overlay of the slot, made when there is none and the slab has `room` for it. -/
def liveEnsure (room : Bool) (slot : Slot) : Option Live :=
  match slot.live with
  | some live => some { live with max := slot.liveLimit }
  | none =>
    if room then
      some { tree := .nil, n := 0, max := slot.liveLimit, gen := 1, lens := fun _ _ => 0 }
    else none

/-- One network more, or one less, of a family and a prefix length. -/
def Live.count (live : Live) (fam : Fam) (bits : ℕ) (f : ℕ → ℕ) : Live :=
  { live with lens := fun g b => if g = fam ∧ b = bits then f (live.lens g b) else live.lens g b }

section

variable (crc : Bytes → ℕ) (bal : Balance LiveNode.id)

def liveLookup (live : Live) (key : Bytes) : Option LiveNode :=
  live.tree.search liveCmp LiveNode.id (crc key, key)

/-- `ngx_http_waf_ds_live_delete` -/
def liveDelete (slot : Slot) (live : Live) (ln : LiveNode) : Slot :=
  let counted : Live :=
    match liveBits slot.type ln.data with
    | .ok fam bits => if live.lens fam bits > 0 then live.count fam bits (· - 1) else live
    | _ => live
  { slot with
    liveHash := slot.liveHash ^^^ ln.h
    live := some { counted with
      tree := bal.delete ln.id live.tree
      n := if live.n > 0 then live.n - 1 else live.n } }

/-- `ngx_http_waf_ds_live_put`.  `room` are the answers of the two slab allocations. -/
def livePut (slot : Slot) (key : Bytes) (expires : ℕ) (h : UInt64) (gen : ℕ) (room : Bool × Bool) :
    Rc × Slot :=
  if key.length = 0 ∨ key.length > entryMax then (.error, slot)
  else
    let rc := liveBits slot.type key
    if rc = .error then (.error, slot)
    else
      match liveEnsure room.1 slot with
      | none => (.error, slot)
      | some live =>
        let slot := { slot with live := some live }
        match liveLookup crc live key with
        | some ln =>
          let set (f : LiveNode → LiveNode) : Live :=
            { live with tree := live.tree.modify LiveNode.id ln.id f }
          if h ≠ 0 then
            let slot :=
              if ln.h ≠ h then { slot with liveHash := slot.liveHash ^^^ (ln.h ^^^ h) } else slot
            if ln.expires = expires then
              (.declined, { slot with live := some (set fun ln => { ln with gen := gen, h := h }) })
            else
              (.ok, { slot with
                live := some (set fun ln => { ln with gen := gen, h := h, expires := expires }) })
          else if expires ≠ 0 ∧ ln.expires ≠ 0 ∧ expires ≤ ln.expires then
            (.declined, { slot with live := some (set fun ln => { ln with gen := gen }) })
          else
            (.ok, { slot with
              live := some (set fun ln => { ln with gen := gen, expires := expires }) })
        | none =>
          if live.n ≥ live.max then (.busy, slot)
          else if room.2 = false then (.error, slot)
          else
            let node : LiveNode := ⟨crc key, key, gen, expires, h⟩
            let live := { live with
              tree := bal.fix (live.tree.insert liveCmp LiveNode.id node)
              n := live.n + 1 }
            let live :=
              match rc with
              | .ok fam bits => live.count fam bits (· + 1)
              | _ => live
            (.ok, { slot with live := some live, liveHash := slot.liveHash ^^^ h })

def liveDrop (slot : Slot) (key : Bytes) : Rc × Slot :=
  match slot.live with
  | none => (.declined, slot)
  | some live =>
    if key.length = 0 then (.declined, slot)
    else
      match liveLookup crc live key with
      | none => (.declined, slot)
      | some ln => (.ok, liveDelete bal slot live ln)

def liveMark (slot : Slot) (key : Bytes) (gen : ℕ) : Slot :=
  match slot.live with
  | none => slot
  | some live =>
    if key.length = 0 then slot
    else
      match liveLookup crc live key with
      | none => slot
      | some ln =>
        { slot with
          live := some { live with
            tree := live.tree.modify LiveNode.id ln.id fun ln => { ln with gen := gen } } }

/-- `ngx_http_waf_ds_live_begin`: the new generation, and the slot; no generation without room. -/
def liveBegin (slot : Slot) (room : Bool) : Option (ℕ × Slot) :=
  match liveEnsure room slot with
  | none => none
  | some live =>
    let gen := if (live.gen + 1) % 2 ^ 32 = 0 then 1 else (live.gen + 1) % 2 ^ 32
    some (gen, { slot with live := some { live with gen := gen } })

def liveGen (slot : Slot) : ℕ := (slot.live.map Live.gen).getD 1

/-- The loop of `ngx_http_waf_ds_live_sweep` from a node on: where it stops, and how many it swept. -/
def sweepLoop (gen : ℕ) : ℕ → Option (ℕ × Bytes) → ℕ → Slot → Option (ℕ × Bytes) × ℕ × Slot
  | 0, node, swept, slot => (node, swept, slot)
  | _ + 1, none, swept, slot => (none, swept, slot)
  | n + 1, some node, swept, slot =>
    match slot.live with
    | none => (none, swept, slot)
    | some live =>
      match live.tree.search liveCmp LiveNode.id node with
      | none => (none, swept, slot)
      | some ln =>
        let next := (live.tree.next LiveNode.id node).map LiveNode.id
        if ln.gen ≠ gen then sweepLoop gen n next (swept + 1) (liveDelete bal slot live ln)
        else sweepLoop gen n next swept slot

/-- `ngx_http_waf_ds_live_sweep`: at most `batch` nodes from the cursor on; whether there is more
(`NGX_AGAIN`), the cursor, and the number of nodes swept.  A cursor is a node of the tree, or none
before the first batch and after the last. -/
def liveSweep (slot : Slot) (gen batch : ℕ) (cursor : Option (ℕ × Bytes)) :
    Bool × Option (ℕ × Bytes) × ℕ × Slot :=
  match slot.live with
  | none => (false, cursor, 0, slot)
  | some live =>
    match live.tree.first with
    | none => (false, cursor, 0, slot)
    | some ln =>
      let r := sweepLoop bal gen batch (cursor.or (some ln.id)) 0 slot
      (r.1.isSome, r)

/-- The loop of `ngx_http_waf_ds_live_reset`: the first node leaves while there is one. -/
def resetLoop : ℕ → Slot → Slot
  | 0, slot => slot
  | fuel + 1, slot =>
    match slot.live with
    | none => slot
    | some live =>
      match live.tree.first with
      | none => slot
      | some ln => resetLoop fuel (liveDelete bal slot live ln)

def liveReset (slot : Slot) : Slot :=
  match slot.live with
  | none => slot
  | some live =>
    let slot := resetLoop bal live.tree.toList.length slot
    { slot with
      live := slot.live.map fun live => { live with n := 0, lens := fun _ _ => 0 }
      liveHash := 0 }

/-- An entry is not past its time. -/
def LiveNode.lasts (ln : LiveNode) (now : ℕ) : Bool :=
  ln.expires == 0 || decide (0 ≤ signed ((ln.expires : ℤ) - now))

def liveHit (slot : Slot) (value : Bytes) (now : ℕ) : Bool :=
  match slot.live with
  | none => false
  | some live =>
    if value.length = 0 then false
    else (liveLookup crc live value).any fun ln => ln.lasts now

/-! ### Sequences of operations -/

inductive LiveOp
  | put (key : Bytes) (expires : ℕ) (h : UInt64) (gen : ℕ) (room : Bool × Bool)
  | drop (key : Bytes)
  | mark (key : Bytes) (gen : ℕ)
  | begin (room : Bool)
  | sweep (gen batch : ℕ) (cursor : Option (ℕ × Bytes))
  | reset

def liveStep (slot : Slot) : LiveOp → Slot
  | .put key expires h gen room => (livePut crc bal slot key expires h gen room).2
  | .drop key => (liveDrop crc bal slot key).2
  | .mark key gen => liveMark crc slot key gen
  | .begin room => ((liveBegin slot room).map Prod.snd).getD slot
  | .sweep gen batch cursor => (liveSweep bal slot gen batch cursor).2.2.2
  | .reset => liveReset bal slot

end

end Dataset
