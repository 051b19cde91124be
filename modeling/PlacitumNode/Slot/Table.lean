import PlacitumNode.Lib.Octets

/-!
# The table of wait slots (`runtime/ngx_http_waf_slot.c`)

A worker parks a request that waits for inspectors in a slot.  Free slots form a list through
`nextFree`, so a slot is reused last in, first out; every acquisition takes the next number of a
40-bit sequence as the slot's generation, and generation and index together are the request id
(`rid`) under which inspectors answer and objects are stored.

* `slotTableInit`, `nextGen`, `slotAcquire`, `slotLookup`, `slotRelease`, `slotDetach`;
* `ensureSlot`, `slotDrop`: how a request's phase takes and leaves a slot;
* `ridHex`, `bodyKey`: the name of a stored object.
-/

namespace Slots

open Octets

def indexBits : ℕ := 24
def indexMask : ℕ := 2 ^ indexBits - 1
def genMask : ℕ := 2 ^ 40 - 1

/-- `ngx_http_waf_phase_e` -/
inductive Phase
  | request
  | response
  | frameC2s
  | frameS2c
  deriving DecidableEq

/-- The objects of a phase that can be placed in the store. -/
inductive Obj
  | headers
  | args
  | body
  deriving DecidableEq

/-- The slot fields of `ngx_http_waf_ctx_t`; `none` is `NGX_HTTP_WAF_SLOT_NIL`. -/
structure Ctx where
  slot : Option ℕ
  rid : ℕ
  ridHex : Bytes
  phase : Phase

/-- A context as `ngx_http_waf_access` creates it. -/
def Ctx.init : Ctx := ⟨none, 0, List.replicate 16 45, .request⟩

/-- `ngx_http_waf_slot_t`: its generation, its place in the free list and its owner. -/
structure Slot (ρ : Type*) where
  gen : ℕ
  nextFree : Option ℕ
  ctx : Option ρ

/-- A worker: its `ngx_http_waf_slot_table_t` and the contexts of its requests `ρ`. -/
structure Worker (ρ : Type*) where
  slots : ℕ → Slot ρ
  nslots : ℕ
  freeHead : Option ℕ
  seq : ℕ
  ctx : ρ → Ctx

/-- The first number of the sequence, from the worker's random number and process id. -/
def seqStart (random pid : ℕ) : ℕ := ((random <<< 32) ^^^ pid) &&& genMask

/-- A table of free slots, chained from the first to the last. -/
def freeTable {ρ : Type*} (nslots random pid : ℕ) : Worker ρ where
  slots := fun i => ⟨0, if i + 1 < nslots then some (i + 1) else none, none⟩
  nslots := nslots
  freeHead := some 0
  seq := seqStart random pid
  ctx := fun _ => Ctx.init

/-- `ngx_http_waf_slot_table_init`, which refuses the sizes that an index cannot hold. -/
def slotTableInit {ρ : Type*} (nslots random pid : ℕ) : Option (Worker ρ) :=
  if nslots = 0 ∨ indexMask < nslots then none else some (freeTable nslots random pid)

/-- `ngx_http_waf_next_gen`: the loop leaves out the number zero and so runs at most twice. -/
def nextGen (seq : ℕ) : ℕ :=
  let gen := (seq + 1) &&& genMask
  if gen = 0 then (gen + 1) &&& genMask else gen

/-- `ngx_http_waf_rid_hex` -/
def ridHex (rid : ℕ) : Bytes := hexField 16 rid

variable {ρ : Type*} [DecidableEq ρ]

/-- Sets the slot field of one context. -/
def Worker.setSlot (w : Worker ρ) (r : ρ) (slot : Option ℕ) : Worker ρ :=
  { w with ctx := Function.update w.ctx r { w.ctx r with slot := slot } }

/-- `ngx_http_waf_slot_release` -/
def slotRelease (w : Worker ρ) (index : ℕ) : Worker ρ :=
  let slot := w.slots index
  if slot.gen = 0 then w
  else
    let w := match slot.ctx with
      | some r => if (w.ctx r).slot = some index then w.setSlot r none else w
      | none => w
    { w with
      slots := Function.update w.slots index ⟨0, w.freeHead, none⟩
      freeHead := some index }

/-- `ngx_http_waf_slot_acquire`; `cleanup` says whether the pool cleanup could be registered. -/
def slotAcquire (w : Worker ρ) (r : ρ) (cleanup : Bool) : Option ℕ × Worker ρ :=
  match w.freeHead with
  | none => (none, w)
  | some index =>
    let gen := nextGen w.seq
    let rid := (gen <<< indexBits) ||| index
    let w :=
      { w with
        freeHead := (w.slots index).nextFree
        seq := gen
        slots := Function.update w.slots index ⟨gen, none, some r⟩
        ctx := Function.update w.ctx r
          { w.ctx r with slot := some index, rid := rid, ridHex := ridHex rid } }
    if cleanup then (some index, w) else (none, slotRelease w index)

/-- `ngx_http_waf_slot_lookup` -/
def slotLookup (w : Worker ρ) (rid : ℕ) : Option ℕ :=
  let index := rid &&& indexMask
  if w.nslots ≤ index then none
  else if (w.slots index).gen ≠ rid >>> indexBits then none
  else if (w.slots index).ctx = none then none
  else some index

/-- `ngx_http_waf_slot_detach` -/
def slotDetach (w : Worker ρ) (r : ρ) : Worker ρ :=
  match (w.ctx r).slot with
  | none => w
  | some index =>
    if w.nslots ≤ index then w
    else
      let w := if (w.slots index).gen = (w.ctx r).rid >>> indexBits then slotRelease w index else w
      w.setSlot r none

/-- `ngx_http_waf_ensure_slot` -/
def ensureSlot (w : Worker ρ) (r : ρ) (cleanup : Bool) : Option ℕ × Worker ρ :=
  if (w.ctx r).slot ≠ none then (slotLookup w (w.ctx r).rid, w)
  else slotAcquire w r cleanup

/-- `ngx_http_waf_slot_drop` -/
def slotDrop (w : Worker ρ) (r : ρ) : Worker ρ :=
  if (w.ctx r).slot = none then w
  else
    let w := match slotLookup w (w.ctx r).rid with
      | some index => slotRelease w index
      | none => w
    w.setSlot r none

/-! ### Names of stored objects (`body/ngx_http_waf_body.c`) -/

/-- `ngx_http_waf_body_phase_tag` -/
def Phase.tag : Phase → Bytes
  | request => ascii "req"
  | response => ascii "rsp"
  | frameC2s => ascii "frm"
  | frameS2c => ascii "frm"

/-- The suffix column of `ngx_http_waf_objs`. -/
def Obj.suffix : Obj → Bytes
  | headers => ascii "hdr"
  | args => ascii "arg"
  | body => []

/-- `ngx_http_waf_body_key` -/
def bodyKey (nodeId : Bytes) (ctx : Ctx) (suffix : Bytes) : Bytes :=
  nodeId ++ [58] ++ ctx.ridHex ++ [58] ++ ctx.phase.tag
    ++ if suffix ≠ [] then 58 :: suffix else []

end Slots
