import PlacitumNode.Slot.Table
import PlacitumNode.Wave.State
import PlacitumNode.Retain.Record

/-!
# Objects that ride with the audit record (`runtime/ngx_http_waf_attach.c`)

An object of the archive that the exchange cannot serve is written into a memory file, which goes to
the agent with the record.

* `Ctx`: the phase of a request, with its archive configuration and its objects;
* `Ctx.archiveWants`, `Ctx.storeServes`, `Ctx.attachable`, `Ctx.archiveMask`: which objects are
  archived (`body/ngx_http_waf_body.c`);
* `attachWrite`, `bodyAttach`, `attachOne`, `attachPrepare`: the memory file;
* `locatorWrite`, `auditStore`: the section `store` of the record;
* `attachments`: what the agent takes out of the file (`agent/internal/audit/attach.go`).

`World` says which of the calls fail.
-/

namespace Attach

open Octets Retain

/-- `NGX_HTTP_WAF_AGENT_WHOLE` -/
def agentWhole : ℕ := 2 ^ 64 - 1

/-- `ngx_http_waf_set_e` -/
inductive Setting
  | none
  | on
  | off
  deriving DecidableEq

/-- `ngx_http_waf_source_e` -/
inductive Source
  | none
  | store
  | original
  | sent
  deriving DecidableEq

/-- `ngx_http_waf_ovr_part_t`: what an inspector asked for. -/
structure Override where
  set : Setting
  when : Option (Waves.Verdict → Bool)
  named : Kind → Bool
  off : Kind → Bool
  limit : Kind → Option ℕ
  source : Kind → Source

def Override.on (o : Override) (k : Kind) : Bool := o.named k && !o.off k

def Override.original (o : Override) (k : Kind) : Bool :=
  o.set = .on && o.on k && o.source k = .original

def Override.store (o : Override) (k : Kind) : Bool :=
  o.set = .on && o.on k && o.source k = .store

/-- `ngx_http_waf_shoot_conf_t`: the archive and the capture lists of a phase. -/
structure Shoot where
  archive : Kind → Bool
  archiveWhen : Kind → Waves.Verdict → Bool
  archiveLimit : Kind → ℕ
  archiveOriginal : Kind → Bool
  captureMask : Kind → List Bytes
  captureDeny : Kind → List Bytes

/-- `ngx_http_waf_locator_t`.  The store, when there is one, is the exchange, and is set together with
the key. -/
structure Loc where
  unavailable : Option String
  size : ℕ
  declaredSize : ℕ
  sha256 : Option Bytes
  complete : Bool
  truncated : Bool
  encoding : String
  stored : Bool
  driver : String
  key : String
  expiresAt : ℤ
  hint : String
  offset : ℕ
  keyed : key ≠ "" → stored = true

/-- A buffer of the body. -/
inductive Buf
  | memory (data : Bytes)
  | file (data : Bytes)

def Buf.data : Buf → Bytes
  | memory data => data
  | file data => data

/-- The fields of the request and of its phase.  `collect` is what the collectors of the headers and
of the query give, raw or under the capture masks; `settled` is the mask of the archive, once it has
been decided. -/
structure Ctx where
  phase : Slots.Phase
  auditEnabled : Bool
  logged : Bool
  frameWanted : Bool
  verdict : Waves.Verdict
  ovr : Override
  shoot : Shoot
  bodyLimit : ℕ
  trim : Bool
  placed : Kind → Option Loc
  metaTruncated : Kind → Bool
  storeBlob : Kind → Bytes
  bodyPlacedLen : ℕ
  bodyReady : Bool
  bodyDiscarded : Bool
  source : List Buf
  collect : Kind → Bool → Option Bytes
  encoding : String
  rspLast : Bool
  rspJournal : Bool
  rspJournalTotal : ℕ
  contentLength : ℕ
  sha256 : Bytes → Bytes
  settled : Option (Kind → Bool)

def isFrame : Slots.Phase → Bool
  | .frameC2s => true
  | .frameS2c => true
  | _ => false

/-! ### What is archived -/

/-- `ngx_http_waf_archive_wants`: how much of the object, `0` for nothing. -/
def Ctx.archiveWants (c : Ctx) (k : Kind) : ℕ :=
  let whole := fun limit => if limit = 0 then agentWhole else limit
  if c.ovr.set = .off then 0
  else if c.ovr.set = .on ∧ c.auditEnabled then
    let mask :=
      if kinds.any c.ovr.on then c.ovr.on k
      else (if kinds.any c.shoot.archive then c.shoot.archive k else true) && !c.ovr.off k
    if !mask then 0
    else if (c.ovr.when.map fun w => w c.verdict) = some false then 0
    else whole ((c.ovr.limit k).getD (c.shoot.archiveLimit k))
  else if !c.shoot.archive k || !c.shoot.archiveWhen k c.verdict then 0
  else whole (c.shoot.archiveLimit k)

/-- `ngx_http_waf_archive_original` -/
def Ctx.archiveOriginal (c : Ctx) (k : Kind) : Bool :=
  if c.ovr.original k then true
  else if c.ovr.store k then false
  else c.shoot.archiveOriginal k

/-- `ngx_http_waf_capture_masks` -/
def Ctx.captureMasks (c : Ctx) (k : Kind) : Bool :=
  k ≠ .body && (c.shoot.captureMask k ≠ [] || c.shoot.captureDeny k ≠ [])

/-- `ngx_http_waf_store_serves` -/
def Ctx.storeServes (c : Ctx) (k : Kind) : Bool :=
  match c.placed k with
  | none => false
  | some loc =>
    if loc.unavailable.isSome || loc.key = "" then false
    else if c.archiveOriginal k && c.captureMasks k then false
    else if k = .body then
      loc.complete || (c.archiveWants k ≠ agentWhole && c.archiveWants k ≤ c.bodyPlacedLen)
    else
      !c.metaTruncated k ||
        (c.archiveWants k ≠ agentWhole && c.archiveWants k ≤ (c.storeBlob k).length)

/-- `ngx_http_waf_body_length` -/
def Ctx.bodyLength (c : Ctx) : ℕ := (c.source.map fun b => b.data.length).sum

/-- `ngx_http_waf_body_attach_len` -/
def Ctx.bodyAttachLen (c : Ctx) (limit : ℕ) : ℕ :=
  if c.phase = .request ∧ (!c.bodyReady ∨ c.bodyDiscarded) then 0
  else
    let len := c.bodyLength
    if c.bodyLimit < len ∧ !c.trim then 0
    else
      let len := min len c.bodyLimit
      if limit ≠ agentWhole then min len limit else len

/-- `ngx_http_waf_attachable` -/
def Ctx.attachable (c : Ctx) (k : Kind) : Bool :=
  if isFrame c.phase then k = .body && c.bodyAttachLen agentWhole ≠ 0
  else
    match k with
    | .headers => true
    | .args =>
      c.phase = .request && ((c.collect .args (c.archiveOriginal .args)).getD []) ≠ []
    | .body => c.bodyAttachLen agentWhole ≠ 0

/-- `ngx_http_waf_archive_mask` -/
def Ctx.archiveMask (c : Ctx) : Kind → Bool :=
  match c.settled with
  | some mask => mask
  | none =>
    if !c.logged || (isFrame c.phase && !c.frameWanted) then fun _ => false
    else fun k => c.archiveWants k ≠ 0 && (c.storeServes k || c.attachable k)

/-! ### The memory file -/

/-- A memory file and the offset of its descriptor. -/
structure File where
  data : Bytes
  pos : ℕ

def File.empty : File := ⟨[], 0⟩

/-- A write at the offset; what lies between the end of the file and the offset is zero. -/
def File.write (f : File) (b : Bytes) : File :=
  { data := f.data.take f.pos ++ List.replicate (f.pos - f.data.length) 0 ++ b ++
      f.data.drop (f.pos + b.length)
    pos := f.pos + b.length }

/-- `ftruncate` and `lseek` to the same offset. -/
def File.cut (f : File) (n : ℕ) : File :=
  { data := f.data.take n ++ List.replicate (n - f.data.length) 0, pos := n }

/-- What `write` answers. -/
inductive Answer
  | wrote (n : ℕ)
  | interrupted
  | failed

/-- `ngx_http_waf_attach_write`: the bytes that reach the file, whether they are all of them, and the
answers that are left.  The calls after the last answer write everything. -/
def attachWrite : List Answer → Bytes → Bytes × Bool × List Answer
  | as, [] => ([], true, as)
  | [], data => (data, true, [])
  | .wrote n :: as, data =>
    let r := attachWrite as (data.drop n)
    (data.take n ++ r.1, r.2)
  | .interrupted :: as, data => attachWrite as data
  | .failed :: as, _ => ([], false, as)

/-- The calls that can fail: the creation of the file, the allocation of the locator, the writes of
an object, the reads of the body file (`none` fails, `some n` gives up to `n` bytes), and the calls
that drop what a failed object has left behind. -/
structure World where
  memfd : Bool
  alloc : Kind → Bool
  writes : Kind → List Answer
  reads : List (Option ℕ)
  truncate : Kind → Bool
  seek : Kind → Bool

/-- The state of the loop of `ngx_http_waf_body_attach`; `out` are the bytes that reached the file. -/
structure Copy where
  out : Bytes
  taken : ℕ
  left : ℕ
  writes : List Answer
  reads : List (Option ℕ)
  ok : Bool

/-- A piece of the body: what of it is asked for is written. -/
def Copy.piece (place : ℕ) (s : Copy) (data : Bytes) : Copy :=
  if s.taken < place then
    let part := data.take (place - s.taken)
    let r := attachWrite s.writes part
    { s with
      out := s.out ++ r.1, ok := r.2.1, writes := r.2.2
      taken := s.taken + part.length, left := s.left - data.length }
  else { s with left := s.left - data.length }

/-- `NGX_HTTP_WAF_ATTACH_CHUNK` -/
def attachChunk : ℕ := 16384

/-- What `ngx_read_file` gives of `avail` bytes; `none` is a failure. -/
def readFile (avail : ℕ) : List (Option ℕ) → Option ℕ
  | [] => some avail
  | none :: _ => none
  | some n :: _ => some (max 1 (min n avail))

/-- A buffer in a file is read piece by piece; the first argument bounds their number. -/
def Copy.fromFile (place : ℕ) : ℕ → Copy → Bytes → Copy
  | 0, s, _ => s
  | n + 1, s, data =>
    if data = [] ∨ s.left = 0 ∨ s.ok = false then s
    else
      match readFile (min attachChunk (min data.length s.left)) s.reads with
      | none => { s with ok := false }
      | some rd =>
        Copy.fromFile place n ({ s with reads := s.reads.tail }.piece place (data.take rd))
          (data.drop rd)

def Copy.buf (place : ℕ) (s : Copy) : Buf → Copy
  | .file data => s.fromFile place data.length data
  | .memory data => s.piece place (data.take s.left)

/-- The loop of `ngx_http_waf_body_attach`, which a failure leaves. -/
def Copy.run (place : ℕ) : List Buf → Copy → Copy
  | [], s => s
  | b :: bs, s => if s.left = 0 ∨ s.ok = false then s else Copy.run place bs (s.buf place b)

/-- The locator as `ngx_pcalloc` gives it. -/
def Loc.zero : Loc :=
  { unavailable := none, size := 0, declaredSize := 0, sha256 := none, complete := false
    truncated := false, encoding := "", stored := false, driver := "", key := "", expiresAt := 0
    hint := "", offset := 0, keyed := by simp }

/-- `ngx_http_waf_body_attach_response` -/
def Ctx.bodyAttachResponse (c : Ctx) (loc : Loc) (held : ℕ) : Loc :=
  let whole := if c.rspLast then some (if c.rspJournal then c.rspJournalTotal else held) else none
  let declared := match whole with
    | some n => n
    | none => if 0 < c.contentLength then c.contentLength else loc.declaredSize
  let complete := whole = some loc.size
  { loc with
    declaredSize := declared, complete := complete
    sha256 := if complete then loc.sha256 else none }

/-- `NGX_OK`, with what was made, `NGX_DECLINED` or `NGX_ERROR`. -/
inductive Rc (α : Type)
  | ok (a : α)
  | declined
  | error

/-- `ngx_http_waf_body_attach` -/
def bodyAttach (c : Ctx) (w : World) (limit : ℕ) : Bytes × Rc Loc :=
  let place := c.bodyAttachLen limit
  let total := c.bodyLength
  if place = 0 then ([], .declined)
  else
    let known := (c.placed .body).bind Loc.sha256
    let hashing := known.isNone && total ≤ c.bodyLimit
    let left := if hashing then total else place
    let s := Copy.run place c.source ⟨[], 0, left, w.writes .body, w.reads, true⟩
    if s.ok = false then (s.out, .error)
    else
      let sha := if hashing then some (c.sha256 (c.source.flatMap Buf.data)) else known
      let loc : Loc := { Loc.zero with
        size := s.taken, declaredSize := total, sha256 := sha, complete := s.taken = total }
      let loc := if c.phase = .response then c.bodyAttachResponse loc total else loc
      let loc := { loc with
        encoding := if isFrame c.phase then "identity" else c.encoding
        truncated := !loc.complete }
      (s.out, .ok loc)

/-- `ngx_http_waf_attach_one`, before the offset is set: the bytes that reach the file, and the
locator. -/
def attachObject (c : Ctx) (w : World) (k : Kind) : Bytes × Rc Loc :=
  if !w.alloc k then ([], .error)
  else if k = .body then bodyAttach c w (c.archiveWants k)
  else
    match c.collect k (c.archiveOriginal k) with
    | none => ([], .error)
    | some [] => ([], .declined)
    | some blob =>
      let r := attachWrite (w.writes k) blob
      (r.1, if r.2.1 then .ok { Loc.zero with size := blob.length } else .error)

/-- The fields of the phase that `ngx_http_waf_attach_prepare` sets. -/
structure Plan where
  archive : Kind → Bool
  attached : Kind → Bool
  attachRaw : Kind → Bool
  loc : Kind → Option Loc
  fd : File
  offset : ℕ

/-- `ngx_http_waf_attach_one` has put the object into the file. -/
def Plan.attach (c : Ctx) (p : Plan) (k : Kind) (fd : File) (loc : Loc) : Plan :=
  { p with
    attached := Function.update p.attached k true
    attachRaw :=
      if k ≠ .body ∧ c.archiveOriginal k then Function.update p.attachRaw k true else p.attachRaw
    loc := Function.update p.loc k (some { loc with offset := p.offset })
    fd := fd
    offset := p.offset + loc.size }

def Plan.drop (p : Plan) (k : Kind) : Plan := { p with archive := Function.update p.archive k false }

/-- The loop of `ngx_http_waf_attach_prepare` over the objects: what a failed object has left in the
file is dropped, and the loop is left when that fails as well. -/
def attachAll (c : Ctx) (w : World) (want : Kind → Bool) : List Kind → Plan → Plan
  | [], p => p
  | k :: ks, p =>
    if want k then
      let fd := p.fd.write (attachObject c w k).1
      match (attachObject c w k).2 with
      | .ok loc => attachAll c w want ks (p.attach c k fd loc)
      | .declined => attachAll c w want ks (p.drop k)
      | .error =>
        if !w.truncate k then { p with fd := fd }.drop k
        else if !w.seek k then { p with fd := { fd.cut p.offset with pos := fd.pos } }.drop k
        else attachAll c w want ks ({ p with fd := fd.cut p.offset }.drop k)
    else attachAll c w want ks p

/-- The objects that have to ride with the record. -/
def Ctx.wants (c : Ctx) (k : Kind) : Bool := c.archiveMask k && !c.storeServes k

/-- `ngx_http_waf_attach_prepare`, on Linux -/
def attachPrepare (c : Ctx) (w : World) : Plan :=
  let p : Plan :=
    { archive := c.archiveMask, attached := fun _ => false, attachRaw := fun _ => false
      loc := fun _ => none, fd := File.empty, offset := 0 }
  if !kinds.any c.wants then p
  else if !w.memfd then { p with archive := fun k => c.archiveMask k && !c.wants k }
  else attachAll c w c.wants kinds p

/-- The file that goes with the record: the descriptor is closed when nothing is attached. -/
def Plan.file (p : Plan) : Option Bytes := if kinds.any p.attached then some p.fd.data else none

/-! ### The section `store` -/

inductive Mode
  | attach
  | address
  | bare

/-- The members that `ngx_http_waf_locator_write` writes, in order. -/
def locatorMembers (l : Loc) (body : Bool) (mode : Mode) : List (String × Value) :=
  match l.unavailable with
  | some reason =>
    [("unavailable", .quoted reason), ("size", .number l.size)] ++
      if body then [("declared_size", .number l.declaredSize)] else []
  | none =>
    [("size", .number l.size)] ++
      (match body, l.sha256 with
        | true, some sha => [("sha256", .raw sha)]
        | _, _ => []) ++
      (if body then
        [("complete", .literal l.complete), ("truncated", .literal l.truncated),
          ("encoding", .quoted l.encoding)]
      else []) ++
      match mode with
      | .attach => [("store", .quoted "attach"), ("offset", .number l.offset)]
      | .bare => []
      | .address =>
        (if l.stored then
          [("store", .quoted "hot"), ("driver", .quoted l.driver), ("key", .quoted l.key)]
        else []) ++
        (if l.expiresAt ≠ 0 then [("expires_at", .number l.expiresAt)] else []) ++
        if l.hint ≠ "" then [("hint", .quoted l.hint)] else []

/-- `ngx_http_waf_locator_write`; `none` is `null`. -/
def locatorWrite (l : Option Loc) (body : Bool) (mode : Mode) : Option Locator :=
  l.map fun l name => (locatorMembers l body mode).lookup name

/-- `ngx_http_waf_audit_locator` -/
def auditLocator (c : Ctx) (p : Plan) (k : Kind) : Option Loc :=
  if p.attached k then p.loc k else c.placed k

/-- `ngx_http_waf_audit_store`: the locators of the section, when there is one. -/
def auditStore (c : Ctx) (w : World) : Option (Kind → Option Locator) :=
  if kinds.any c.archiveMask || kinds.any fun k => (c.placed k).isSome then
    let p := attachPrepare c w
    some fun k =>
      locatorWrite (auditLocator c p k) (k = .body)
        (if p.attached k then .attach else if p.archive k then .address else .bare)
  else none

/-! ### The agent -/

def numberOf : Option Value → ℤ
  | some (.number n) => n
  | _ => 0

/-- `audit.Attachments`; `none` refuses the record. -/
def attachments (sect : Kind → Option Locator) (file : Option Bytes) :
    List Kind → Option (Kind → Option Bytes)
  | [] => some fun _ => none
  | k :: ks =>
    match sect k with
    | none => attachments sect file ks
    | some l =>
      if l "store" ≠ some (.quoted "attach") then attachments sect file ks
      else
        let offset := numberOf (l "offset")
        let size := numberOf (l "size")
        match file with
        | none => none
        | some data =>
          if offset < 0 ∨ size < 0 ∨ (data.length : ℤ) - size < offset then none
          else
            (attachments sect file ks).map fun out =>
              Function.update out k (some ((data.drop offset.toNat).take size.toNat))

end Attach
