import PlacitumNode.Desired.Pack

/-!
# Applying a generation (`agent/internal/desired/apply.go`, `watch.go`)

* `Node`, `Spot`, `Disk`: the files of the two directories that are written;
* `Op`, `exec`: the calls on them, and what one that fails leaves behind;
* `apply`: staging, the three swaps with what undoes them, and the steps after the last one;
* `handle`, `Watched`: the generations that are applied one after the other.

The configuration and the store are two directories, neither inside the other.  The decryption, the
checksum and what nginx says are given.
-/

namespace Desired

open Octets

/-- A file, or a directory with its entries. -/
inductive Node
  | file (data : Bytes)
  | dir (entries : List (Bytes × Node))

def Node.isDir : Node → Bool
  | file _ => false
  | dir _ => true

def Node.lookup (name : Bytes) : Node → Option Node
  | file _ => none
  | dir es => (es.find? fun e => e.1 = name).map Prod.snd

/-- The names that `Apply` uses in the two directories, and everything else. -/
inductive Spot
  | live
  | pages
  | staging
  | stagingPages
  | prev
  | prevPages
  | conf
  | confPrev
  | confStaging
  | outside (path : Bytes)
  deriving DecidableEq

abbrev Disk := Spot → Option Node

/-- The calls, with the directory an entry is in. -/
inductive Op
  | removeAll (s : Spot)
  | remove (s : Spot)
  | mkdirAll (s : Spot)
  | write (s : Spot)
  | writeIn (dir : Spot) (name : Bytes)
  | rename (src dst : Spot)
  | renameFrom (dir : Spot) (name : Bytes) (dst : Spot)
  | test
  | reload
  deriving DecidableEq

/-- Where in `Apply` a call stands. -/
inductive At
  | forward
  | undo
  | after
  deriving DecidableEq

/-- The call that fails, and what it leaves where it was at work. -/
structure Fault where
  step : Option (At × Op)
  damage : Option Node

/-- The name in the directory that the path of an entry names; a name with a slash leads elsewhere. -/
def writeEntry (d : Disk) (dir : Spot) (name data : Bytes) : Option Disk :=
  if plainName name then
    match d dir with
    | some (.dir es) =>
      match (Node.dir es).lookup name with
      | some (.dir _) => none
      | _ => some (Function.update d dir
          (some (.dir (es.filter (fun e => e.1 ≠ name) ++ [(name, .file data)]))))
    | _ => none
  else some (Function.update d (.outside name) (some (.file data)))

/-- `os.Rename`: a directory is never replaced, and a file not by a directory. -/
def moveTo (d : Disk) (n : Node) (dst : Spot) : Option Disk :=
  match d dst with
  | none => some (Function.update d dst (some n))
  | some old => if old.isDir || n.isDir then none else some (Function.update d dst (some n))

/-- A call that does not fail by itself; `none` is an error. -/
def perform (d : Disk) (data : Bytes) : Op → Option Disk
  | .removeAll s => some (Function.update d s none)
  | .remove s =>
    match d s with
    | none => none
    | some (.dir (_ :: _)) => none
    | _ => some (Function.update d s none)
  | .mkdirAll s =>
    match d s with
    | none => some (Function.update d s (some (.dir [])))
    | some n => if n.isDir then some d else none
  | .write s =>
    match d s with
    | some (.dir _) => none
    | _ => some (Function.update d s (some (.file data)))
  | .writeIn dir name => writeEntry d dir name data
  | .rename src dst =>
    match d src with
    | none => none
    | some n => (moveTo d n dst).map fun d => Function.update d src none
  | .renameFrom dir name dst =>
    match d dir with
    | some (.dir es) =>
      match (Node.dir es).lookup name with
      | none => none
      | some n => (moveTo d n dst).map fun d =>
          Function.update d dir (some (.dir (es.filter fun e => e.1 ≠ name)))
    | _ => none
  | .test => some d
  | .reload => some d

/-- What a call that fails leaves: a name it was removing or writing may be in any state. -/
def spoil (d : Disk) (damage : Option Node) : Op → Disk
  | .removeAll s => Function.update d s damage
  | .write s => Function.update d s damage
  | .writeIn dir _ => Function.update d dir damage
  | _ => d

/-- A call, and whether it succeeds. -/
def exec (f : Fault) (w : At) (op : Op) (data : Bytes) (d : Disk) : Disk × Bool :=
  if f.step = some (w, op) then (spoil d f.damage op, false)
  else
    match perform d data op with
    | some d => (d, true)
    | none => (d, false)

/-- A call whose error is not looked at. -/
def run (f : Fault) (w : At) (op : Op) (d : Disk) : Disk := (exec f w op [] d).1

/-! ### Staging -/

/-- The private key, the checksum of a configuration, and the store directory. -/
structure Env where
  decrypt : Bytes → Option Bytes
  fingerprint : Bytes → String
  storeDir : Bytes

def Env.liveStore (e : Env) : Bytes := join e.storeDir (ascii "live")

def Env.livePages (e : Env) : Bytes := join e.storeDir (ascii "pages")

def Env.stagingStore (e : Env) : Bytes := join e.storeDir (ascii ".staging")

def Env.stagingPages (e : Env) : Bytes := join e.storeDir (ascii ".staging-pages")

abbrev Blobs := String → Option Bytes

def Pack.keys (p : Pack) : List Bytes := p.store.map Prod.fst

/-- The orders in which the maps of the manifest are gone through. -/
structure Orders (p : Pack) where
  write : List Bytes
  staged : List Bytes
  live : List Bytes
  pages : List Bytes
  write_perm : write.Perm p.keys
  staged_perm : staged.Perm p.keys
  live_perm : live.Perm p.keys
  pages_perm : pages.Perm (p.pages.map Prod.fst)

/-- The content of a stored file, when its blob is there and can be decrypted. -/
def plain (e : Env) (p : Pack) (blobs : Blobs) (u : Bytes) : Option Bytes :=
  ((p.store.find? fun x => x.1 = u).bind fun x => blobs x.2).bind e.decrypt

def pageBody (p : Pack) (blobs : Blobs) (name : Bytes) : Option Bytes :=
  (p.pages.find? fun x => x.1 = name).bind fun x => blobs x.2

/-- The references of the configuration and the manifest are the same, and everything in the manifest
can be decrypted. -/
def manifestOk (e : Env) (p : Pack) (blobs : Blobs) (text : Bytes) : Bool :=
  (extractRefs text).all (fun u => u ∈ p.keys) && p.keys.all (fun u => u ∈ extractRefs text) &&
    p.keys.all fun u => (plain e p blobs u).isSome

/-- The files of a directory, until one has no content or cannot be written. -/
def writeAll (f : Fault) (dir : Spot) (content : Bytes → Option Bytes) :
    List Bytes → Disk → Disk × Bool
  | [], d => (d, true)
  | n :: ns, d =>
    match content n with
    | none => (d, false)
    | some data =>
      let r := exec f .forward (.writeIn dir n) data d
      if r.2 then writeAll f dir content ns r.1 else r

/-- The next call after one that succeeded, or what undoes those before. -/
def andThen (r : Disk × Bool) (undo : Disk → Disk) (next : Disk → Disk × Bool) : Disk × Bool :=
  if r.2 then next r.1 else (undo r.1, false)

def cleanStaging (f : Fault) (d : Disk) : Disk :=
  run f .undo (.removeAll .stagingPages) (run f .undo (.removeAll .staging) d)

def cleanAll (f : Fault) (d : Disk) : Disk :=
  run f .undo (.removeAll .confStaging) (cleanStaging f d)

def confName : Bytes := ascii "nginx.conf"

/-- The first half of `Apply`: everything is written next to the live files, and nginx tests it. -/
def stage (e : Env) (p : Pack) (o : Orders p) (blobs : Blobs) (text : Bytes) (f : Fault) (d : Disk) :
    Disk × Bool :=
  andThen (exec f .forward (.removeAll .staging) [] d) id fun d =>
  andThen (exec f .forward (.mkdirAll .staging) [] d) id fun d =>
  andThen (writeAll f .staging (plain e p blobs) o.write d) (cleanStaging f) fun d =>
  andThen (exec f .forward (.removeAll .stagingPages) [] d) (cleanStaging f) fun d =>
  andThen (exec f .forward (.mkdirAll .stagingPages) [] d) (cleanStaging f) fun d =>
  andThen (writeAll f .stagingPages (pageBody p blobs) o.pages d) (cleanStaging f) fun d =>
  andThen (exec f .forward (.mkdirAll .confStaging) [] d) (cleanStaging f) fun d =>
  andThen (exec f .forward (.writeIn .confStaging confName)
    (substitute text o.staged e.stagingStore e.stagingPages) d) (cleanAll f) fun d =>
  andThen (exec f .forward .test [] d) (cleanAll f) fun d => (d, true)

/-! ### Swapping -/

/-- What is live is kept as the previous one, and what was staged becomes live. -/
def swap (f : Fault) (clear keep put : Op) (d : Disk) : Disk × Bool :=
  exec f .forward put [] (run f .forward keep (run f .forward clear d))

def swapStore (f : Fault) : Disk → Disk × Bool :=
  swap f (.removeAll .prev) (.rename .live .prev) (.rename .staging .live)

def swapPages (f : Fault) : Disk → Disk × Bool :=
  swap f (.removeAll .prevPages) (.rename .pages .prevPages) (.rename .stagingPages .pages)

def swapConf (f : Fault) : Disk → Disk × Bool :=
  swap f (.remove .confPrev) (.rename .conf .confPrev) (.renameFrom .confStaging confName .conf)

def undoStore (f : Fault) (d : Disk) : Disk :=
  run f .undo (.rename .prev .live) (run f .undo (.removeAll .live) d)

def undoPages (f : Fault) (d : Disk) : Disk :=
  run f .undo (.rename .prevPages .pages) (run f .undo (.removeAll .pages) d)

/-- The steps after the last swap. -/
def finish (f : Fault) (body : Bytes) (d : Disk) : Disk × Bool :=
  andThen (exec f .forward (.write .conf) body (run f .after (.removeAll .confStaging) d)) id
    fun d =>
  andThen (exec f .forward .reload [] d) id fun d =>
    (run f .after (.remove .confPrev)
      (run f .after (.removeAll .prevPages) (run f .after (.removeAll .prev) d)), true)

/-- The second half of `Apply`: what was staged becomes live. -/
def install (f : Fault) (body : Bytes) (d : Disk) : Disk × Bool :=
  andThen (swapStore f d) (fun d => cleanAll f (run f .undo (.rename .prev .live) d)) fun d =>
  andThen (swapPages f d)
    (fun d => run f .undo (.removeAll .confStaging)
      (undoStore f (run f .undo (.rename .prevPages .pages) d))) fun d =>
  andThen (swapConf f d)
    (fun d => undoPages f (undoStore f (run f .undo (.rename .confPrev .conf) d))) (finish f body)

/-- `Apply`; `none` is an error. -/
def apply (e : Env) (p : Pack) (o : Orders p) (blobs : Blobs) (f : Fault) (d : Disk) :
    Disk × Option String :=
  match blobs p.config with
  | none => (d, none)
  | some text =>
    if !manifestOk e p blobs text then (d, none)
    else
      let body := substitute text o.live e.liveStore e.livePages
      let r := andThen (stage e p o blobs text f d) id (install f body)
      (r.1, if r.2 then some (e.fingerprint body) else none)

/-! ### The generations -/

/-- `Applied`, with the files it describes; `ok` is `ApplyOK`. -/
structure Watched where
  disk : Disk
  hash : String
  rev : ℤ
  ok : Bool
  conf : String

/-- `FingerprintFile` of the live configuration -/
def confFingerprint (e : Env) (d : Disk) : String :=
  match d .conf with
  | some (.file body) => e.fingerprint body
  | _ => ""

/-- `NewApplied` -/
def Watched.new (e : Env) (d : Disk) : Watched := ⟨d, "", 0, false, confFingerprint e d⟩

/-- A generation that comes: the manifest, its blobs unless they cannot be fetched, the orders of the
maps, and the call that fails. -/
structure Generation where
  pack : Pack
  orders : Orders pack
  blobs : Option Blobs
  fault : Fault

/-- The handler of `Watch` -/
def handle (e : Env) (s : Watched) (g : Generation) : Watched :=
  if s.ok && s.hash = g.pack.sha256 && s.rev = g.pack.rev then s
  else
    match g.blobs with
    | none => { s with ok := false }
    | some blobs =>
      match apply e g.pack g.orders blobs g.fault s.disk with
      | (d, none) => { s with disk := d, ok := false }
      | (d, some fingerprint) => ⟨d, g.pack.sha256, g.pack.rev, true, fingerprint⟩

end Desired
