import PlacitumNode.Lib.Octets

/-!
# Audit records and their locators (`agent/internal/audit`, `agent/internal/retain`)

* `Locator`, `readdress`, `trimmedTo`, `unreachable`: the fields of a locator and the ways they are
  rewritten;
* `Record`, `parseStore`: a record, and what is read of its store section;
* `Section.render`, `spliceStore`: the section as it is written anew;
* `Decision`, `objectName`, `move`: a record on its way to the archive and the move of one object.

A record is an object in which `store` stands once, if at all; it is kept as its members.
-/

namespace Retain

open Octets

/-- `audit.Kinds` -/
inductive Kind
  | headers
  | args
  | body
  deriving DecidableEq

def kinds : List Kind := [.headers, .args, .body]

theorem mem_kinds (k : Kind) : k ∈ kinds := by cases k <;> decide

theorem nodup_kinds : kinds.Nodup := by decide

/-- `audit.Suffix` -/
def Kind.suffix : Kind → String
  | headers => "hdr"
  | args => "arg"
  | body => "body"

/-- `audit.Terms` -/
structure Terms where
  ttl : ℤ
  limit : ℤ
  allow : List Bytes
  mask : List Bytes
  deny : List Bytes
  hashed : List Bytes

/-- The terms as `Store.Render` writes them: a limit is left out, and read as 0, unless it is
positive. -/
def Terms.rendered (t : Terms) : Terms := { t with limit := max t.limit 0 }

/-! ### Locators -/

/-- A JSON value: the ones that are written here, or any other. -/
inductive Value
  | quoted (s : String)
  | number (n : ℤ)
  | literal (b : Bool)
  | null
  | raw (text : Bytes)
  deriving DecidableEq

/-- The fields of a locator. -/
abbrev Locator := String → Option Value

def locatorAddress : List String := ["store", "driver", "key", "expires_at", "hint", "offset"]

/-- The locator without its address. -/
def Locator.unaddressed (l : Locator) : Locator := fun name =>
  if name ∈ locatorAddress then none else l name

/-- `audit.Readdress` -/
def readdress (l : Locator) (store driver key : String) (expiresAt : ℤ) : Locator :=
  let l := Function.update l.unaddressed "store" (some (.quoted store))
  let l := Function.update l "driver" (some (.quoted driver))
  let l := Function.update l "key" (some (.quoted key))
  if 0 < expiresAt then Function.update l "expires_at" (some (.number expiresAt)) else l

/-- `audit.Trimmed` -/
def trimmedTo (l : Locator) (size : ℕ) : Locator :=
  let l := Function.update l "truncated" (some (.literal true))
  let l := Function.update l "complete" (some (.literal false))
  Function.update l "size" (some (.number size))

/-- `audit.Unreachable` -/
def unreachable (l : Locator) (reason : String) : Locator :=
  Function.update l.unaddressed "unavailable" (some (.quoted reason))

/-- The value of a locator in a record: an object, or anything else. -/
inductive Raw
  | null
  | object (l : Locator)
  | other (text : Bytes)

/-- What `json.Unmarshal` takes for a string. -/
def Value.isString : Value → Bool
  | .quoted _ | .null => true
  | _ => false

/-- What `json.Unmarshal` takes for an `int64`. -/
def Value.isInt : Value → Bool
  | .number n => -2 ^ 63 ≤ n && n < 2 ^ 63
  | .null => true
  | _ => false

/-- Whether the locator can be read into `audit.Locator`, and has a key. -/
def Locator.located (l : Locator) : Bool :=
  ["store", "driver", "key", "hint"].all (fun name => (l name).all Value.isString) &&
    ["offset", "size"].all (fun name => (l name).all Value.isInt) &&
    match l "key" with
    | some (.quoted key) => key != ""
    | _ => false

/-! ### Records -/

/-- An entry of the member `archive`: its terms, and the members that are not read. -/
structure Entry where
  terms : Terms
  others : List (String × Value)

/-- The member `archive` of a store section; `others` are the entries of names that are no kinds. -/
inductive ArchiveMember
  | absent
  | null
  | unreadable (text : Bytes)
  | entries (of : Kind → Option Entry) (others : List (String × Entry))

/-- A store section as it stands in a record. -/
structure Fields where
  locators : Kind → Option Raw
  archive : ArchiveMember
  others : List (String × Value)

/-- The member `store` of a record. -/
inductive StoreMember
  | absent
  | null
  | unreadable (text : Bytes)
  | object (f : Fields)

structure Record where
  before : List (String × Value)
  store : StoreMember
  after : List (String × Value)

/-- `audit.Store`; `archiveOther` says that the archive names something that is not a kind. -/
structure Section where
  locators : Kind → Option Raw
  archive : Kind → Option Terms
  archiveOther : Bool

/-- The empty section. -/
def Section.none : Section := ⟨fun _ => Option.none, fun _ => Option.none, false⟩

/-- What is read of the member `archive`. -/
def ArchiveMember.parse : ArchiveMember → Option ((Kind → Option Terms) × Bool)
  | .absent | .null => some (fun _ => none, false)
  | .unreadable _ => none
  | .entries of others => some (fun k => (of k).map Entry.terms, !others.isEmpty)

/-- `audit.ParseStore` -/
def parseStore (r : Record) : Option Section :=
  match r.store with
  | .absent | .null => some .none
  | .unreadable _ => none
  | .object f => f.archive.parse.map fun a => ⟨f.locators, a.1, a.2⟩

/-- `len(s.Archive) != 0` -/
def Section.archived (s : Section) : Bool :=
  kinds.any (fun k => (s.archive k).isSome) || s.archiveOther

/-- `Store.Render`: every kind is written, and of the archive only the entries of kinds. -/
def Section.render (s : Section) : Fields where
  locators k := some ((s.locators k).getD .null)
  archive :=
    if s.archived then .entries (fun k => (s.archive k).map fun t => ⟨t.rendered, []⟩) []
    else .absent
  others := []

/-- `audit.SpliceStore` -/
def spliceStore (r : Record) (value : Fields) : Record :=
  match r.store with
  | .absent => r
  | _ => { r with store := .object value }

/-- `audit.Decision`; `archiveOther` says that the archive names something that is not a kind.  The
locators of the archived kinds are objects: `audit.Unreachable` would write into a nil map for a
null. -/
structure Decision where
  ray : String
  node : String
  phase : String
  ts : String
  frameDirection : String
  frameSeq : ℕ
  archive : Kind → Option Terms
  archiveOther : Bool
  attached : Kind → Option Bytes
  raw : Record
  objects : ∀ s, parseStore raw = some s → ∀ k, (archive k).isSome = true →
    ∀ v, s.locators k = some v → ∃ l, v = .object l

/-- The kinds that `enqueue` counts. -/
def counted (d : Decision) (s : Section) : List Kind :=
  kinds.filter fun k => (d.archive k).isSome && (s.locators k).isSome

/-! ### Moving an object -/

inductive Reason
  | expired
  | empty
  | overload
  | error
  deriving DecidableEq

def Reason.text : Reason → String
  | expired => "expired"
  | empty => "empty"
  | overload => "overload"
  | error => "archive_error"

/-- `moved`, without the address of the object that is cleaned up. -/
structure Moved where
  object : String
  expires : ℤ
  size : ℕ
  trimmed : Bool

inductive Outcome
  | failed (reason : Reason)
  | moved (m : Moved)

/-- What the store answers for an object. -/
inductive Got
  | data (b : Bytes)
  | missing
  | failed

/-- What a move meets: the bucket of the kind, the store, the lists of the terms, the cut to the
limit, the day of the record and the archive. -/
structure Answer where
  bucket : String
  got : Got
  filtered : Option Bytes
  cut : Bytes × Bool
  day : String
  put : Option ℤ

def objectName (day : String) (d : Decision) (k : Kind) : String :=
  let node := if d.node = "" then "unknown" else d.node
  let name := if d.phase ≠ "" ∧ d.phase ≠ "request" then d.ray ++ "." ++ d.phase else d.ray
  let name :=
    if d.phase = "frame" ∧ d.frameDirection ≠ "" then
      name ++ "." ++ d.frameDirection ++ "." ++ toString d.frameSeq
    else name
  day ++ "/" ++ node ++ "/" ++ name ++ "." ++ k.suffix

/-- `Store.Locate`: whether the locator has a key. -/
def Section.locate (s : Section) (k : Kind) : Bool :=
  match s.locators k with
  | some (.object l) => l.located
  | _ => false

/-- The bytes of the object: those that rode with the record, or those in the store. -/
def fetch (a : Answer) (d : Decision) (s : Section) (k : Kind) : Got :=
  match d.attached k with
  | some b => .data b
  | none => if s.locate k then a.got else .failed

/-- `Pool.move` -/
def move (a : Answer) (d : Decision) (s : Section) (k : Kind) : Outcome :=
  if a.bucket = "" then .failed .error
  else
    match fetch a d s k with
    | .missing => .failed .expired
    | .failed => .failed .error
    | .data data =>
      if data = [] then .failed .empty
      else
        match a.filtered with
        | none => .failed .error
        | some data =>
          if data = [] then .failed .empty
          else
            match a.put with
            | none => .failed .error
            | some expires => .moved ⟨objectName a.day d k, expires, a.cut.1.length, a.cut.2⟩

/-- `Pool.mark`, which leaves alone what is no object. -/
def Pool.mark (v : Raw) (reason : Reason) : Raw :=
  match v with
  | .object l => .object (unreachable l reason.text)
  | v => v

/-- `Pool.readdress`, which leaves alone what is no object. -/
def Pool.readdress (v : Raw) (m : Moved) : Raw :=
  match v with
  | .object l =>
    let l := Retain.readdress l "archive" "s3" m.object m.expires
    .object (if m.trimmed then trimmedTo l m.size else l)
  | v => v

/-- What `parking.complete` makes of the locator. -/
def Outcome.apply (v : Raw) : Outcome → Raw
  | .failed reason => Pool.mark v reason
  | .moved m => Pool.readdress v m

/-- The record that `Pool.degrade` emits. -/
def degraded (d : Decision) (reason : Reason) : Record :=
  match parseStore d.raw with
  | none => d.raw
  | some s =>
    spliceStore d.raw
      { s with
        locators := fun k =>
          if (d.archive k).isSome then (s.locators k).map (Pool.mark · reason)
          else s.locators k : Section }.render

/-! ### What the locators say -/

/-- The locator is the address of the object in the archive. -/
def Locator.Archived (l : Locator) (object : String) : Prop :=
  l "store" = some (.quoted "archive") ∧ l "driver" = some (.quoted "s3") ∧
    l "key" = some (.quoted object)

/-- The locator says why there is no object. -/
def Locator.Unavailable (l : Locator) (reason : Reason) : Prop :=
  l "unavailable" = some (.quoted reason.text) ∧ ∀ name ∈ locatorAddress, l name = none

/-- The locator carries the outcome of a move. -/
def Outcome.Says (l : Locator) : Outcome → Prop
  | .failed reason => l.Unavailable reason
  | .moved m => l.Archived m.object

theorem unreachable_unavailable (l : Locator) (reason : Reason) :
    (unreachable l reason.text).Unavailable reason := by
  refine ⟨by simp [unreachable], fun name hname => ?_⟩
  have hne : name ≠ "unavailable" := by
    rintro rfl
    exact absurd hname (by decide)
  simp [unreachable, Locator.unaddressed, hne, hname]

theorem readdress_archived (l : Locator) (object : String) (expires : ℤ) :
    (readdress l "archive" "s3" object expires).Archived object := by
  unfold readdress Locator.Archived
  split <;> simp [Function.update]

theorem Locator.Archived.trimmedTo {l : Locator} {object : String} (h : l.Archived object)
    (size : ℕ) : (trimmedTo l size).Archived object := by
  obtain ⟨h1, h2, h3⟩ := h
  refine ⟨?_, ?_, ?_⟩ <;> simpa [Retain.trimmedTo, Function.update]

/-- **What a move leaves in the locator**: the address of its object, or its reason. -/
theorem Outcome.says_apply (l : Locator) (o : Outcome) :
    ∃ l', o.apply (.object l) = .object l' ∧ o.Says l' := by
  cases o with
  | failed reason => exact ⟨_, rfl, unreachable_unavailable l reason⟩
  | moved m =>
    refine ⟨_, rfl, ?_⟩
    simp only [Outcome.Says]
    split
    · exact (readdress_archived l m.object m.expires).trimmedTo m.size
    · exact readdress_archived l m.object m.expires

/-- A move that succeeds puts the object under the name of its record and kind. -/
theorem move_object {a : Answer} {d : Decision} {s : Section} {k : Kind} {m : Moved}
    (h : move a d s k = .moved m) : m.object = objectName a.day d k := by
  unfold move at h
  repeat' split at h
  all_goals cases h
  rfl

/-- A move looks at the locator of its own kind only. -/
theorem move_congr (a : Answer) (d : Decision) {s s' : Section} {k : Kind}
    (h : s.locators k = s'.locators k) : move a d s k = move a d s' k := by
  have hlocate : s.locate k = s'.locate k := by
    unfold Section.locate
    rw [h]
  unfold move fetch
  rw [hlocate]

/-! ### What is written of a section -/

/-- What is read of a section that was written anew: kinds without a locator have a null one, limits
that are not positive are 0, and names that are no kinds are gone. -/
def Section.reread (s : Section) : Section where
  locators k := some ((s.locators k).getD .null)
  archive k := (s.archive k).map Terms.rendered
  archiveOther := false

theorem Section.archive_of_not_archived {s : Section} (h : s.archived = false) (k : Kind) :
    s.archive k = Option.none := by
  simp only [Section.archived, Bool.or_eq_false_iff, List.any_eq_false, Bool.not_eq_true,
    Option.isSome_eq_false_iff, Option.isNone_iff_eq_none] at h
  exact h.1 k (mem_kinds k)

theorem spliceStore_store {r : Record} (hr : r.store ≠ .absent) (value : Fields) :
    (spliceStore r value).store = .object value := by
  unfold spliceStore
  split
  · next h => exact absurd h hr
  · rfl

/-- **A section that was written anew reads as such.** -/
theorem parseStore_splice {r : Record} (hr : r.store ≠ .absent) (s : Section) :
    parseStore (spliceStore r s.render) = some s.reread := by
  unfold parseStore
  rw [spliceStore_store hr]
  simp only [Section.render, Section.reread]
  by_cases ha : s.archived = true
  · simp only [ha, if_true, ArchiveMember.parse, Option.map_some, Option.map_map, List.isEmpty_nil,
      Bool.not_true]
    rfl
  · rw [Bool.not_eq_true] at ha
    have hnone := Section.archive_of_not_archived ha
    simp [ha, ArchiveMember.parse, hnone]

/-- Only the section is replaced. -/
theorem spliceStore_members (r : Record) (value : Fields) :
    (spliceStore r value).before = r.before ∧ (spliceStore r value).after = r.after := by
  unfold spliceStore
  split <;> exact ⟨rfl, rfl⟩

/-- A record without a section is left alone, and there is nothing in it to count. -/
theorem spliceStore_absent {r : Record} (hr : r.store = .absent) (value : Fields) :
    spliceStore r value = r := by
  unfold spliceStore
  rw [hr]

theorem parseStore_absent {r : Record} (hr : r.store = .absent) : parseStore r = some .none := by
  unfold parseStore
  rw [hr]

theorem mem_counted {d : Decision} {s : Section} {k : Kind} :
    k ∈ counted d s ↔ (d.archive k).isSome = true ∧ (s.locators k).isSome = true := by
  simp [counted, mem_kinds]

theorem nodup_counted (d : Decision) (s : Section) : (counted d s).Nodup :=
  nodup_kinds.filter _

/-- The locator of a kind that is counted is an object. -/
theorem object_of_mem_counted {d : Decision} {s : Section} {k : Kind}
    (hs : parseStore d.raw = some s) (hk : k ∈ counted d s) : ∃ l, s.locators k = some (.object l) := by
  obtain ⟨ha, hl⟩ := mem_counted.1 hk
  obtain ⟨v, hv⟩ := Option.isSome_iff_exists.1 hl
  obtain ⟨l, rfl⟩ := d.objects s hs k ha v hv
  exact ⟨l, hv⟩

end Retain
