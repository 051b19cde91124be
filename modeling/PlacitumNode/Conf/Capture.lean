import PlacitumNode.Conf.Settings
import PlacitumNode.Lib.Separated

/-!
# What is captured and archived (`core/ngx_http_waf_directives.c`, `core/ngx_http_waf_conf.c`)

The lines of `waf_capture` and `waf_archive` turn the objects of a phase on and off, clear the phase,
and give lists of names.

* `capture`, `archive`: the lines of a level;
* `mergeCapture`, `mergeArchive`: the merge of a level into its parent's result;
* `Right`: what the nearest level that decides on an object makes of it;
* `shoot_inherited_iff`: exactly when the merge agrees, at every depth.
-/

namespace Capture

open Octets Slots Waves Settings Separated

/-- `NGX_HTTP_WAF_LIST_CAPTURE` and `NGX_HTTP_WAF_LIST_ARCHIVE` -/
inductive Kind
  | capture
  | archive
  deriving DecidableEq

/-- `NGX_HTTP_WAF_AXIS_*` -/
inductive Axis
  | allow
  | mask
  | deny
  deriving DecidableEq

/-- The objects that have lists. -/
inductive MetaObj
  | headers
  | args
  deriving DecidableEq

def metaObj : Obj → Option MetaObj
  | .headers => some .headers
  | .args => some .args
  | .body => none

/-- `archive_when`, `archive_ttl` and `archive_limit` of an object; `none` is an unset value. -/
structure Terms where
  when : Option ℕ
  ttl : Option ℕ
  limit : Option ℕ
  deriving DecidableEq

/-- The fields of `ngx_http_waf_shoot_conf_t` that belong to one directive: `capture` or `archive`, its
`_set`, its `_cleared`, what is set for each object, and its lists. -/
structure Part (α : Type) where
  mask : Option (Obj → Bool)
  set : Obj → Bool
  cleared : Bool
  terms : Obj → α
  lists : MetaObj → Axis → Option (List Bytes)

/-- The parts of all phases. -/
abbrev Parts (α : Type) := Phase → Part α

/-- The limits of `waf_capture` and the terms of `waf_archive`. -/
structure Conf where
  capture : Parts (Option ℕ)
  archive : Parts Terms

def unsetTerms : Terms := ⟨none, none, none⟩

/-- `ngx_http_waf_create_loc_conf` -/
def createLocConf : Conf where
  capture _ := ⟨none, fun _ => false, false, fun _ => none, fun _ _ => none⟩
  archive _ := ⟨none, fun _ => false, false, fun _ => unsetTerms, fun _ _ => none⟩

def objs : List Obj := [.headers, .args, .body]

def metaObjs : List MetaObj := [.headers, .args]

def axes : List Axis := [.allow, .mask, .deny]

/-! ### The directives -/

/-- A line: the directive and its words, its name first. -/
structure Line where
  kind : Kind
  args : List Bytes

/-- `ngx_parse_time` in seconds and `ngx_parse_size`; `none` is an error. -/
structure Parsers where
  seconds : Bytes → Option ℕ
  size : Bytes → Option ℕ

def kwObj : List (Bytes × Obj) :=
  [(ascii "headers", .headers), (ascii "args", .args), (ascii "body", .body)]

/-- The bits of `NGX_HTTP_WAF_V_ALLOW` and `NGX_HTTP_WAF_V_DENY`. -/
def kwArchiveWhen : List (Bytes × ℕ) := [(ascii "allow", 1), (ascii "deny", 8)]

def objName (o : Obj) : Bytes := (kwObj.find? fun k => k.2 = o).elim [] Prod.fst

/-- `allowed` in `ngx_http_waf_obj_in_phase` -/
def allowed : Phase → List Obj
  | .request => [.headers, .args, .body]
  | .response => [.headers, .body]
  | .frameC2s => [.body]
  | .frameS2c => [.body]

/-- `ngx_http_waf_obj_in_phase` -/
def objInPhase (dir : Bytes) (ps : List Phase) (o : Obj) : Except Bytes Unit :=
  match phases.find? fun p => p ∈ ps && o ∉ allowed p with
  | some p => .error (dir ++ ascii ": phase \"" ++ phaseName p ++ ascii "\" has no object \"" ++
      objName o ++ ascii "\"")
  | none => .ok ()

/-- `ngx_http_waf_none_mix` -/
def noneMix (dir : Bytes) (p : Phase) : Bytes :=
  dir ++ ascii " " ++ phaseName p ++ ascii " none cannot be combined with other " ++ dir ++
    ascii " " ++ phaseName p ++ ascii " lines on the same level"

def nameChar (c : UInt8) : Bool :=
  (97 ≤ c && c ≤ 122) || (65 ≤ c && c ≤ 90) || (48 ≤ c && c ≤ 57) || c = 45 || c = 95 || c = 46

/-- An element of a list in `ngx_http_waf_preview_names`. -/
def listName (dir spec item : Bytes) : Except Bytes Bytes :=
  if item = [] then .error (dir ++ ascii ": empty name in \"" ++ spec ++ ascii "\"")
  else if item.all nameChar then .ok item
  else .error (dir ++ ascii ": \"" ++ item ++ ascii "\" is not a name")

/-- `ngx_http_waf_preview_names` -/
def previewNames (dir spec : Bytes) (list : Option (List Bytes)) (all : UInt8) :
    Except Bytes (List Bytes) :=
  if list.isSome then .error (dir ++ ascii ": the list is already set on this level")
  else if all = 42 ∧ spec = ascii "*" ∨ all ≠ 42 ∧ spec = ascii "none" then .ok []
  else if spec = ascii "*" ∨ spec = ascii "none" then
    .error (dir ++ ascii ": \"" ++ spec ++ ascii "\" is not a list of names; allow= takes names or *, " ++
      ascii "mask= and deny= take names or none")
  else (cells 44 spec).mapM (listName dir spec)

section

variable {α : Type}

/-- The loop over the phases of a line. -/
def eachPhase (ps : List Phase) (f : Phase → Part α → Except Bytes (Part α)) :
    List Phase → Parts α → Except Bytes (Parts α)
  | [], c => .ok c
  | p :: rest, c =>
    if p ∈ ps then (f p (c p)).bind fun sh => eachPhase ps f rest (Function.update c p sh)
    else eachPhase ps f rest c

/-- `ngx_http_waf_shoot_named` -/
def shootNamed (sh : Part α) : Bool :=
  objs.any sh.set || metaObjs.any fun m => axes.any fun axis => (sh.lists m axis).isSome

/-- `axis` in `ngx_http_waf_obj_list` -/
def listAxis (kind : Kind) (name : Bytes) : Option Axis :=
  if name = ascii "allow" then if kind = .capture then none else some .allow
  else if name = ascii "mask" then some .mask
  else if name = ascii "deny" then some .deny
  else none

/-- `all` in `ngx_http_waf_obj_list` -/
def Axis.all : Axis → UInt8
  | allow => 42
  | mask => 110
  | deny => 110

def who : Kind → Bytes
  | .capture => ascii "waf_capture"
  | .archive => ascii "waf_archive"

def Part.setList (sh : Part α) (m : MetaObj) (axis : Axis) (names : List Bytes) : Part α :=
  { sh with lists := Function.update sh.lists m (Function.update (sh.lists m) axis (some names)) }

/-- `ngx_http_waf_obj_list`; `none` is `NGX_DECLINED`. -/
def objList (kind : Kind) (c : Parts α) : List Bytes → Except Bytes (Option (Parts α))
  | [dir, phase, word, spec] =>
    match split word, kwLookup kwObj word, split spec with
    | none, some o, some (name, value) =>
      match listAxis kind name with
      | none => .ok none
      | some axis => do
        let ps ← argPhase phase
        objInPhase dir ps o
        match metaObj o with
        | none => .error (who kind ++ ascii " body: takes no allow=, mask= or deny=; the object is a " ++
            ascii "single prefix")
        | some m =>
          let c ← eachPhase ps (fun p sh =>
            if sh.cleared then .error (noneMix dir p)
            else (previewNames dir value (sh.lists m axis) axis.all).map (sh.setList m axis)) phases c
          .ok (some c)
    | _, _, _ => .ok none
  | _ => .ok none

/-- The bits are no longer unset. -/
def Part.touch (sh : Part α) : Part α := { sh with mask := some (sh.mask.getD fun _ => false) }

/-- A line names an object: its bit, and what is set for it. -/
def Part.put (sh : Part α) (o : Obj) (on : Bool) (terms : α) : Part α :=
  { sh with
    mask := sh.mask.map fun m => Function.update m o on
    set := Function.update sh.set o true
    terms := Function.update sh.terms o terms }

end

/-- `mask`, `off` and `limits` of a line. -/
structure Words where
  mask : Obj → Bool
  off : Obj → Bool
  limits : Obj → ℕ

def Words.empty : Words := ⟨fun _ => false, fun _ => false, fun _ => 0⟩

def Words.on (w : Words) (o : Obj) (limit : ℕ) : Words :=
  { w with mask := Function.update w.mask o true, limits := Function.update w.limits o limit }

def Words.turnOff (w : Words) (o : Obj) : Words := { w with off := Function.update w.off o true }

def Words.listed (w : Words) (o : Obj) : Bool := w.mask o || w.off o

def already (dir word : Bytes) : Bytes := dir ++ ascii ": \"" ++ word ++ ascii "\" is already listed"

def configured (dir : Bytes) (o : Obj) : Bytes :=
  dir ++ ascii ": \"" ++ objName o ++ ascii "\" is already configured on this level"

variable (e : Parsers)

/-- The loop over the words in `ngx_http_waf_capture`. -/
def captureWords (dir : Bytes) (ps : List Phase) : List Bytes → Words → Except Bytes Words
  | [], w => .ok w
  | arg :: args, w =>
    match split arg with
    | none =>
      if arg = ascii "none" ∨ arg = ascii "off" then
        .error (ascii "waf_capture: \"none\" cannot be combined with anything else")
      else do
        let o ← optKeyword kwObj arg
        objInPhase dir ps o
        if w.listed o then .error (already (ascii "waf_capture") arg)
        else captureWords dir ps args (w.on o (w.limits o))
    | some (name, value) =>
      if name = ascii "mask" ∨ name = ascii "deny" then
        .error (ascii "waf_capture: mask= and deny= are their own lines (waf_capture request headers " ++
          ascii "deny=x-api-key)")
      else
        match kwLookup kwObj name with
        | none => .error (ascii "waf: unknown option \"" ++ name ++ ascii "\" in waf_capture")
        | some o => do
          objInPhase dir ps o
          if w.listed o then .error (already (ascii "waf_capture") name)
          else if value = ascii "none" then captureWords dir ps args (w.turnOff o)
          else
            match e.size value with
            | some n =>
              if n ≤ 0 then .error (ascii "waf_capture: invalid size \"" ++ value ++ ascii "\" for \"" ++
                name ++ ascii "\"; write \"none\" to turn the object off, or omit \"=\" to capture it " ++
                ascii "whole")
              else captureWords dir ps args (w.on o n)
            | none => .error (ascii "waf_capture: invalid size \"" ++ value ++ ascii "\" for \"" ++
                name ++ ascii "\"; write \"none\" to turn the object off, or omit \"=\" to capture it " ++
                ascii "whole")

/-- The loop over the objects in `ngx_http_waf_capture`. -/
def captureObjs (w : Words) : List Obj → Part (Option ℕ) → Except Bytes (Part (Option ℕ))
  | [], sh => .ok sh
  | o :: os, sh =>
    if w.listed o then
      if sh.set o then .error (configured (ascii "waf_capture") o)
      else if w.off o then captureObjs w os (sh.put o false none)
      else captureObjs w os (sh.put o true (some (w.limits o)))
    else captureObjs w os sh

/-- `ngx_http_waf_capture_none` -/
def captureNone (sh : Part (Option ℕ)) : Part (Option ℕ) :=
  { sh with
    mask := some fun _ => false
    set := fun _ => false
    cleared := true
    terms := fun _ => none
    lists := fun _ _ => none }

/-- `ngx_http_waf_capture` -/
def capture (c : Parts (Option ℕ)) : List Bytes → Except Bytes (Parts (Option ℕ))
  | dir :: phase :: words => do
    match ← objList .capture c (dir :: phase :: words) with
    | some c => .ok c
    | none =>
      let ps ← argPhase phase
      if words = [ascii "none"] ∨ words = [ascii "off"] then
        eachPhase ps (fun p sh =>
          if !sh.cleared && shootNamed sh then .error (noneMix dir p) else .ok (captureNone sh)) phases c
      else
        let w ← captureWords e dir ps words Words.empty
        if objs.all fun o => !w.listed o then
          .error (ascii "waf_capture: no objects listed; say \"off\" to turn capture off")
        else
          eachPhase ps (fun p sh =>
            if sh.cleared then .error (noneMix dir p)
            else captureObjs w objs sh.touch) phases c
  | _ => .error wrongNumber

/-- The loop of `ngx_http_waf_opt_flags`: `mask` and `none`. -/
def optFlagsLoop (kw : List (Bytes × ℕ)) : List Bytes → ℕ → Bool → Except Bytes (ℕ × Bool)
  | [], mask, no => .ok (mask, no)
  | item :: items, mask, no =>
    if item = [] then optFlagsLoop kw items mask no
    else if item = ascii "none" ∨ item = ascii "off" then optFlagsLoop kw items mask true
    else do
      let bit ← optKeyword kw item
      optFlagsLoop kw items (mask ||| bit) no

/-- `ngx_http_waf_opt_flags` -/
def optFlags (kw : List (Bytes × ℕ)) (value : Bytes) : Except Bytes ℕ := do
  let (mask, no) ← optFlagsLoop kw (cells 44 value) 0 false
  if no && mask ≠ 0 then
    .error (ascii "waf: \"" ++ value ++ ascii "\" mixes none with named items")
  else .ok mask

/-- What a line of `waf_archive` says; `when` and `ttl` are for all its objects. -/
structure ArchiveWords extends Words where
  when : Option ℕ
  ttl : Option ℕ

/-- The options of `waf_archive` that name no object. -/
def archiveOption (w : ArchiveWords) (name value : Bytes) : Except Bytes ArchiveWords :=
  if name = ascii "ttl" then
    match e.seconds value with
    | some secs =>
      if secs ≤ 0 then .error (ascii "waf_archive: invalid ttl \"" ++ value ++ ascii "\"; omit it to " ++
        ascii "keep objects forever")
      else .ok { w with ttl := some secs }
    | none => .error (ascii "waf_archive: invalid ttl \"" ++ value ++ ascii "\"; omit it to keep " ++
        ascii "objects forever")
  else if name = ascii "when" then do
    let when ← optFlags kwArchiveWhen value
    if when = 0 then .error (ascii "waf_archive: when= names no outcome; say \"none\" to turn " ++
      ascii "archiving off")
    else .ok { w with when := some when }
  else if name = ascii "source" then
    .error (ascii "waf_archive: source= is not an option; the archive masks by its own lists " ++
      ascii "(waf_archive request headers mask=authorization, or mask=none for none), and the module takes " ++
      ascii "the original whenever those lists need it")
  else .error (ascii "waf: unknown option \"" ++ name ++ ascii "\" in waf_archive")

/-- The loop over the words in `ngx_http_waf_archive`. -/
def archiveWords : List Bytes → ArchiveWords → Except Bytes ArchiveWords
  | [], w => .ok w
  | arg :: args, w =>
    match split arg with
    | none =>
      if arg = ascii "none" then
        .error (ascii "waf_archive: \"none\" cannot be combined with anything else")
      else do
        let o ← optKeyword kwObj arg
        if w.listed o then .error (already (ascii "waf_archive") arg)
        else archiveWords args { w with toWords := w.on o 0 }
    | some (name, value) =>
      match kwLookup kwObj name with
      | some o =>
        if w.listed o then .error (already (ascii "waf_archive") name)
        else if value = ascii "none" then archiveWords args { w with toWords := w.toWords.turnOff o }
        else
          match e.size value with
          | some n =>
            if n ≤ 0 then .error (ascii "waf_archive: invalid size \"" ++ value ++ ascii "\" for \"" ++
              name ++ ascii "\"; write \"none\" to turn the object off, or omit \"=\" to archive it " ++
              ascii "whole")
            else archiveWords args { w with toWords := w.on o n }
          | none => .error (ascii "waf_archive: invalid size \"" ++ value ++ ascii "\" for \"" ++
              name ++ ascii "\"; write \"none\" to turn the object off, or omit \"=\" to archive it " ++
              ascii "whole")
      | none => do
        let w ← archiveOption e w name value
        archiveWords args w

/-- The loops of `ngx_http_waf_archive_apply`, first over `off`, then over `mask`. -/
def archiveOff (w : ArchiveWords) : List Obj → Part Terms → Except Bytes (Part Terms)
  | [], sh => .ok sh
  | o :: os, sh =>
    if w.off o then
      if sh.set o then .error (configured (ascii "waf_archive") o)
      else archiveOff w os (sh.put o false unsetTerms)
    else archiveOff w os sh

def archiveOn (w : ArchiveWords) : List Obj → Part Terms → Except Bytes (Part Terms)
  | [], sh => .ok sh
  | o :: os, sh =>
    if w.mask o then
      if sh.set o then .error (configured (ascii "waf_archive") o)
      else archiveOn w os (sh.put o true ⟨w.when, w.ttl, some (w.limits o)⟩)
    else archiveOn w os sh

/-- `ngx_http_waf_archive_apply` -/
def archiveApply (w : ArchiveWords) (sh : Part Terms) : Except Bytes (Part Terms) := do
  let sh ← archiveOff w objs sh.touch
  archiveOn w objs sh

/-- `ngx_http_waf_archive_reset` -/
def archiveReset (sh : Part Terms) : Part Terms :=
  { sh with
    set := fun _ => false
    cleared := true
    terms := fun _ => unsetTerms
    lists := fun _ _ => none }

/-- `ngx_http_waf_archive` -/
def archive (c : Parts Terms) : List Bytes → Except Bytes (Parts Terms)
  | dir :: phase :: word :: words => do
    match ← objList .archive c (dir :: phase :: word :: words) with
    | some c => .ok c
    | none =>
      let ps ← argPhase phase
      if word = ascii "reload" then
        .error (ascii "waf_archive: \"reload\" is gone; write the size on the object (body=64k) and " ++
          ascii "name the archive's own lists (waf_archive request headers mask=authorization): whatever the " ++
          ascii "capture cannot give rides to the agent with the record")
      else if word = ascii "none" ∧ words = [] then
        eachPhase ps (fun p sh =>
          if !sh.cleared && shootNamed sh then .error (noneMix dir p)
          else .ok { archiveReset sh with mask := some fun _ => false }) phases c
      else
        let w ← archiveWords e (word :: words) ⟨Words.empty, none, none⟩
        if objs.all fun o => !w.listed o then
          .error (ascii "waf_archive: no objects listed; say \"none\" to turn archiving off")
        else
          (objs.filter w.listed).forM (objInPhase dir ps)
          eachPhase ps (fun p sh =>
            if sh.cleared then .error (noneMix dir p) else archiveApply w sh) phases c
  | _ => .error wrongNumber

def readLine (c : Conf) (l : Line) : Except Bytes Conf :=
  match l.kind with
  | .capture => (capture e c.capture l.args).map fun x => { c with capture := x }
  | .archive => (archive e c.archive l.args).map fun x => { c with archive := x }

/-- The lines of a level, one after the other. -/
def readLevel : List Line → Conf → Except Bytes Conf
  | [], c => .ok c
  | l :: ls, c => (readLine e c l).bind (readLevel ls)

/-! ### The merge -/

section

variable {α : Type}

/-- `ngx_http_waf_merge_lists` -/
def mergeLists (lists plists : MetaObj → Axis → Option (List Bytes)) (m : MetaObj) (axis : Axis) :
    Option (List Bytes) :=
  match lists m axis with
  | none => plists m axis
  | some names => some names

/-- The bit of an object. -/
def Part.on (sh : Part α) (o : Obj) : Bool := (sh.mask.getD fun _ => false) o

/-- No line of the level touches an object of the phase. -/
def Part.untouched (sh : Part α) : Bool :=
  sh.mask.isNone && !sh.cleared && objs.all fun o => !sh.set o

end

/-- An object in the second branch of `ngx_http_waf_merge_capture`: its bit and its limit. -/
def captureObject (d : Obj → Bool) (sh psh : Part (Option ℕ)) (o : Obj) : Bool × Option ℕ :=
  if sh.set o then (sh.on o, some ((sh.terms o).getD 0))
  else if sh.cleared then (false, some 0)
  else
    match psh.mask with
    | none => (d o, some 0)
    | some m => if m o then (true, psh.terms o) else (false, some 0)

/-- `ngx_http_waf_merge_capture` -/
def mergeCapture (d : Obj → Bool) (sh psh : Part (Option ℕ)) : Part (Option ℕ) :=
  let sh' :=
    if sh.untouched then
      match psh.mask with
      | none => { sh with mask := some d, terms := fun _ => some 0 }
      | some m => { sh with mask := some m, terms := psh.terms }
    else
      { sh with
        mask := some fun o => (captureObject d sh psh o).1
        terms := fun o => (captureObject d sh psh o).2 }
  if sh.cleared then sh' else { sh' with lists := mergeLists sh.lists psh.lists }

/-- `NGX_HTTP_WAF_ARCHIVE_WHEN_ALL`: allow, redirect and deny. -/
def whenAll : ℕ := 2 ^ 0 ||| 2 ^ 2 ||| 2 ^ 3

/-- Unset terms become all outcomes, forever and whole. -/
def Terms.fill (t : Terms) : Terms := ⟨some (t.when.getD whenAll), some (t.ttl.getD 0), some (t.limit.getD 0)⟩

/-- An object in the second branch of `ngx_http_waf_merge_archive`. -/
def archiveObject (sh psh : Part Terms) (o : Obj) : Bool × Terms :=
  if sh.set o then (sh.on o, (sh.terms o).fill)
  else if sh.cleared then (false, unsetTerms.fill)
  else
    match psh.mask with
    | none => (false, unsetTerms.fill)
    | some m => (m o, psh.terms o)

/-- `ngx_http_waf_merge_archive` -/
def mergeArchive (sh psh : Part Terms) : Part Terms :=
  let sh' :=
    if sh.untouched then
      match psh.mask with
      | none => { sh with mask := some fun _ => false, terms := fun _ => unsetTerms.fill }
      | some m => { sh with mask := some m, terms := psh.terms }
    else
      { sh with
        mask := some fun o => (archiveObject sh psh o).1
        terms := fun o => (archiveObject sh psh o).2 }
  if sh.cleared then sh' else { sh' with lists := mergeLists sh.lists psh.lists }

/-- What `ngx_http_waf_merge_loc_conf` passes as `def`. -/
def captureDefault (p : Phase) (o : Obj) : Bool := p = .request && (o = .headers || o = .args)

/-- The parts in `ngx_http_waf_merge_loc_conf`. -/
def mergeLocConf (conf prev : Conf) : Conf where
  capture p := mergeCapture (captureDefault p) (conf.capture p) (prev.capture p)
  archive p := mergeArchive (conf.archive p) (prev.archive p)

/-- The level inside the others, the innermost first, merged into its parent's result; the outermost
level is never merged. -/
def merged (outer : List Line) : List (List Line) → Except Bytes Conf
  | [] => readLevel e outer createLocConf
  | level :: levels =>
    match merged outer levels with
    | .error err => .error err
    | .ok prev =>
      match readLevel e level createLocConf with
      | .error err => .error err
      | .ok conf => .ok (mergeLocConf conf prev)

/-! ### The nearest level -/

section

variable (l : Line) (k : Kind) (p : Phase)

/-- The line gives a list of names. -/
def Line.isList : Bool :=
  match l.args with
  | [_, _, word, spec] =>
    (kwLookup kwObj word).isSome && (split spec).any fun s => (listAxis l.kind s.1).isSome
  | _ => false

/-- The line clears the phase. -/
def Line.clears : Bool :=
  match l.args with
  | [_, phase, word] =>
    l.kind = k && (p ∈ phasesOf phase && (word = ascii "none" || (k = .capture && word = ascii "off")))
  | _ => false

/-- The names that the line lists; `none` and `*` are lists without names. -/
def Line.list (m : MetaObj) (axis : Axis) : Option (List Bytes) :=
  match l.args with
  | [_, phase, word, spec] =>
    if l.kind = k ∧ p ∈ phasesOf phase ∧ (kwLookup kwObj word).bind metaObj = some m then
      (split spec).bind fun s =>
        if listAxis k s.1 = some axis then
          if s.2 = ascii "none" ∨ s.2 = ascii "*" then some [] else some (cells 44 s.2)
        else none
    else none
  | _ => none

/-- What a word says of an object: off, or on with a limit, where 0 is the whole. -/
def wordSays (o : Obj) (word : Bytes) : Option (Option ℕ) :=
  match split word with
  | none => if kwLookup kwObj word = some o then some (some 0) else none
  | some (name, value) =>
    if kwLookup kwObj name = some o then
      if value = ascii "none" then some none else (e.size value).map some
    else none

/-- The outcomes that a word gives. -/
def whenWord (word : Bytes) : Option ℕ :=
  (split word).bind fun s =>
    if s.1 = ascii "when" then (optFlags kwArchiveWhen s.2).toOption else none

/-- The time that a word gives. -/
def ttlWord (word : Bytes) : Option ℕ :=
  (split word).bind fun s => if s.1 = ascii "ttl" then e.seconds s.2 else none

/-- The last of each counts. -/
def whenOf (words : List Bytes) : Option ℕ := (words.filterMap whenWord).getLast?

def ttlOf (words : List Bytes) : Option ℕ := (words.filterMap (ttlWord e)).getLast?

/-- What the line says of an object, with all its words. -/
def Line.object (o : Obj) : Option (Option ℕ × List Bytes) :=
  match l.args with
  | _ :: phase :: words =>
    if l.kind = k ∧ p ∈ phasesOf phase ∧ l.isList = false then
      (words.findSome? (wordSays e o)).map fun v => (v, words)
    else none
  | _ => none

/-- The limit that a line of `waf_capture` gives an object; `some none` is off. -/
def Line.captures (o : Obj) : Option (Option (Option ℕ)) :=
  (l.object e .capture p o).map fun s => s.1.map some

/-- The terms that a line of `waf_archive` gives an object. -/
def Line.archives (o : Obj) : Option (Option Terms) :=
  (l.object e .archive p o).map fun s => s.1.map fun limit => ⟨whenOf s.2, ttlOf e s.2, some limit⟩

end

section

variable {α : Type}

/-- What a level says of an object, where `f` is what a line says; `some none` is off. -/
def levelSays (k : Kind) (f : Line → Phase → Obj → Option (Option α)) (level : List Line)
    (p : Phase) (o : Obj) : Option (Option α) :=
  if level.any fun l => l.clears k p then some none else level.findSome? fun l => f l p o

/-- What the nearest level says that names the object or clears the phase; the innermost comes first. -/
def nearest (k : Kind) (f : Line → Phase → Obj → Option (Option α)) (levels : List (List Line))
    (p : Phase) (o : Obj) : Option (Option α) :=
  levels.findSome? fun level => levelSays k f level p o

/-- A level clears the phase, or sets a list. -/
def levelList (k : Kind) (level : List Line) (p : Phase) (m : MetaObj) (axis : Axis) :
    Option (Option (List Bytes)) :=
  if level.any fun l => l.clears k p then some none
  else (level.findSome? fun l => l.list k p m axis).map some

/-- The list of the nearest level that sets it, unless that level or one inside clears the phase. -/
def listAt (k : Kind) (levels : List (List Line)) (p : Phase) (m : MetaObj) (axis : Axis) :
    Option (List Bytes) :=
  (levels.findSome? fun level => levelList k level p m axis).join

/-- An object after the merge: on as the nearest level or the default `d` wants it, and if so with the
terms of that level, where `fill` puts in what it leaves out of `unset`. -/
def Right (fill : α → α) (unset : α) (d : Bool) (said : Option (Option α)) (sh : Part α) (o : Obj) :
    Prop :=
  sh.on o = (said.map Option.isSome).getD d ∧
    (sh.on o = true → sh.terms o = fill (said.join.getD unset))

end

/-! ### What the lines of a level leave in a part -/

/-- A part after lines that clear the phase or not, and that say things of its objects and lists. -/
structure Reads {α : Type} (sh : Part α) (clears : Bool) (said : Obj → Option (Option α))
    (list : MetaObj → Axis → Option (List Bytes)) : Prop where
  cleared : sh.cleared = clears
  alone : clears = true → (∀ o, said o = none) ∧ ∀ m axis, list m axis = none
  set : ∀ o, sh.set o = (said o).isSome
  on : ∀ o, sh.on o = (said o).join.isSome
  terms : ∀ o t, said o = some (some t) → sh.terms o = t
  mask : sh.mask.isSome = (clears || objs.any fun o => (said o).isSome)
  lists : ∀ m axis, sh.lists m axis = list m axis

/-- A line that was read adds what it says. -/
def Step {α : Type} (sh sh' : Part α) (clears : Bool) (said : Obj → Option (Option α))
    (list : MetaObj → Axis → Option (List Bytes)) : Prop :=
  ∀ C S L, Reads sh C S L → Reads sh' (C || clears) (fun o => (S o).or (said o))
    fun m axis => (L m axis).or (list m axis)

/-- Objects that a line names and that had not been named. -/
structure Applied {α : Type} (sh sh' : Part α) (said : Obj → Option (Option α)) : Prop where
  fresh : ∀ o, (said o).isSome = true → sh.set o = false
  cleared : sh'.cleared = sh.cleared
  lists : sh'.lists = sh.lists
  mask : sh'.mask.isSome = sh.mask.isSome
  set : ∀ o, sh'.set o = (sh.set o || (said o).isSome)
  on : sh.mask.isSome = true → ∀ o, sh'.on o = (said o).elim (sh.on o) Option.isSome
  terms : ∀ o t, said o = some (some t) → sh'.terms o = t
  others : ∀ o, said o = none → sh'.terms o = sh.terms o

section

variable {α : Type} {sh sh' sh'' : Part α} {C C' : Bool} {S S' : Obj → Option (Option α)}
  {L L' : MetaObj → Axis → Option (List Bytes)}

theorem mem_objs (o : Obj) : o ∈ objs := by cases o <;> simp [objs]

theorem Step.refl (sh : Part α) : Step sh sh false (fun _ => none) fun _ _ => none := by
  intro C S L h
  simpa using h

theorem Step.trans (h : Step sh sh' C S L) (h' : Step sh' sh'' C' S' L') :
    Step sh sh'' (C || C') (fun o => (S o).or (S' o)) fun m axis => (L m axis).or (L' m axis) := by
  intro C₀ S₀ L₀ hreads
  have hlast := h' _ _ _ (h _ _ _ hreads)
  simpa only [Bool.or_assoc, Option.or_assoc] using hlast

/-- A list. -/
theorem step_setList {m : MetaObj} {axis : Axis} {names : List Bytes} (hc : sh.cleared = false)
    (hl : sh.lists m axis = none) :
    Step sh (sh.setList m axis names) false (fun _ => none)
      fun m' axis' => if m' = m ∧ axis' = axis then some names else none := by
  intro C S L h
  have hC : C = false := h.cleared ▸ hc
  simp only [Bool.or_false, Option.or_none]
  refine ⟨h.cleared, fun hclear => ?_, h.set, h.on, h.terms, h.mask, fun m' axis' => ?_⟩
  · simp [hC] at hclear
  · rw [Part.setList, ← h.lists]
    by_cases hm : m' = m
    · subst hm
      by_cases ha : axis' = axis
      · subst ha
        simp [hl]
      · simp [ha]
    · simp [hm]

theorem not_named (h : shootNamed sh = false) :
    (∀ o, sh.set o = false) ∧ ∀ m axis, sh.lists m axis = none := by
  rw [shootNamed, Bool.or_eq_false_iff, List.any_eq_false, List.any_eq_false] at h
  obtain ⟨hset, hlists⟩ := h
  refine ⟨fun o => by simpa using hset o (mem_objs o), fun m axis => ?_⟩
  have haxes := hlists m (by cases m <;> simp [metaObjs])
  rw [Bool.not_eq_true, List.any_eq_false] at haxes
  have hnone := haxes axis (by cases axis <;> simp [axes])
  simpa using hnone

/-- The phase is cleared. -/
theorem step_clear (h : ¬(!sh.cleared && shootNamed sh) = true) (hmask : sh'.mask = some fun _ => false)
    (hset : ∀ o, sh'.set o = false) (hcleared : sh'.cleared = true)
    (hlists : ∀ m axis, sh'.lists m axis = none) :
    Step sh sh' true (fun _ => none) fun _ _ => none := by
  intro C S L hreads
  have halone : (∀ o, S o = none) ∧ ∀ m axis, L m axis = none := by
    by_cases hc : sh.cleared = true
    · exact hreads.alone (hreads.cleared ▸ hc)
    · have hnamed : shootNamed sh = false := by simpa [hc] using h
      obtain ⟨hs, hl⟩ := not_named hnamed
      refine ⟨fun o => ?_, fun m axis => by rw [← hreads.lists, hl]⟩
      have hso := hs o
      rw [hreads.set] at hso
      simpa using hso
  obtain ⟨hS, hL⟩ := halone
  refine ⟨by rw [hcleared, Bool.or_true], fun _ => ⟨fun o => by simp [hS], fun m axis => by simp [hL]⟩,
    fun o => by simp [hset, hS], fun o => by simp [Part.on, hmask, hS], fun o t ht => ?_,
    by simp [hmask], fun m axis => by simp [hlists, hL]⟩
  simp [hS] at ht

theorem Applied.refl (sh : Part α) : Applied sh sh fun _ => none := by
  constructor <;> simp

theorem Applied.trans (h : Applied sh sh' S) (h' : Applied sh' sh'' S') :
    Applied sh sh'' fun o => (S o).or (S' o) := by
  refine ⟨fun o hsome => ?_, h'.cleared.trans h.cleared, h'.lists.trans h.lists,
    h'.mask.trans h.mask, fun o => ?_, fun hmask o => ?_, fun o t ht => ?_, fun o hnone => ?_⟩
  · cases hS : S o with
    | some v => exact h.fresh o (by rw [hS]; rfl)
    | none =>
      have hset := h'.fresh o (by simpa [hS] using hsome)
      rw [h.set, Bool.or_eq_false_iff] at hset
      exact hset.1
  · rw [h'.set, h.set, Bool.or_assoc, Option.isSome_or]
  · rw [h'.on (h.mask.trans hmask), h.on hmask]
    cases hS : S o with
    | none => simp
    | some v =>
      have hS' : S' o = none := by
        by_contra hne
        have hset := h'.fresh o (Option.isSome_iff_ne_none.mpr hne)
        rw [h.set, hS] at hset
        simp at hset
      simp [hS']
  · cases hS : S o with
    | none =>
      rw [hS, Option.none_or] at ht
      exact h'.terms o t ht
    | some v =>
      rw [hS, Option.some_or] at ht
      have hS' : S' o = none := by
        by_contra hne
        have hset := h'.fresh o (Option.isSome_iff_ne_none.mpr hne)
        rw [h.set, hS] at hset
        simp at hset
      rw [h'.others o hS']
      exact h.terms o t (hS.trans ht)
  · obtain ⟨hS, hS'⟩ := Option.or_eq_none_iff.mp hnone
    rw [h'.others o hS', h.others o hS]

theorem applied_put {o : Obj} {v : Option α} {t : α} (hset : sh.set o = false)
    (hv : ∀ a, v = some a → t = a) :
    Applied sh (sh.put o v.isSome t) fun o' => if o' = o then some v else none := by
  refine ⟨fun o' h => ?_, rfl, rfl, by simp [Part.put], fun o' => ?_, fun hmask o' => ?_,
    fun o' a ha => ?_, fun o' hnone => ?_⟩
  · split_ifs at h with ho
    · rw [ho, hset]
    · cases h
  · by_cases ho : o' = o <;> simp [Part.put, ho]
  · obtain ⟨m, hm⟩ := Option.isSome_iff_exists.mp hmask
    by_cases ho : o' = o <;> simp [Part.put, Part.on, hm, ho]
  · split_ifs at ha with ho
    subst ho
    simpa [Part.put] using hv a (Option.some.inj ha)
  · split_ifs at hnone with ho
    simp [Part.put, ho]

/-- The first object of a loop and the others. -/
theorem Applied.cons {o : Obj} {l : List Obj}
    (hfirst : Applied sh sh' fun o' => if o' = o then S o else none)
    (hrest : Applied sh' sh'' fun o' => if o' ∈ l then S o' else none) :
    Applied sh sh'' fun o' => if o' ∈ o :: l then S o' else none := by
  have hboth := hfirst.trans hrest
  have heq : (fun o' => if o' ∈ o :: l then S o' else none) =
      fun o' => (if o' = o then S o else none).or (if o' ∈ l then S o' else none) := by
    funext o'
    by_cases ho : o' = o
    · subst ho
      cases S o' <;> simp
    · simp [ho]
  rwa [heq]

/-- An object that the line leaves out. -/
theorem Applied.skip {o : Obj} {l : List Obj} (hnone : S o = none)
    (hrest : Applied sh sh' fun o' => if o' ∈ l then S o' else none) :
    Applied sh sh' fun o' => if o' ∈ o :: l then S o' else none := by
  refine Applied.cons ?_ hrest
  simpa [hnone] using Applied.refl sh

/-- The objects of a line. -/
theorem Applied.step (h : Applied sh.touch sh' S) (hc : sh.cleared = false)
    (hsome : ∃ o, (S o).isSome = true) : Step sh sh' false S fun _ _ => none := by
  intro C T L hreads
  have hC : C = false := hreads.cleared ▸ hc
  have hnone : ∀ o, (S o).isSome = true → T o = none := by
    intro o ho
    have hset : sh.set o = false := h.fresh o ho
    rw [hreads.set] at hset
    simpa using hset
  refine ⟨by rw [h.cleared, Part.touch, hc, hC]; rfl, fun hclear => by simp [hC] at hclear, fun o => ?_,
    fun o => ?_, fun o t ht => ?_, ?_, fun m axis => ?_⟩
  · rw [h.set, Option.isSome_or, ← hreads.set]
    rfl
  · rw [h.on rfl]
    have hon : sh.touch.on o = sh.on o := rfl
    rw [hon, hreads.on]
    cases hS : S o with
    | none => simp
    | some v => cases v <;> simp [hnone o (by rw [hS]; rfl)]
  · cases hS : S o with
    | none =>
      rw [hS, Option.or_none] at ht
      rw [h.others o hS]
      exact hreads.terms o t ht
    | some v =>
      rw [hnone o (by rw [hS]; rfl), Option.none_or] at ht
      exact h.terms o t ht
  · obtain ⟨o, ho⟩ := hsome
    have hany : (objs.any fun o => ((T o).or (S o)).isSome) = true :=
      List.any_eq_true.mpr ⟨o, mem_objs o, by rw [Option.isSome_or, ho, Bool.or_true]⟩
    rw [h.mask, hany, Bool.or_true]
    rfl
  · rw [h.lists, Option.or_none]
    exact hreads.lists m axis

end

/-! ### The lines -/

section

variable {α : Type} {ps : List Phase} {c c' : Parts α}

theorem bind_eq_ok {ε β γ : Type} {x : Except ε β} {f : β → Except ε γ} {b : γ}
    (h : x.bind f = .ok b) : ∃ a, x = .ok a ∧ f a = .ok b := by
  cases x with
  | error err => cases h
  | ok a => exact ⟨a, rfl, h⟩

theorem map_eq_ok {ε β γ : Type} {x : Except ε β} {f : β → γ} {b : γ} (h : x.map f = .ok b) :
    ∃ a, x = .ok a ∧ f a = b := by
  cases x with
  | error err => cases h
  | ok a => exact ⟨a, rfl, Except.ok.inj h⟩

/-- A phase of the line is taken once, the others are left. -/
theorem eachPhase_ok {f : Phase → Part α → Except Bytes (Part α)} {l : List Phase} (hl : l.Nodup)
    (h : eachPhase ps f l c = .ok c') (p : Phase) :
    if p ∈ l ∧ p ∈ ps then f p (c p) = .ok (c' p) else c' p = c p := by
  induction l generalizing c with
  | nil =>
    cases h
    simp
  | cons q l ih =>
    obtain ⟨hq, hl⟩ := List.nodup_cons.mp hl
    rw [eachPhase] at h
    by_cases hin : q ∈ ps
    · rw [if_pos hin] at h
      obtain ⟨sh, hsh, h⟩ := bind_eq_ok h
      have hrest := ih hl h
      by_cases hp : p = q
      · subst hp
        rw [if_neg fun hand => hq hand.1, Function.update_self] at hrest
        rw [if_pos ⟨List.mem_cons_self, hin⟩, hsh, hrest]
      · rw [Function.update_of_ne hp] at hrest
        simpa [hp] using hrest
    · rw [if_neg hin] at h
      have hrest := ih hl h
      by_cases hp : p = q
      · subst hp
        rw [if_neg fun hand => hq hand.1] at hrest
        rwa [if_neg fun hand => hin hand.2]
      · simpa [hp] using hrest

theorem eachPhase_cases {f : Phase → Part α → Except Bytes (Part α)}
    (h : eachPhase ps f phases c = .ok c') (p : Phase) :
    (p ∈ ps ∧ f p (c p) = .ok (c' p)) ∨ (p ∉ ps ∧ c' p = c p) := by
  have hok := eachPhase_ok (by decide) h p
  by_cases hp : p ∈ ps
  · rw [if_pos ⟨mem_phases p, hp⟩] at hok
    exact .inl ⟨hp, hok⟩
  · rw [if_neg fun hand => hp hand.2] at hok
    exact .inr ⟨hp, hok⟩

theorem mapM_listName {dir spec : Bytes} {items names : List Bytes}
    (h : items.mapM (listName dir spec) = .ok names) : names = items := by
  induction items generalizing names with
  | nil =>
    cases h
    rfl
  | cons item items ih =>
    rw [List.mapM_cons] at h
    obtain ⟨name, hname, h⟩ := bind_ok h
    obtain ⟨rest, hrest, h⟩ := bind_ok h
    cases h
    rw [ih hrest]
    unfold listName at hname
    split_ifs at hname
    rw [Except.ok.inj hname]

theorem previewNames_ok {dir spec : Bytes} {list : Option (List Bytes)} {all : UInt8}
    {names : List Bytes} (h : previewNames dir spec list all = .ok names) :
    list = none ∧
      names = if spec = ascii "none" ∨ spec = ascii "*" then [] else cells 44 spec := by
  unfold previewNames at h
  by_cases hlist : list.isSome = true
  · rw [if_pos hlist] at h
    cases h
  · rw [if_neg hlist] at h
    refine ⟨by simpa using hlist, ?_⟩
    by_cases hall : all = 42 ∧ spec = ascii "*" ∨ all ≠ 42 ∧ spec = ascii "none"
    · rw [if_pos hall] at h
      cases h
      rw [if_pos (hall.elim (fun hand => .inr hand.2) fun hand => .inl hand.2)]
    · rw [if_neg hall] at h
      by_cases hword : spec = ascii "*" ∨ spec = ascii "none"
      · rw [if_pos hword] at h
        cases h
      · rw [if_neg hword] at h
        rw [if_neg fun hor => hword hor.symm]
        exact mapM_listName h

end

section

variable {α : Type} {kind : Kind} {ps : List Phase} {c c' : Parts α} {args : List Bytes}

/-- A line with a list. -/
theorem objList_some (h : objList kind c args = .ok (some c')) :
    Line.isList ⟨kind, args⟩ = true ∧
      ∀ p, Step (c p) (c' p) false (fun _ => none) (Line.list ⟨kind, args⟩ kind p) := by
  unfold objList at h
  split at h
  · next dir phase word spec =>
    split at h
    · next o name value hword hobj hspec =>
      split at h
      · cases h
      · next axis haxis =>
        obtain ⟨ps, hps, h⟩ := bind_ok h
        obtain ⟨-, -, h⟩ := bind_ok h
        split at h
        · cases h
        · next m hm =>
          obtain ⟨c₁, hc₁, h⟩ := bind_ok h
          cases h
          have hphases := argPhase_ok hps
          refine ⟨by simp [Line.isList, hobj, hspec, haxis], fun p => ?_⟩
          rcases eachPhase_cases hc₁ p with ⟨hp, hok⟩ | ⟨hp, heq⟩
          · split_ifs at hok with hc
            obtain ⟨names, hnames, hput⟩ := map_eq_ok hok
            obtain ⟨hl, hn⟩ := previewNames_ok hnames
            have hlist : Line.list ⟨kind, [dir, phase, word, spec]⟩ kind p =
                fun m' axis' => if m' = m ∧ axis' = axis then some names else none := by
              funext m' axis'
              simp only [Line.list, hphases, hobj, Option.bind_some, hm, hspec, haxis,
                Option.some.injEq, true_and, hp, hn]
              by_cases hm' : m = m'
              · by_cases ha : axis = axis'
                · simp only [hm', ha, and_self, if_true]
                  split_ifs <;> rfl
                · simp [ha, Ne.symm ha]
              · simp [hm', Ne.symm hm']
            rw [← hput, hlist]
            exact step_setList (by simpa using hc) hl
          · have hlist : Line.list ⟨kind, [dir, phase, word, spec]⟩ kind p = fun _ _ => none := by
              funext m' axis'
              simp [Line.list, hphases, hp]
            rw [heq, hlist]
            exact Step.refl _
    · cases h
  · cases h

/-- An object's name has no `=`. -/
theorem split_of_kwObj {word : Bytes} {o : Obj} (h : kwLookup kwObj word = some o) :
    split word = none := by
  obtain ⟨k, hk, -⟩ := Option.map_eq_some_iff.mp h
  have hword : k.1 = word := by simpa using List.find?_some hk
  have hall : ∀ k ∈ kwObj, split k.1 = none := by decide
  rw [← hword]
  exact hall k (List.mem_of_find?_eq_some hk)

/-- A line that is refused as a list is none. -/
theorem objList_none (h : objList kind c args = .ok none) : Line.isList ⟨kind, args⟩ = false := by
  unfold objList at h
  split at h
  · next dir phase word spec =>
    split at h
    · next o name value hword hobj hspec =>
      split at h
      · next haxis => simp [Line.isList, hspec, haxis]
      · obtain ⟨ps, -, h⟩ := bind_ok h
        obtain ⟨-, -, h⟩ := bind_ok h
        split at h
        · cases h
        · obtain ⟨c₁, -, h⟩ := bind_ok h
          cases h
    · next hno =>
      rw [Line.isList]
      by_contra hlist
      rw [Bool.not_eq_false, Bool.and_eq_true, Option.isSome_iff_exists] at hlist
      obtain ⟨⟨o, ho⟩, hspec⟩ := hlist
      obtain ⟨⟨name, value⟩, hs⟩ := Option.isSome_iff_exists.mp
        (show (split spec).isSome = true by cases hs : split spec <;> simp [hs] at hspec ⊢)
      exact hno o name value (split_of_kwObj ho) ho hs
  · next hno =>
    rw [Line.isList]
    split
    · next dir phase word spec hargs => exact absurd hargs (hno dir phase word spec)
    · rfl

end

/-! ### The words of a line -/

/-- What the accumulators say of an object. -/
def Words.told (w : Words) (o : Obj) : Option (Option ℕ) :=
  if w.off o then some none else if w.mask o then some (some (w.limits o)) else none

/-- An object that is not listed has the whole limit. -/
def Words.Tidy (w : Words) : Prop := ∀ o, w.listed o = false → w.limits o = 0

section

variable {w w' : Words} {o : Obj} {n : ℕ}

theorem told_isSome (w : Words) (o : Obj) : (w.told o).isSome = w.listed o := by
  rw [Words.told, Words.listed]
  cases w.off o <;> cases w.mask o <;> rfl

theorem exists_listed (h : ¬(objs.all fun o => !w.listed o) = true) : ∃ o, w.listed o = true := by
  by_contra hno
  refine h (List.all_eq_true.mpr fun o _ => ?_)
  simpa using not_exists.mp hno o

theorem told_empty (o : Obj) : Words.empty.told o = none := rfl

theorem tidy_empty : Words.empty.Tidy := fun _ _ => rfl

theorem told_on (hlisted : w.listed o = false) (o' : Obj) :
    (w.on o n).told o' = (w.told o').or (if o' = o then some (some n) else none) := by
  rw [Words.listed, Bool.or_eq_false_iff] at hlisted
  by_cases ho : o' = o
  · subst ho
    simp [Words.told, Words.on, hlisted]
  · simp [Words.told, Words.on, ho]

theorem told_turnOff (hlisted : w.listed o = false) (o' : Obj) :
    (w.turnOff o).told o' = (w.told o').or (if o' = o then some none else none) := by
  rw [Words.listed, Bool.or_eq_false_iff] at hlisted
  by_cases ho : o' = o
  · subst ho
    simp [Words.told, Words.turnOff, hlisted]
  · simp only [Words.told, Words.turnOff, Function.update_of_ne ho, if_neg ho, Option.or_none]
    rfl

theorem tidy_on (h : w.Tidy) : (w.on o n).Tidy := by
  intro o' ho'
  rw [Words.listed, Bool.or_eq_false_iff] at ho'
  by_cases ho : o' = o
  · subst ho
    simp [Words.on] at ho'
  · have hmask : w.mask o' = false := by simpa [Words.on, ho] using ho'.1
    have hlimit := h o' (by rw [Words.listed, hmask, show w.off o' = false from ho'.2]; rfl)
    simpa [Words.on, ho] using hlimit

theorem tidy_turnOff (h : w.Tidy) : (w.turnOff o).Tidy := by
  intro o' ho'
  rw [Words.listed, Bool.or_eq_false_iff] at ho'
  by_cases ho : o' = o
  · subst ho
    simp [Words.turnOff] at ho'
  · have hoff : w.off o' = false := by simpa [Words.turnOff, ho] using ho'.2
    exact h o' (by rw [Words.listed, show w.mask o' = false from ho'.1, hoff]; rfl)

variable {e : Parsers} {word value : Bytes} {words : List Bytes}

theorem wordSays_bare (hs : split word = none) (hk : kwLookup kwObj word = some o) :
    (fun o' => wordSays e o' word) = fun o' => if o' = o then some (some 0) else none := by
  funext o'
  simp only [wordSays, hs, hk, Option.some.injEq, eq_comm]

theorem wordSays_none {name : Bytes} (hs : split word = some (name, ascii "none"))
    (hk : kwLookup kwObj name = some o) :
    (fun o' => wordSays e o' word) = fun o' => if o' = o then some none else none := by
  funext o'
  simp only [wordSays, hs, hk, Option.some.injEq, eq_comm, if_true]

theorem wordSays_size {name : Bytes} (hs : split word = some (name, value))
    (hk : kwLookup kwObj name = some o) (hvalue : value ≠ ascii "none") (hsize : e.size value = some n) :
    (fun o' => wordSays e o' word) = fun o' => if o' = o then some (some n) else none := by
  funext o'
  simp only [wordSays, hs, hk, Option.some.injEq, if_neg hvalue, hsize, Option.map_some, eq_comm]

theorem wordSays_other {name : Bytes} (hs : split word = some (name, value))
    (hk : kwLookup kwObj name = none) : (fun o' => wordSays e o' word) = fun _ => none := by
  funext o'
  simp [wordSays, hs, hk]

/-- The words that are left, behind one that was read. -/
theorem told_cons {S : Obj → Option (Option ℕ)} (hfirst : (fun o' => wordSays e o' word) = S)
    (hw : ∀ o, w.told o = (w'.told o).or (S o)) {final : Words}
    (h : ∀ o, final.told o = (w.told o).or (words.findSome? (wordSays e o))) (o : Obj) :
    final.told o = (w'.told o).or ((word :: words).findSome? (wordSays e o)) := by
  have ho := congrFun hfirst o
  rw [h, hw, Option.or_assoc, List.findSome?_cons, ← ho]
  cases wordSays e o word <;> rfl

end

section

variable {e : Parsers} {ps : List Phase} {dir : Bytes} {words : List Bytes}

theorem captureWords_ok {w w' : Words} (hw : w.Tidy) (h : captureWords e dir ps words w = .ok w') :
    ∀ o, w'.told o = (w.told o).or (words.findSome? (wordSays e o)) := by
  induction words generalizing w with
  | nil =>
    cases h
    simp
  | cons arg args ih =>
    unfold captureWords at h
    split at h
    · next hs =>
      split_ifs at h with hnone
      obtain ⟨o, ho, h⟩ := bind_ok h
      obtain ⟨-, -, h⟩ := bind_ok h
      split_ifs at h with hlisted
      rw [Bool.not_eq_true] at hlisted
      rw [hw o hlisted] at h
      exact told_cons (wordSays_bare hs (optKeyword_ok ho)) (told_on hlisted) (ih (tidy_on hw) h)
    · next name value hs =>
      by_cases hdeny : name = ascii "mask" ∨ name = ascii "deny"
      · rw [if_pos hdeny] at h
        cases h
      rw [if_neg hdeny] at h
      split at h
      · cases h
      · next o ho =>
        obtain ⟨-, -, h⟩ := bind_ok h
        split_ifs at h with hlisted hnone
        · rw [Bool.not_eq_true] at hlisted
          rw [hnone] at hs
          exact told_cons (wordSays_none hs ho) (told_turnOff hlisted) (ih (tidy_turnOff hw) h)
        · rw [Bool.not_eq_true] at hlisted
          split at h
          · next n hn =>
            split_ifs at h with hpos
            exact told_cons (wordSays_size hs ho hnone hn) (told_on hlisted) (ih (tidy_on hw) h)
          · cases h

/-- The objects that the loop sets. -/
theorem captureObjs_ok {w : Words} {l : List Obj} {sh sh' : Part (Option ℕ)}
    (h : captureObjs w l sh = .ok sh') :
    Applied sh sh' fun o => if o ∈ l then (w.told o).map (·.map some) else none := by
  induction l generalizing sh with
  | nil =>
    cases h
    simpa using Applied.refl _
  | cons o l ih =>
    unfold captureObjs at h
    split_ifs at h with hlisted hset hoff
    · refine Applied.cons ?_ (ih h)
      rw [Words.told, if_pos hoff]
      exact applied_put (v := none) (Bool.not_eq_true _ ▸ hset) (by simp)
    · have hmask : w.mask o = true := by simpa [Words.listed, hoff] using hlisted
      refine Applied.cons ?_ (ih h)
      rw [Words.told, if_neg hoff, if_pos hmask]
      exact applied_put (v := some (some (w.limits o))) (Bool.not_eq_true _ ▸ hset) (by simp)
    · refine Applied.skip ?_ (ih h)
      rw [Option.map_eq_none_iff, ← Option.not_isSome_iff_eq_none, told_isSome]
      exact hlisted

theorem archiveOff_ok {w : ArchiveWords} {l : List Obj} {sh sh' : Part Terms}
    (h : archiveOff w l sh = .ok sh') :
    Applied sh sh' fun o => if o ∈ l then if w.off o then some none else none else none := by
  induction l generalizing sh with
  | nil =>
    cases h
    simpa using Applied.refl _
  | cons o l ih =>
    unfold archiveOff at h
    split_ifs at h with hoff hset
    · refine Applied.cons ?_ (ih h)
      rw [if_pos hoff]
      exact applied_put (v := none) (Bool.not_eq_true _ ▸ hset) (by simp)
    · exact Applied.skip (if_neg hoff) (ih h)

theorem archiveOn_ok {w : ArchiveWords} {l : List Obj} {sh sh' : Part Terms}
    (h : archiveOn w l sh = .ok sh') :
    Applied sh sh' fun o => if o ∈ l then
      if w.mask o then some (some ⟨w.when, w.ttl, some (w.limits o)⟩) else none else none := by
  induction l generalizing sh with
  | nil =>
    cases h
    simpa using Applied.refl _
  | cons o l ih =>
    unfold archiveOn at h
    split_ifs at h with hmask hset
    · refine Applied.cons ?_ (ih h)
      rw [if_pos hmask]
      exact applied_put (v := some ⟨w.when, w.ttl, some (w.limits o)⟩) (Bool.not_eq_true _ ▸ hset)
        fun _ => Option.some.inj
    · exact Applied.skip (if_neg hmask) (ih h)

theorem archiveApply_ok {w : ArchiveWords} {sh sh' : Part Terms} (h : archiveApply w sh = .ok sh') :
    Applied sh.touch sh' fun o =>
      (w.told o).map (·.map fun limit => ⟨w.when, w.ttl, some limit⟩) := by
  obtain ⟨sh₁, h₁, h⟩ := bind_ok h
  have hboth := (archiveOff_ok h₁).trans (archiveOn_ok h)
  simp only [mem_objs, if_true] at hboth
  have heq : (fun o => (w.told o).map (·.map fun limit => (⟨w.when, w.ttl, some limit⟩ : Terms))) =
      fun o => (if w.off o then some none else none).or
        (if w.mask o then some (some ⟨w.when, w.ttl, some (w.limits o)⟩) else none) := by
    funext o
    rw [Words.told]
    cases w.off o <;> cases w.mask o <;> rfl
  rwa [heq]

end

section

variable {e : Parsers}

/-- An option of a line: the last one of its kind counts. -/
theorem getLast?_filterMap_cons {f : Bytes → Option ℕ} {word : Bytes} {words : List Bytes}
    {old new final : Option ℕ} (hnew : new = (f word).or old)
    (h : final = (words.filterMap f).getLast?.or new) :
    final = ((word :: words).filterMap f).getLast?.or old := by
  rw [h, hnew]
  cases hf : f word with
  | none => rw [List.filterMap_cons_none hf, Option.none_or]
  | some n =>
    rw [List.filterMap_cons_some hf]
    cases hrest : words.filterMap f with
    | nil => simp
    | cons m rest => simp [List.getLast?_cons]

theorem archiveOption_ok {w w' : ArchiveWords} {word name value : Bytes}
    (hs : split word = some (name, value)) (h : archiveOption e w name value = .ok w') :
    w'.toWords = w.toWords ∧ w'.when = (whenWord word).or w.when ∧ w'.ttl = (ttlWord e word).or w.ttl := by
  rw [whenWord, ttlWord, hs, Option.bind_some, Option.bind_some]
  unfold archiveOption at h
  by_cases httl : name = ascii "ttl"
  · rw [if_pos httl] at h
    have hwhen : name ≠ ascii "when" := by
      rw [httl]
      decide
    rw [if_pos httl, if_neg hwhen]
    split at h
    · next secs hsecs =>
      split_ifs at h
      cases h
      exact ⟨rfl, rfl, by rw [hsecs]; rfl⟩
    · cases h
  · rw [if_neg httl] at h
    rw [if_neg httl]
    by_cases hwhen : name = ascii "when"
    · rw [if_pos hwhen] at h
      rw [if_pos hwhen]
      obtain ⟨n, hn, h⟩ := bind_ok h
      split_ifs at h
      cases h
      exact ⟨rfl, by rw [hn]; rfl, rfl⟩
    · rw [if_neg hwhen] at h
      split_ifs at h

theorem whenWord_of_object (e : Parsers) (word : Bytes) (o : Obj)
    (h : ∀ name value, split word = some (name, value) → kwLookup kwObj name = some o) :
    whenWord word = none ∧ ttlWord e word = none := by
  rw [whenWord, ttlWord]
  cases hs : split word with
  | none => exact ⟨rfl, rfl⟩
  | some s =>
    have hname := h s.1 s.2 hs
    have hwhen : kwLookup kwObj (ascii "when") = none := by decide
    have httl : kwLookup kwObj (ascii "ttl") = none := by decide
    rw [Option.bind_some, Option.bind_some, if_neg, if_neg]
    · exact ⟨rfl, rfl⟩
    · intro heq
      rw [heq, httl] at hname
      cases hname
    · intro heq
      rw [heq, hwhen] at hname
      cases hname

theorem archiveWords_ok {words : List Bytes} {w w' : ArchiveWords} (hw : w.Tidy)
    (h : archiveWords e words w = .ok w') :
    (∀ o, w'.told o = (w.told o).or (words.findSome? (wordSays e o))) ∧
      w'.when = (words.filterMap whenWord).getLast?.or w.when ∧
      w'.ttl = (words.filterMap (ttlWord e)).getLast?.or w.ttl := by
  -- A word is an object, an object with a size, or an option that says nothing of objects.
  induction words generalizing w with
  | nil =>
    cases h
    simp
  | cons arg args ih =>
    unfold archiveWords at h
    split at h
    · next hs =>
      split_ifs at h with hnone
      obtain ⟨o, ho, h⟩ := bind_ok h
      split_ifs at h with hlisted
      rw [Bool.not_eq_true] at hlisted
      obtain ⟨htold, hwhen, httl⟩ := ih (tidy_on hw) h
      obtain ⟨hno, hno'⟩ := whenWord_of_object e arg o
        fun name value hs' => by rw [hs] at hs'; cases hs'
      exact ⟨told_cons (wordSays_bare hs (optKeyword_ok ho)) (told_on hlisted) htold,
        getLast?_filterMap_cons (by rw [hno]; rfl) hwhen,
        getLast?_filterMap_cons (by rw [hno']; rfl) httl⟩
    · next name value hs =>
      split at h
      · next o ho =>
        obtain ⟨hno, hno'⟩ := whenWord_of_object e arg o
          fun name' value' hs' => by rw [hs] at hs'; cases hs'; exact ho
        split_ifs at h with hlisted hnone
        · rw [Bool.not_eq_true] at hlisted
          rw [hnone] at hs
          obtain ⟨htold, hwhen, httl⟩ := ih (tidy_turnOff hw) h
          exact ⟨told_cons (wordSays_none hs ho) (told_turnOff hlisted) htold,
            getLast?_filterMap_cons (by rw [hno]; rfl) hwhen,
            getLast?_filterMap_cons (by rw [hno']; rfl) httl⟩
        · rw [Bool.not_eq_true] at hlisted
          split at h
          · next n hn =>
            split_ifs at h with hpos
            obtain ⟨htold, hwhen, httl⟩ := ih (tidy_on hw) h
            exact ⟨told_cons (wordSays_size hs ho hnone hn) (told_on hlisted) htold,
              getLast?_filterMap_cons (by rw [hno]; rfl) hwhen,
              getLast?_filterMap_cons (by rw [hno']; rfl) httl⟩
          · cases h
      · next hk =>
        obtain ⟨w₁, hw₁, h⟩ := bind_ok h
        obtain ⟨hwords, hwhen₁, httl₁⟩ := archiveOption_ok hs hw₁
        obtain ⟨htold, hwhen, httl⟩ := ih (by rw [hwords]; exact hw) h
        refine ⟨told_cons (wordSays_other hs hk) (fun o => ?_) htold,
          getLast?_filterMap_cons hwhen₁ hwhen, getLast?_filterMap_cons httl₁ httl⟩
        rw [hwords, Option.or_none]

end

/-! ### A line and a level -/

section

variable {e : Parsers} {ps : List Phase} {k : Kind} {p : Phase} {dir phase word : Bytes}
  {words : List Bytes}

theorem list_of_not_isList {l : Line} (h : l.isList = false) : l.list k p = fun _ _ => none := by
  funext m axis
  unfold Line.list
  split
  · next dir phase word spec hargs =>
    simp only [Line.isList, hargs] at h
    by_cases hin : l.kind = k ∧ p ∈ phasesOf phase ∧ (kwLookup kwObj word).bind metaObj = some m
    · obtain ⟨hkind, -, hobj⟩ := hin
      obtain ⟨o, ho, -⟩ := Option.bind_eq_some_iff.mp hobj
      rw [ho, hkind] at h
      cases hs : split spec with
      | none => simp
      | some s =>
        rw [hs] at h
        have haxis : listAxis k s.1 = none := by simpa using h
        simp [haxis]
    · rw [if_neg hin]
  · rfl

theorem object_of_isList {l : Line} {o : Obj} (h : l.isList = true) : l.object e k p o = none := by
  unfold Line.object
  split
  · rw [if_neg]
    rintro ⟨-, -, hlist⟩
    rw [h] at hlist
    cases hlist
  · rfl

theorem clears_of_isList {l : Line} (h : l.isList = true) : l.clears k p = false := by
  unfold Line.clears
  split
  · next dir phase word hargs =>
    simp [Line.isList, hargs] at h
  · rfl

theorem object_eq (hps : phasesOf phase = ps) (hlist : Line.isList ⟨k, dir :: phase :: words⟩ = false)
    (o : Obj) : Line.object e ⟨k, dir :: phase :: words⟩ k p o =
      if p ∈ ps then (words.findSome? (wordSays e o)).map fun v => (v, words) else none := by
  simp [Line.object, hps, hlist]

/-- A word that is no object names none. -/
theorem object_word (hs : split word = none) (hk : kwLookup kwObj word = none) (o : Obj) :
    Line.object e ⟨k, [dir, phase, word]⟩ k p o = none := by
  have hsays : wordSays e o word = none := by simp [wordSays, hs, hk]
  simp [Line.object, hsays]

theorem clears_eq (hps : phasesOf phase = ps) : Line.clears ⟨k, [dir, phase, word]⟩ k p =
    (p ∈ ps && (word = ascii "none" || (k = .capture && word = ascii "off")) : Bool) := by
  simp [Line.clears, hps]

/-- A line with other words clears no phase. -/
theorem clears_words (hnone : words ≠ [ascii "none"]) (hoff : k = .capture → words ≠ [ascii "off"]) :
    Line.clears ⟨k, dir :: phase :: words⟩ k p = false := by
  unfold Line.clears
  split
  · next dir' phase' word hargs =>
    cases hargs
    have hword : word ≠ ascii "none" := fun heq => hnone (by rw [heq])
    by_cases hk : k = .capture
    · have hword' : word ≠ ascii "off" := fun heq => hoff hk (by rw [heq])
      simp [hword, hword']
    · simp [hword, hk]
  · rfl

/-- A line of `waf_capture`. -/
theorem capture_step {c c' : Parts (Option ℕ)} {args : List Bytes} (h : capture e c args = .ok c')
    (p : Phase) : Step (c p) (c' p) (Line.clears ⟨.capture, args⟩ .capture p)
      (Line.captures e ⟨.capture, args⟩ p) (Line.list ⟨.capture, args⟩ .capture p) := by
  unfold capture at h
  split at h
  · next dir phase words =>
    obtain ⟨r, hr, h⟩ := bind_ok h
    cases r with
    | some c₁ =>
      -- A list of objects, as for the archive.
      cases h
      obtain ⟨hlist, hstep⟩ := objList_some hr
      have hcaptures : Line.captures e ⟨.capture, dir :: phase :: words⟩ p = fun _ => none := by
        funext o
        rw [Line.captures, object_of_isList hlist]
        rfl
      rw [clears_of_isList hlist, hcaptures]
      exact hstep p
    | none =>
      have hlist := objList_none hr
      obtain ⟨ps, hps, h⟩ := bind_ok h
      have hphases := argPhase_ok hps
      rw [list_of_not_isList hlist]
      -- `none` or `off` alone clears the phases.
      by_cases hword : words = [ascii "none"] ∨ words = [ascii "off"]
      · rw [if_pos hword] at h
        have hcaptures : Line.captures e ⟨.capture, dir :: phase :: words⟩ p = fun _ => none := by
          funext o
          rw [Line.captures]
          rcases hword with rfl | rfl <;> rw [object_word (by decide) (by decide)] <;> rfl
        have hclears : Line.clears ⟨.capture, dir :: phase :: words⟩ .capture p = (p ∈ ps : Bool) := by
          rcases hword with rfl | rfl <;> rw [clears_eq hphases] <;> simp
        rw [hcaptures, hclears]
        rcases eachPhase_cases h p with ⟨hp, hok⟩ | ⟨hp, heq⟩
        · split_ifs at hok with hnamed
          rw [← Except.ok.inj hok, decide_eq_true hp]
          exact step_clear hnamed rfl (fun _ => rfl) rfl fun _ _ => rfl
        · rw [heq, decide_eq_false hp]
          exact Step.refl _
      · rw [if_neg hword] at h
        rw [not_or] at hword
        obtain ⟨w, hw, h⟩ := bind_ok h
        have htold := captureWords_ok tidy_empty hw
        simp only [told_empty, Option.none_or] at htold
        rw [clears_words hword.1 fun _ => hword.2]
        split_ifs at h with hempty
        have hcaptures : Line.captures e ⟨.capture, dir :: phase :: words⟩ p =
            fun o => if p ∈ ps then (w.told o).map (·.map some) else none := by
          funext o
          rw [Line.captures, object_eq hphases hlist, htold]
          split_ifs
          · rw [Option.map_map]
            rfl
          · rfl
        rw [hcaptures]
        rcases eachPhase_cases h p with ⟨hp, hok⟩ | ⟨hp, heq⟩
        · split_ifs at hok with hc
          have happlied := captureObjs_ok hok
          simp only [mem_objs, if_true] at happlied
          simp only [hp, if_true]
          refine happlied.step (by simpa using hc) ?_
          simpa only [Option.isSome_map, told_isSome] using exists_listed hempty
        · simp only [hp, if_false, heq]
          exact Step.refl _
  · cases h

/-- A line of `waf_archive`. -/
theorem archive_step {c c' : Parts Terms} {args : List Bytes} (h : archive e c args = .ok c')
    (p : Phase) : Step (c p) (c' p) (Line.clears ⟨.archive, args⟩ .archive p)
      (Line.archives e ⟨.archive, args⟩ p) (Line.list ⟨.archive, args⟩ .archive p) := by
  unfold archive at h
  split at h
  · next dir phase word words =>
    obtain ⟨r, hr, h⟩ := bind_ok h
    cases r with
    | some c₁ =>
      -- A list of objects is a line of its own: it neither clears nor says anything of one.
      cases h
      obtain ⟨hlist, hstep⟩ := objList_some hr
      have harchives : Line.archives e ⟨.archive, dir :: phase :: word :: words⟩ p = fun _ => none := by
        funext o
        rw [Line.archives, object_of_isList hlist]
        rfl
      rw [clears_of_isList hlist, harchives]
      exact hstep p
    | none =>
      have hlist := objList_none hr
      obtain ⟨ps, hps, h⟩ := bind_ok h
      have hphases := argPhase_ok hps
      rw [list_of_not_isList hlist]
      by_cases hreload : word = ascii "reload"
      · rw [if_pos hreload] at h
        cases h
      rw [if_neg hreload] at h
      -- `none` alone clears the phases; with other words it is read as one of them.
      by_cases hnone : word = ascii "none" ∧ words = []
      · rw [if_pos hnone] at h
        have hcases := eachPhase_cases h p
        obtain ⟨rfl, rfl⟩ := hnone
        have harchives : Line.archives e ⟨.archive, [dir, phase, ascii "none"]⟩ p = fun _ => none := by
          funext o
          rw [Line.archives, object_word (by decide) (by decide)]
          rfl
        have hclears : Line.clears ⟨.archive, [dir, phase, ascii "none"]⟩ .archive p =
            (p ∈ ps : Bool) := by
          rw [clears_eq hphases]
          simp
        rw [harchives, hclears]
        rcases hcases with ⟨hp, hok⟩ | ⟨hp, heq⟩
        · split_ifs at hok with hnamed
          rw [← Except.ok.inj hok, decide_eq_true hp]
          exact step_clear hnamed rfl (fun _ => rfl) rfl fun _ _ => rfl
        · rw [heq, decide_eq_false hp]
          exact Step.refl _
      · rw [if_neg hnone] at h
        obtain ⟨w, hw, h⟩ := bind_ok h
        obtain ⟨htold, hwhen, httl⟩ := archiveWords_ok tidy_empty hw
        simp only [told_empty, Option.none_or] at htold
        simp only [Option.or_none] at hwhen httl
        have hwords : word :: words ≠ [ascii "none"] := by
          intro heq
          exact hnone (List.cons.inj heq)
        rw [clears_words (k := .archive) hwords nofun]
        split_ifs at h with hempty
        obtain ⟨-, -, h⟩ := bind_ok h
        have harchives : Line.archives e ⟨.archive, dir :: phase :: word :: words⟩ p = fun o =>
            if p ∈ ps then (w.told o).map (·.map fun limit => ⟨w.when, w.ttl, some limit⟩) else none := by
          funext o
          rw [Line.archives, object_eq hphases hlist, htold, hwhen, httl]
          split_ifs
          · rw [Option.map_map]
            rfl
          · rfl
        rw [harchives]
        rcases eachPhase_cases h p with ⟨hp, hok⟩ | ⟨hp, heq⟩
        · split_ifs at hok with hc
          simp only [hp, if_true]
          refine (archiveApply_ok hok).step (by simpa using hc) ?_
          simpa only [Option.isSome_map, told_isSome] using exists_listed hempty
        · simp only [hp, if_false, heq]
          exact Step.refl _
  · cases h

/-- A line for the other directive leaves a part as it is. -/
theorem clears_other {l : Line} (h : l.kind ≠ k) : l.clears k p = false := by
  unfold Line.clears
  split
  · simp [h]
  · rfl

theorem list_other {l : Line} (h : l.kind ≠ k) : l.list k p = fun _ _ => none := by
  funext m axis
  unfold Line.list
  split
  · simp [h]
  · rfl

theorem object_other {l : Line} (h : l.kind ≠ k) (o : Obj) : l.object e k p o = none := by
  unfold Line.object
  split
  · simp [h]
  · rfl

/-- A line, for both parts. -/
theorem readLine_step {c c' : Conf} {l : Line} (h : readLine e c l = .ok c') (p : Phase) :
    Step (c.capture p) (c'.capture p) (l.clears .capture p) (l.captures e p) (l.list .capture p) ∧
      Step (c.archive p) (c'.archive p) (l.clears .archive p) (l.archives e p)
        (l.list .archive p) := by
  obtain ⟨kind, args⟩ := l
  cases kind with
  | capture =>
    have hother : (Line.mk .capture args).kind ≠ .archive := nofun
    obtain ⟨x, hx, rfl⟩ := map_eq_ok h
    refine ⟨capture_step hx p, ?_⟩
    have harchives : Line.archives e ⟨.capture, args⟩ p = fun _ => none := by
      funext o
      rw [Line.archives, object_other hother]
      rfl
    rw [clears_other hother, harchives, list_other hother]
    exact Step.refl _
  | archive =>
    have hother : (Line.mk .archive args).kind ≠ .capture := nofun
    obtain ⟨x, hx, rfl⟩ := map_eq_ok h
    refine ⟨?_, archive_step hx p⟩
    have hcaptures : Line.captures e ⟨.archive, args⟩ p = fun _ => none := by
      funext o
      rw [Line.captures, object_other hother]
      rfl
    rw [clears_other hother, hcaptures, list_other hother]
    exact Step.refl _

end

section

variable {e : Parsers}

theorem findSome?_or {β γ : Type} (f : β → Option γ) (a : β) (l : List β) :
    (a :: l).findSome? f = (f a).or (l.findSome? f) := by
  rw [List.findSome?_cons]
  cases f a <;> rfl

/-- **The lines of a level.** -/
theorem readLevel_step {level : List Line} {c c' : Conf} (h : readLevel e level c = .ok c') (p : Phase) :
    Step (c.capture p) (c'.capture p) (level.any fun l => l.clears .capture p)
        (fun o => level.findSome? fun l => l.captures e p o)
        (fun m axis => level.findSome? fun l => l.list .capture p m axis) ∧
      Step (c.archive p) (c'.archive p) (level.any fun l => l.clears .archive p)
        (fun o => level.findSome? fun l => l.archives e p o)
        (fun m axis => level.findSome? fun l => l.list .archive p m axis) := by
  induction level generalizing c with
  | nil =>
    cases h
    exact ⟨Step.refl _, Step.refl _⟩
  | cons l level ih =>
    obtain ⟨c₁, hc₁, h⟩ := bind_eq_ok h
    obtain ⟨hcapture, harchive⟩ := readLine_step hc₁ p
    obtain ⟨hcapture', harchive'⟩ := ih h
    simp only [List.any_cons, findSome?_or]
    exact ⟨hcapture.trans hcapture', harchive.trans harchive'⟩

theorem reads_nil {α : Type} (t : α) :
    Reads (⟨none, fun _ => false, false, fun _ => t, fun _ _ => none⟩ : Part α) false (fun _ => none)
      fun _ _ => none := by
  constructor <;> simp [Part.on]

/-- What a level leaves. -/
theorem readLevel_reads {level : List Line} {conf : Conf} (h : readLevel e level createLocConf = .ok conf)
    (p : Phase) :
    Reads (conf.capture p) (level.any fun l => l.clears .capture p)
        (fun o => level.findSome? fun l => l.captures e p o)
        (fun m axis => level.findSome? fun l => l.list .capture p m axis) ∧
      Reads (conf.archive p) (level.any fun l => l.clears .archive p)
        (fun o => level.findSome? fun l => l.archives e p o)
        (fun m axis => level.findSome? fun l => l.list .archive p m axis) := by
  obtain ⟨hcapture, harchive⟩ := readLevel_step h p
  have hcapture := hcapture _ _ _ (reads_nil none)
  have harchive := harchive _ _ _ (reads_nil unsetTerms)
  simp only [Bool.false_or, Option.none_or] at hcapture harchive
  exact ⟨hcapture, harchive⟩

end

/-! ### A level in its parent's result -/

/-- What a merge makes of a part, with the default `d`, and `fill` for unset terms. -/
structure Merges {α : Type} (fill : α → α) (unset : α) (d : Obj → Bool) (sh psh r : Part α) : Prop where
  mask : r.mask.isSome = true
  named : ∀ o, sh.set o = true → r.on o = sh.on o ∧ r.terms o = fill (sh.terms o)
  cleared : sh.cleared = true → ∀ o, sh.set o = false → r.on o = false
  default : sh.cleared = false → psh.mask = none → ∀ o, sh.set o = false →
    r.on o = d o ∧ r.terms o = fill unset
  inherited : sh.cleared = false → psh.mask.isSome = true → ∀ o, sh.set o = false →
    r.on o = psh.on o ∧ (r.on o = true → r.terms o = psh.terms o)
  lists : ∀ m axis, r.lists m axis =
    if sh.cleared then sh.lists m axis else (sh.lists m axis).or (psh.lists m axis)

section

theorem untouched_iff {α : Type} {sh : Part α} :
    sh.untouched = true ↔ sh.mask = none ∧ sh.cleared = false ∧ ∀ o, sh.set o = false := by
  have hall : (objs.all fun o => !sh.set o) = true ↔ ∀ o, sh.set o = false := by
    rw [List.all_eq_true]
    exact ⟨fun h o => by simpa using h o (mem_objs o), fun h o _ => by simp [h o]⟩
  rw [Part.untouched, Bool.and_eq_true, Bool.and_eq_true, hall]
  simp [and_assoc]

theorem mergeLists_eq (lists plists : MetaObj → Axis → Option (List Bytes)) (m : MetaObj) (axis : Axis) :
    mergeLists lists plists m axis = (lists m axis).or (plists m axis) := by
  rw [mergeLists]
  cases lists m axis <;> rfl

theorem mergeCapture_merges (d : Obj → Bool) (sh psh : Part (Option ℕ)) :
    Merges (fun t => some (t.getD 0)) none d sh psh (mergeCapture d sh psh) := by
  by_cases hu : sh.untouched = true
  · obtain ⟨-, hc, hset⟩ := untouched_iff.mp hu
    cases hp : psh.mask <;> constructor <;>
      simp [mergeCapture, hu, hc, hp, hset, Part.on, mergeLists_eq]
  · cases hc : sh.cleared with
    | true =>
      constructor <;> simp +contextual [mergeCapture, hu, hc, Part.on, captureObject]
    | false =>
      cases hp : psh.mask with
      | none =>
        constructor <;> simp +contextual [mergeCapture, hu, hc, hp, Part.on, captureObject, mergeLists_eq]
      | some m =>
        constructor <;> simp +contextual [mergeCapture, hu, hc, hp, Part.on, captureObject, mergeLists_eq]
        intro o ho
        cases m o <;> simp

theorem mergeArchive_merges (sh psh : Part Terms) :
    Merges Terms.fill unsetTerms (fun _ => false) sh psh (mergeArchive sh psh) := by
  by_cases hu : sh.untouched = true
  · obtain ⟨-, hc, hset⟩ := untouched_iff.mp hu
    cases hp : psh.mask <;> constructor <;>
      simp [mergeArchive, hu, hc, hp, hset, Part.on, mergeLists_eq]
  · cases hc : sh.cleared with
    | true =>
      constructor <;> simp +contextual [mergeArchive, hu, hc, Part.on, archiveObject]
    | false =>
      cases hp : psh.mask <;> constructor <;>
        simp +contextual [mergeArchive, hu, hc, hp, Part.on, archiveObject, mergeLists_eq]

end

/-- What a part hands down: `none` is an object that still has the default `d`. -/
def Hands {α : Type} (fill : α → α) (unset : α) (d : Obj → Bool) (sh : Part α)
    (i : Obj → Option (Option α)) : Prop :=
  (sh.mask = none → ∀ o, i o = none) ∧
    (sh.mask.isSome = true → ∀ o, sh.on o = ((i o).map Option.isSome).getD (d o) ∧
      (sh.on o = true → sh.terms o = (i o).join.getD (fill unset)))

section

variable {α : Type} {fill : α → α} {unset : α} {d : Obj → Bool} {k : Kind}
  {f : Line → Phase → Obj → Option (Option α)} {sh psh r : Part α} {p : Phase}

/-- What the outermost level hands down: every object is decided when it touches the phase. -/
def outermost (k : Kind) (f : Line → Phase → Obj → Option (Option α)) (outer : List Line) (p : Phase)
    (o : Obj) : Option (Option α) :=
  if objs.any fun o => (levelSays k f outer p o).isSome then some (levelSays k f outer p o).join
  else none

/-- What the levels hand down, the innermost first. -/
def inherited (fill : α → α) (k : Kind) (f : Line → Phase → Obj → Option (Option α))
    (outer : List Line) : List (List Line) → Phase → Obj → Option (Option α)
  | [], p, o => outermost k f outer p o
  | level :: levels, p, o =>
    ((levelSays k f level p o).map (·.map fill)).or (inherited fill k f outer levels p o)

theorem hands_outermost {outer : List Line} {L : MetaObj → Axis → Option (List Bytes)}
    (h : Reads sh (outer.any fun l => l.clears k p) (fun o => outer.findSome? fun l => f l p o) L) :
    Hands fill unset d sh (outermost k f outer p) := by
  have hsays : ∀ o, (levelSays k f outer p o).join = (outer.findSome? fun l => f l p o).join := by
    intro o
    rw [levelSays]
    split_ifs with hc
    · rw [(h.alone hc).1 o]
      rfl
    · rfl
  have hany : sh.mask.isSome = objs.any fun o => (levelSays k f outer p o).isSome := by
    rw [h.mask]
    by_cases hc : (outer.any fun l => l.clears k p) = true
    · simp [levelSays, hc, objs]
    · simp [levelSays, hc]
  refine ⟨fun hmask o => ?_, fun hmask o => ?_⟩
  · rw [outermost, ← hany, hmask]
    rfl
  · rw [outermost, ← hany, hmask, if_pos rfl, hsays, h.on]
    refine ⟨rfl, fun hon => ?_⟩
    obtain ⟨t, ht⟩ := Option.isSome_iff_exists.mp hon
    rw [h.terms o t (Option.join_eq_some_iff.mp ht), ht]
    rfl

theorem hands_merge {level : List Line} {L : MetaObj → Axis → Option (List Bytes)}
    {i : Obj → Option (Option α)}
    (hr : Reads sh (level.any fun l => l.clears k p) (fun o => level.findSome? fun l => f l p o) L)
    (hm : Merges fill unset d sh psh r) (hi : Hands fill unset d psh i) :
    Hands fill unset d r fun o => ((levelSays k f level p o).map (·.map fill)).or (i o) := by
  refine ⟨fun hmask => by simpa [hmask] using hm.mask, fun _ o => ?_⟩
  by_cases hc : (level.any fun l => l.clears k p) = true
  · have hset : sh.set o = false := by rw [hr.set, (hr.alone hc).1 o]; rfl
    have hoff := hm.cleared (hr.cleared.trans hc) o hset
    simp [levelSays, hc, hoff]
  · have hlevel : levelSays k f level p o = level.findSome? fun l => f l p o := if_neg hc
    simp only [hlevel]
    rw [Bool.not_eq_true] at hc
    have hcleared := hr.cleared.trans hc
    cases hs : level.findSome? fun l => f l p o with
    | some v =>
      obtain ⟨hon, hterms⟩ := hm.named o (by rw [hr.set, hs]; rfl)
      rw [hon, hterms, hr.on, hs]
      cases v with
      | none => exact ⟨rfl, nofun⟩
      | some t => exact ⟨rfl, fun _ => by rw [hr.terms o t hs]; rfl⟩
    | none =>
      have hset : sh.set o = false := by rw [hr.set, hs]; rfl
      rw [Option.map_none, Option.none_or]
      cases hp : psh.mask with
      | none =>
        obtain ⟨hon, hterms⟩ := hm.default hcleared hp o hset
        rw [hon, hterms, hi.1 hp o]
        exact ⟨rfl, fun _ => rfl⟩
      | some m =>
        have hsome : psh.mask.isSome = true := by rw [hp]; rfl
        obtain ⟨hon, hterms⟩ := hm.inherited hcleared hsome o hset
        obtain ⟨hon', hterms'⟩ := hi.2 hsome o
        exact ⟨hon.trans hon', fun h => (hterms h).trans (hterms' (hon ▸ h))⟩

theorem inherited_eq (outer : List Line) (levels : List (List Line)) (o : Obj) :
    inherited fill k f outer levels p o =
      ((nearest k f levels p o).map (·.map fill)).or (outermost k f outer p o) := by
  induction levels with
  | nil => rfl
  | cons level levels ih =>
    rw [inherited, ih, nearest, nearest, findSome?_or, ← Option.or_assoc]
    cases levelSays k f level p o <;> rfl

theorem nearest_append (outer : List Line) (levels : List (List Line)) (o : Obj) :
    nearest k f (levels ++ [outer]) p o =
      (nearest k f levels p o).or (levelSays k f outer p o) := by
  rw [nearest, List.findSome?_append, nearest, findSome?_or, List.findSome?_nil, Option.or_none]

/-- **A part below the outermost level, against the nearest one.** -/
theorem right_iff {outer : List Line} {levels : List (List Line)} (hmask : sh.mask.isSome = true)
    (h : Hands fill unset d sh (inherited fill k f outer levels p)) (o : Obj) :
    Right fill unset (d o) (nearest k f (levels ++ [outer]) p o) sh o ↔
      ¬(nearest k f levels p o = none ∧
        ((levelSays k f outer p o = none ∧ d o = true ∧ ∃ o', levelSays k f outer p o' ≠ none) ∨
          ∃ t, levelSays k f outer p o = some (some t) ∧ fill t ≠ t)) := by
  obtain ⟨hon, hterms⟩ := h.2 hmask o
  rw [inherited_eq] at hon hterms
  rw [Right, nearest_append]
  cases hn : nearest k f levels p o with
  | some v =>
    rw [hn] at hon hterms
    rw [hon]
    cases v with
    | none => simp
    | some t =>
      have ht : sh.terms o = fill t := hterms (hon.trans rfl)
      simp [ht]
  | none =>
    rw [hn, Option.map_none, Option.none_or] at hon hterms
    rw [Option.none_or, outermost] at *
    have hany : (objs.any fun o => (levelSays k f outer p o).isSome) = true ↔
        ∃ o', levelSays k f outer p o' ≠ none := by
      rw [List.any_eq_true]
      exact exists_congr fun o' => by simp [mem_objs, Option.isSome_iff_ne_none]
    cases hs : levelSays k f outer p o with
    | some v =>
      rw [if_pos (hany.mpr ⟨o, by simp [hs]⟩), hs] at hon hterms
      rw [hon]
      cases v with
      | none => simp
      | some t =>
        have ht : sh.terms o = t := hterms (hon.trans rfl)
        have hright : fill t = t ↔ t = fill t := eq_comm
        simp [ht, hright]
    | none =>
      by_cases htouch : ∃ o', levelSays k f outer p o' ≠ none
      · rw [if_pos (hany.mpr htouch), hs] at hon
        rw [hon]
        cases hd : d o <;> simp [htouch]
      · rw [if_neg (mt hany.mp htouch)] at hon hterms
        refine ⟨fun _ hand => ?_, fun _ => ⟨hon, hterms⟩⟩
        rcases hand.2 with ⟨-, -, hex⟩ | ⟨t, ht, -⟩
        · exact htouch hex
        · cases ht

end

/-! ### Every level -/

/-- Unset limits become the whole object. -/
def fillLimit (t : Option ℕ) : Option ℕ := some (t.getD 0)

section

variable {e : Parsers} {outer : List Line} {levels : List (List Line)} {conf : Conf}

theorem listAt_cons (k : Kind) (level : List Line) (levels : List (List Line)) (p : Phase) (m : MetaObj)
    (axis : Axis) : listAt k (level :: levels) p m axis =
      if level.any fun l => l.clears k p then none
      else (level.findSome? fun l => l.list k p m axis).or (listAt k levels p m axis) := by
  rw [listAt, findSome?_or, levelList, listAt]
  split_ifs
  · rfl
  · cases level.findSome? fun l => l.list k p m axis <;> rfl

/-- The lists of a level that was read, in front of those of its parent. -/
theorem reads_lists {α : Type} {k : Kind} {sh : Part α} {level : List Line} {p : Phase}
    {S : Obj → Option (Option α)}
    (h : Reads sh (level.any fun l => l.clears k p) S
      fun m axis => level.findSome? fun l => l.list k p m axis) (m : MetaObj) (axis : Axis) :
    (sh.cleared = true → sh.lists m axis = none) ∧
      (level.any fun l => l.clears k p) = sh.cleared ∧
      (level.findSome? fun l => l.list k p m axis) = sh.lists m axis := by
  refine ⟨fun hc => ?_, h.cleared.symm, (h.lists m axis).symm⟩
  rw [h.lists]
  exact (h.alone (h.cleared ▸ hc)).2 m axis

theorem merges_lists {α : Type} {fill : α → α} {unset : α} {d : Obj → Bool} {k : Kind}
    {sh psh r : Part α} {level : List Line} {p : Phase} {S : Obj → Option (Option α)}
    (h : Reads sh (level.any fun l => l.clears k p) S
      fun m axis => level.findSome? fun l => l.list k p m axis)
    (hm : Merges fill unset d sh psh r) {m : MetaObj} {axis : Axis}
    (hp : psh.lists m axis = listAt k levels p m axis) :
    r.lists m axis = listAt k (level :: levels) p m axis := by
  obtain ⟨hnone, hclears, hlist⟩ := reads_lists h m axis
  rw [hm.lists, listAt_cons, hclears, hlist, hp]
  split_ifs with hc
  · exact hnone hc
  · rfl

/-- What a chain of levels hands down. -/
theorem merged_hands (h : merged e outer levels = .ok conf) (p : Phase) :
    (Hands fillLimit none (captureDefault p) (conf.capture p)
        (inherited fillLimit .capture (Line.captures e) outer levels p) ∧
      (levels ≠ [] → (conf.capture p).mask.isSome = true) ∧
      ∀ m axis, (conf.capture p).lists m axis = listAt .capture (levels ++ [outer]) p m axis) ∧
    Hands Terms.fill unsetTerms (fun _ => false) (conf.archive p)
        (inherited Terms.fill .archive (Line.archives e) outer levels p) ∧
      (levels ≠ [] → (conf.archive p).mask.isSome = true) ∧
      ∀ m axis, (conf.archive p).lists m axis = listAt .archive (levels ++ [outer]) p m axis := by
  induction levels generalizing conf with
  | nil =>
    obtain ⟨hcapture, harchive⟩ := readLevel_reads h p
    refine ⟨⟨hands_outermost hcapture, absurd rfl, fun m axis => ?_⟩, hands_outermost harchive,
      absurd rfl, fun m axis => ?_⟩
    · obtain ⟨hnone, hclears, hlist⟩ := reads_lists hcapture m axis
      rw [List.nil_append, listAt_cons, hclears, hlist]
      split_ifs with hc
      · exact hnone hc
      · exact Option.or_none.symm
    · obtain ⟨hnone, hclears, hlist⟩ := reads_lists harchive m axis
      rw [List.nil_append, listAt_cons, hclears, hlist]
      split_ifs with hc
      · exact hnone hc
      · exact Option.or_none.symm
  | cons level levels ih =>
    rw [merged] at h
    split at h
    · cases h
    · next prev hprev =>
      split at h
      · cases h
      · next here hhere =>
        cases h
        obtain ⟨⟨hc, -, hcl⟩, ha, -, hal⟩ := ih hprev
        obtain ⟨hcapture, harchive⟩ := readLevel_reads hhere p
        have hmc := mergeCapture_merges (captureDefault p) (here.capture p) (prev.capture p)
        have hma := mergeArchive_merges (here.archive p) (prev.archive p)
        exact ⟨⟨hands_merge hcapture hmc hc, fun _ => hmc.mask,
            fun m axis => merges_lists hcapture hmc (hcl m axis)⟩,
          hands_merge harchive hma ha, fun _ => hma.mask,
          fun m axis => merges_lists harchive hma (hal m axis)⟩

/-- No level decides on an object that is captured by default, but the outermost one names another. -/
def CaptureLost (e : Parsers) (outer : List Line) (levels : List (List Line)) (p : Phase) (o : Obj) :
    Prop :=
  captureDefault p o = true ∧
    nearest .capture (Line.captures e) (levels ++ [outer]) p o = none ∧
    ∃ o', levelSays .capture (Line.captures e) outer p o' ≠ none

/-- The outermost level turns the object on, without `when=` or without `ttl=`, and no other decides. -/
def ArchiveUnset (e : Parsers) (outer : List Line) (levels : List (List Line)) (p : Phase) (o : Obj) :
    Prop :=
  nearest .archive (Line.archives e) levels p o = none ∧
    ∃ t, levelSays .archive (Line.archives e) outer p o = some (some t) ∧ (t.when = none ∨ t.ttl = none)

/-- A line that turns an object on gives it a limit. -/
theorem captures_limit {l : Line} {p : Phase} {o : Obj} {t : Option ℕ}
    (h : l.captures e p o = some (some t)) : fillLimit t = t := by
  obtain ⟨s, -, hs⟩ := Option.map_eq_some_iff.mp h
  obtain ⟨limit, -, rfl⟩ := Option.map_eq_some_iff.mp hs
  rfl

theorem archives_limit {l : Line} {p : Phase} {o : Obj} {t : Terms}
    (h : l.archives e p o = some (some t)) : ∃ limit, t.limit = some limit := by
  obtain ⟨s, -, hs⟩ := Option.map_eq_some_iff.mp h
  obtain ⟨limit, -, rfl⟩ := Option.map_eq_some_iff.mp hs
  exact ⟨limit, rfl⟩

theorem levelSays_some {α : Type} {k : Kind} {f : Line → Phase → Obj → Option (Option α)}
    {level : List Line} {p : Phase} {o : Obj} {t : α} (h : levelSays k f level p o = some (some t)) :
    ∃ l ∈ level, f l p o = some (some t) := by
  rw [levelSays] at h
  split_ifs at h
  · cases h
  · exact List.exists_of_findSome?_eq_some h

theorem fill_ne_iff {t : Terms} (h : ∃ limit, t.limit = some limit) :
    t.fill ≠ t ↔ t.when = none ∨ t.ttl = none := by
  obtain ⟨when, ttl, limit⟩ := t
  obtain ⟨n, rfl⟩ := h
  cases when <;> cases ttl <;> simp [Terms.fill]

/-- **Captured and archived objects are inherited from the nearest level, except from an outermost level
that leaves out others or terms.** -/
theorem shoot_inherited_iff (hlevels : levels ≠ []) (h : merged e outer levels = .ok conf) (p : Phase) :
    (∀ o, Right fillLimit none (captureDefault p o)
        (nearest .capture (Line.captures e) (levels ++ [outer]) p o) (conf.capture p) o ↔
      ¬CaptureLost e outer levels p o) ∧
    (∀ o, Right Terms.fill unsetTerms false
        (nearest .archive (Line.archives e) (levels ++ [outer]) p o) (conf.archive p) o ↔
      ¬ArchiveUnset e outer levels p o) ∧
    ∀ m axis, (conf.capture p).lists m axis = listAt .capture (levels ++ [outer]) p m axis ∧
      (conf.archive p).lists m axis = listAt .archive (levels ++ [outer]) p m axis := by
  obtain ⟨⟨hc, hcm, hcl⟩, ha, ham, hal⟩ := merged_hands h p
  refine ⟨fun o => ?_, fun o => ?_, fun m axis => ⟨hcl m axis, hal m axis⟩⟩
  · rw [right_iff (hcm hlevels) hc o, CaptureLost, not_iff_not, nearest_append,
      Option.or_eq_none_iff]
    constructor
    · rintro ⟨hn, ⟨hs, hd, hex⟩ | ⟨t, ht, hfill⟩⟩
      · exact ⟨hd, ⟨hn, hs⟩, hex⟩
      · obtain ⟨l, -, hl⟩ := levelSays_some ht
        exact absurd (captures_limit hl) hfill
    · rintro ⟨hd, ⟨hn, hs⟩, hex⟩
      exact ⟨hn, .inl ⟨hs, hd, hex⟩⟩
  · rw [right_iff (d := fun _ => false) (ham hlevels) ha o, ArchiveUnset, not_iff_not]
    refine and_congr_right fun _ => ?_
    constructor
    · rintro (⟨-, hd, -⟩ | ⟨t, ht, hfill⟩)
      · cases hd
      · obtain ⟨l, -, hl⟩ := levelSays_some ht
        exact ⟨t, ht, (fill_ne_iff (archives_limit hl)).mp hfill⟩
    · rintro ⟨t, ht, hunset⟩
      obtain ⟨l, -, hl⟩ := levelSays_some ht
      exact .inr ⟨t, ht, (fill_ne_iff (archives_limit hl)).mpr hunset⟩

/-- The size and the time of the examples. -/
def sampleParsers : Parsers where
  seconds _ := none
  size value := if value = ascii "64k" then some 65536 else none

def sampleBody : List Line := [⟨.capture, [ascii "waf_capture", ascii "request", ascii "body=64k"]⟩]

def sampleArchive : List Line := [⟨.archive, [ascii "waf_archive", ascii "request", ascii "headers"]⟩]

/-- The body of the outermost level is captured below it. -/
theorem shoot_inherited_body : ∃ conf, merged sampleParsers sampleBody [[]] = .ok conf ∧
    Right fillLimit none (captureDefault .request .body)
      (nearest .capture (Line.captures sampleParsers) ([[]] ++ [sampleBody]) .request .body)
      (conf.capture .request) .body := by
  refine ⟨_, rfl, ((shoot_inherited_iff (by decide) rfl .request).1 .body).mpr ?_⟩
  rintro ⟨hd, -⟩
  cases hd

/-- Below an outermost level that captures the body the headers are not captured, which they are by
default; and what it archives has no time there. -/
theorem outermost_not_inherited :
    (∃ conf, merged sampleParsers sampleBody [[]] = .ok conf ∧
      nearest .capture (Line.captures sampleParsers) ([[]] ++ [sampleBody]) .request .headers = none ∧
      captureDefault .request .headers = true ∧ (conf.capture .request).on .headers = false) ∧
    ∃ conf, merged sampleParsers sampleArchive [[]] = .ok conf ∧
      nearest .archive (Line.archives sampleParsers) ([[]] ++ [sampleArchive]) .request .headers =
        some (some ⟨none, none, some 0⟩) ∧
      (conf.archive .request).on .headers = true ∧
      ((conf.archive .request).terms .headers).ttl = none := by
  refine ⟨⟨_, rfl, ?_, rfl, rfl⟩, ⟨_, rfl, ?_, rfl, rfl⟩⟩
  · decide +kernel
  · decide +kernel

end

end Capture
