import PlacitumNode.Lib.Octets
import PlacitumNode.Lib.Trim

/-!
# The configuration file of the agent (`agent/internal/conf/parse.go`)

The file is read line by line.  A line opens a block, closes it, holds a block with one setting, or is
a setting of the open block.

* `trimSpace`, `fields`, `atoi`: what is used of the standard library; `Std` holds `time.ParseDuration`
  and `url.Parse`, about which nothing is assumed;
* `stripComment`, `splitKey`, `parsePositive`, `parseBatch`, `setRedis`;
* `apply`, `feed`, `parse`.

A configuration that was refused is dropped by the caller, so a refusal keeps only its error.  A map
that is not made yet reads as an empty one.
-/

namespace AgentConf

open Octets

/-! ### The standard library -/

/-- The encodings of the characters of `unicode.IsSpace`. -/
def spaces : List Bytes :=
  [[9], [10], [11], [12], [13], [32], [0xc2, 0x85], [0xc2, 0xa0], [0xe1, 0x9a, 0x80],
    [0xe2, 0x80, 0x80], [0xe2, 0x80, 0x81], [0xe2, 0x80, 0x82], [0xe2, 0x80, 0x83],
    [0xe2, 0x80, 0x84], [0xe2, 0x80, 0x85], [0xe2, 0x80, 0x86], [0xe2, 0x80, 0x87],
    [0xe2, 0x80, 0x88], [0xe2, 0x80, 0x89], [0xe2, 0x80, 0x8a], [0xe2, 0x80, 0xa8],
    [0xe2, 0x80, 0xa9], [0xe2, 0x80, 0xaf], [0xe2, 0x81, 0x9f], [0xe3, 0x80, 0x80]]

/-- `strings.TrimSpace` -/
def trimSpace (s : Bytes) : Bytes := Trim.both spaces s

/-- `strings.TrimSuffix` for a suffix of one byte -/
def trimSuffix (s : Bytes) (c : UInt8) : Bytes := if s.getLast? = some c then s.dropLast else s

/-- `unicode.IsSpace(rune(b))` -/
def isSpace (b : UInt8) : Bool := b ∈ [9, 10, 11, 12, 13, 32, 0x85, 0xa0]

/-- The text before the next blank. -/
def field : Bytes → Bytes
  | [] => []
  | b :: s => if spaces.any (·.isPrefixOf (b :: s)) then [] else b :: field s

def fieldsFrom : ℕ → Bytes → List Bytes
  | 0, _ => []
  | n + 1, s =>
    let s := Trim.left spaces s
    if s = [] then [] else field s :: fieldsFrom n (s.drop (field s).length)

/-- `strings.Fields` -/
def fields (s : Bytes) : List Bytes := fieldsFrom s.length s

def digitsFrom : ℕ → Bytes → Option ℕ
  | v, [] => some v
  | v, c :: cs => if 48 ≤ c ∧ c ≤ 57 then digitsFrom (v * 10 + (c.toNat - 48)) cs else none

def digits (s : Bytes) : Option ℕ := if s = [] then none else digitsFrom 0 s

/-- `strconv.Atoi`; `none` is its error. -/
def atoi (s : Bytes) : Option ℤ :=
  match s with
  | 45 :: s => (digits s).bind fun v => if v ≤ 2 ^ 63 then some (-v) else none
  | 43 :: s => (digits s).bind fun v => if v < 2 ^ 63 then some v else none
  | s => (digits s).bind fun v => if v < 2 ^ 63 then some v else none

/-- What is used of `url.URL`; `user` is the name and the password. -/
structure Url where
  scheme : Bytes
  host : Bytes
  path : Bytes
  user : Option (Bytes × Bytes)

structure Std where
  parseDuration : Bytes → Option ℤ
  urlParse : Bytes → Option Url

/-! ### The configuration -/

structure RedisConfig where
  addr : Bytes
  user : Bytes
  password : Bytes
  db : ℤ
  nodes : List Bytes

structure S3Config where
  endpoint : Bytes
  region : Bytes
  credentials : Bytes

structure BatchPolicy where
  size : ℤ
  timeout : ℤ

/-- `retain.Config` -/
structure Retain where
  redis : RedisConfig
  s3 : S3Config
  bucket : Bytes → Option Bytes
  workers : ℤ
  queue : ℤ
  opTimeout : ℤ
  batch : Bytes → Option BatchPolicy

structure Config where
  nodeID : Bytes
  nodeKey : Bytes
  dataDir : Bytes
  heartbeat : ℤ
  verdictSock : Bytes
  logSock : Bytes
  nats : Bytes
  redisURL : Bytes
  redisInternalURL : Bytes
  redisNodes : List Bytes
  nginxBin : Bytes
  confDir : Bytes
  storeDir : Bytes
  nginxManage : Bool
  retain : Retain

/-- The configuration that `Load` hands to `parse`; durations are in nanoseconds. -/
def defaults : Config where
  nodeID := []
  nodeKey := []
  dataDir := ascii "/var/lib/waf/agent"
  heartbeat := 4 * 10 ^ 9
  verdictSock := ascii "/var/run/waf/verdict.sock"
  logSock := ascii "/var/run/waf/log.sock"
  nats := ascii "nats://127.0.0.1:4222"
  redisURL := []
  redisInternalURL := []
  redisNodes := []
  nginxBin := ascii "nginx"
  confDir := ascii "/etc/nginx"
  storeDir := ascii "/var/lib/waf/store"
  nginxManage := true
  retain :=
    { redis := ⟨[], [], [], 0, []⟩
      s3 := ⟨[], [], []⟩
      bucket := fun _ => none
      workers := 0
      queue := 0
      opTimeout := 0
      batch := fun _ => none }

/-- The errors of `ParseBatch`. -/
inductive BatchFault
  | keyValue (field : Bytes)
  | size (value : Bytes)
  | timeout (value : Bytes)
  | unknownOption (name : Bytes)

/-- The errors, each with what its text quotes. -/
inductive Fault
  | unexpectedClose
  | unnamedBlock
  | nestedBlock
  | unknownBlock (name : Bytes)
  | ownLines (name : Bytes)
  | outsideBlock (word : Bytes)
  | emptyKey
  | missingValue (key : Bytes)
  | unknownKey (key : Bytes)
  | internalBlock (block : Bytes)
  | heartbeat (value : Bytes)
  | redisURL
  | redisScheme (scheme : Bytes)
  | redisDatabase (db : Bytes)
  | bucketKind (kind : Bytes)
  | bucketName (kind : Bytes)
  | workers (value : Bytes)
  | queue (value : Bytes)
  | timeout (value : Bytes)
  | batchKind (kind : Bytes)
  | batch (kind : Bytes) (fault : BatchFault)
  | manage (value : Bytes)
  | unclosed (block : Bytes)

/-! ### Pieces of a line -/

/-- The text before the first `#` outside quotes. -/
def cutComment : Bool → Bytes → Bytes
  | _, [] => []
  | inQuote, b :: s =>
    if b = 34 then b :: cutComment (!inQuote) s
    else if b = 35 ∧ inQuote = false then []
    else b :: cutComment inQuote s

def stripComment (s : Bytes) : Bytes := trimSpace (cutComment false s)

def splitKey (s : Bytes) : Bytes × Bytes :=
  let s := trimSpace s
  (s.takeWhile (!isSpace ·), trimSpace (s.dropWhile (!isSpace ·)))

def firstWord (s : Bytes) : Bytes := (splitKey s).1

/-- The error is the one of `Atoi`, so it is `nil` where the number is not positive. -/
def parsePositive (s : Bytes) : Option ℤ :=
  match atoi (trimSpace s) with
  | none => none
  | some n => if n ≤ 0 then some 0 else some n

def knownKind (kind : Bytes) : Bool := kind ∈ [ascii "headers", ascii "args", ascii "body"]

/-- One option of a batch policy. -/
def batchOption (std : Std) (out : BatchPolicy) (field : Bytes) : Except BatchFault BatchPolicy :=
  if 61 ∈ field then
    let name := field.takeWhile (· ≠ 61)
    let value := (field.dropWhile (· ≠ 61)).drop 1
    if name = ascii "size" then
      match atoi value with
      | none => .error (.size value)
      | some n => if n < 0 then .error (.size value) else .ok { out with size := n }
    else if name = ascii "timeout" then
      match std.parseDuration value with
      | none => .error (.timeout value)
      | some d => if d < 0 then .error (.timeout value) else .ok { out with timeout := d }
    else .error (.unknownOption name)
  else .error (.keyValue field)

/-- `ParseBatch` -/
def parseBatch (std : Std) (s : Bytes) : Except BatchFault BatchPolicy :=
  let s := trimSpace s
  if s = [] ∨ s = ascii "off" then .ok ⟨0, 0⟩
  else (fields (s.map fun b => if b = 44 then 32 else b)).foldlM (batchOption std) ⟨0, 0⟩

/-- `strings.Trim(s, "/")` -/
def trimSlash (s : Bytes) : Bytes := (s.dropWhile (· = 47)).rdropWhile (· = 47)

/-- `SetRedis` -/
def setRedis (std : Std) (r : RedisConfig) (value : Bytes) : Except Fault RedisConfig :=
  if value = [] then .ok r
  else if ¬ascii "://" <:+: value then .ok { r with addr := value }
  else
    match std.urlParse value with
    | none => .error .redisURL
    | some u =>
      if u.scheme ≠ ascii "redis" then .error (.redisScheme u.scheme)
      else
        let r := { r with addr := u.host }
        let r := match u.user with
          | none => r
          | some (name, password) => { r with user := name, password := password }
        let db := trimSlash u.path
        if db = [] then .ok r
        else
          match atoi db with
          | none => .error (.redisDatabase db)
          | some n => .ok { r with db := n }

/-! ### Settings -/

/-- A duration that has to be positive. -/
def positiveDuration (std : Std) (s : Bytes) : Option ℤ :=
  (std.parseDuration s).bind fun d => if d ≤ 0 then none else some d

def applyNode (std : Std) (c : Config) (key rest : Bytes) : Except Fault Config :=
  if key = ascii "id" then .ok { c with nodeID := rest }
  else if key = ascii "key" then .ok { c with nodeKey := rest }
  else if key = ascii "data" then .ok { c with dataDir := rest }
  else if key = ascii "heartbeat" then
    match positiveDuration std rest with
    | none => .error (.heartbeat rest)
    | some d => .ok { c with heartbeat := d }
  else if key = ascii "verdict_sock" then .ok { c with verdictSock := rest }
  else if key = ascii "log_sock" then
    if rest = ascii "off" then .ok { c with logSock := [] } else .ok { c with logSock := rest }
  else .error (.unknownKey key)

def applyNats (c : Config) (key rest : Bytes) : Except Fault Config :=
  if key ≠ ascii "url" then .error (.unknownKey key) else .ok { c with nats := rest }

def applyRedis (std : Std) (c : Config) (key rest : Bytes) : Except Fault Config :=
  if key = ascii "url" then
    match setRedis std c.retain.redis rest with
    | .error e => .error e
    | .ok r => .ok { c with redisURL := rest, retain := { c.retain with redis := r } }
  else if key = ascii "internal" then .ok { c with redisInternalURL := rest }
  else if key = ascii "nodes" then
    .ok { c with
      redisNodes := fields rest
      retain := { c.retain with redis := { c.retain.redis with nodes := fields rest } } }
  else .error (.unknownKey key)

def applyS3 (c : Config) (key rest : Bytes) : Except Fault Config :=
  if key = ascii "endpoint" then
    .ok { c with retain := { c.retain with s3 := { c.retain.s3 with endpoint := rest } } }
  else if key = ascii "region" then
    .ok { c with retain := { c.retain with s3 := { c.retain.s3 with region := rest } } }
  else if key = ascii "credentials" then
    .ok { c with retain := { c.retain with s3 := { c.retain.s3 with credentials := rest } } }
  else if key = ascii "bucket" then
    let (kind, name) := splitKey rest
    if !knownKind kind then .error (.bucketKind kind)
    else if name = [] then .error (.bucketName kind)
    else
      .ok { c with retain := { c.retain with
        bucket := Function.update c.retain.bucket kind (some name) } }
  else .error (.unknownKey key)

def applyArchive (std : Std) (c : Config) (key rest : Bytes) : Except Fault Config :=
  if key = ascii "workers" then
    match parsePositive rest with
    | none => .error (.workers rest)
    | some n => .ok { c with retain := { c.retain with workers := n } }
  else if key = ascii "queue" then
    match parsePositive rest with
    | none => .error (.queue rest)
    | some n => .ok { c with retain := { c.retain with queue := n } }
  else if key = ascii "timeout" then
    match positiveDuration std rest with
    | none => .error (.timeout rest)
    | some d => .ok { c with retain := { c.retain with opTimeout := d } }
  else if key = ascii "batch" then
    let (kind, spec) := splitKey rest
    if !knownKind kind then .error (.batchKind kind)
    else
      match parseBatch std spec with
      | .error e => .error (.batch kind e)
      | .ok policy =>
        .ok { c with retain := { c.retain with
          batch := Function.update c.retain.batch kind (some policy) } }
  else .error (.unknownKey key)

def applyNginx (c : Config) (key rest : Bytes) : Except Fault Config :=
  if key = ascii "bin" then .ok { c with nginxBin := rest }
  else if key = ascii "conf_dir" then .ok { c with confDir := rest }
  else if key = ascii "store_dir" then .ok { c with storeDir := rest }
  else if key = ascii "manage" then
    if rest ∈ [ascii "on", ascii "true", ascii "yes", ascii "1"] then
      .ok { c with nginxManage := true }
    else if rest ∈ [ascii "off", ascii "false", ascii "no", ascii "0"] then
      .ok { c with nginxManage := false }
    else .error (.manage rest)
  else .error (.unknownKey key)

/-- `parser.apply` in a block -/
def apply (std : Std) (c : Config) (block key rest : Bytes) : Except Fault Config :=
  if rest = [] then .error (.missingValue key)
  else if block = ascii "node" then applyNode std c key rest
  else if block = ascii "nats" then applyNats c key rest
  else if block = ascii "redis" then applyRedis std c key rest
  else if block = ascii "s3" then applyS3 c key rest
  else if block = ascii "archive" then applyArchive std c key rest
  else if block = ascii "nginx" then applyNginx c key rest
  else .error (.internalBlock block)

/-! ### Lines -/

def blocks : List Bytes :=
  [ascii "node", ascii "nats", ascii "redis", ascii "s3", ascii "archive", ascii "nginx"]

/-- `parser`; outside a block the name is empty. -/
structure Parser where
  cfg : Config
  block : Bytes

/-- `parser.feed` -/
def feed (std : Std) (p : Parser) (raw : Bytes) : Except Fault Parser :=
  let line := stripComment raw
  if line = [] then .ok p
  else
    let line := trimSpace (trimSuffix line 59)
    if line = [125] then
      if p.block = [] then .error .unexpectedClose else .ok { p with block := [] }
    else if 123 ∈ line then
      let name := trimSpace (line.takeWhile (· ≠ 123))
      let rest := trimSpace ((line.dropWhile (· ≠ 123)).drop 1)
      if name = [] then .error .unnamedBlock
      else if p.block ≠ [] then .error .nestedBlock
      else if name ∉ blocks then .error (.unknownBlock name)
      else if rest.getLast? = some 125 then
        let inner := trimSpace (trimSuffix rest 125)
        if inner = [] then .ok p
        else
          match apply std p.cfg name (splitKey inner).1 (splitKey inner).2 with
          | .error e => .error e
          | .ok cfg => .ok ⟨cfg, []⟩
      else if rest ≠ [] then .error (.ownLines name)
      else .ok { p with block := name }
    else if p.block = [] then .error (.outsideBlock (firstWord line))
    else if (splitKey line).1 = [] then .error .emptyKey
    else
      match apply std p.cfg p.block (splitKey line).1 (splitKey line).2 with
      | .error e => .error e
      | .ok cfg => .ok { p with cfg := cfg }

/-- The error of `parse`, written as the path, the line and the fault. -/
structure Refusal where
  path : Bytes
  line : ℕ
  fault : Fault

/-- The loop of `parse` behind the given number of lines. -/
def feedLines (std : Std) (path : Bytes) : ℕ → Parser → List Bytes → Except Refusal Parser
  | _, p, [] => .ok p
  | n, p, raw :: lines =>
    match feed std p raw with
    | .error e => .error ⟨path, n + 1, e⟩
    | .ok p => feedLines std path (n + 1) p lines

def parse (std : Std) (c : Config) (text path : Bytes) : Except Refusal Config :=
  let lines := text.splitOn 10
  match feedLines std path 0 ⟨c, []⟩ lines with
  | .error e => .error e
  | .ok p => if p.block = [] then .ok p.cfg else .error ⟨path, lines.length, .unclosed p.block⟩

/-! ### What is read, apart from what is done with it -/

structure Setting where
  block : Bytes
  key : Bytes
  value : Bytes
  deriving DecidableEq

/-- The setting of a line, where it has one, and the block that is open behind the line. -/
def readLine (block raw : Bytes) : Except Fault (Option Setting × Bytes) :=
  let line := stripComment raw
  if line = [] then .ok (none, block)
  else
    let line := trimSpace (trimSuffix line 59)
    if line = [125] then
      if block = [] then .error .unexpectedClose else .ok (none, [])
    else if 123 ∈ line then
      let name := trimSpace (line.takeWhile (· ≠ 123))
      let rest := trimSpace ((line.dropWhile (· ≠ 123)).drop 1)
      if name = [] then .error .unnamedBlock
      else if block ≠ [] then .error .nestedBlock
      else if name ∉ blocks then .error (.unknownBlock name)
      else if rest.getLast? = some 125 then
        let inner := trimSpace (trimSuffix rest 125)
        if inner = [] then .ok (none, block)
        else .ok (some ⟨name, (splitKey inner).1, (splitKey inner).2⟩, [])
      else if rest ≠ [] then .error (.ownLines name)
      else .ok (none, name)
    else if block = [] then .error (.outsideBlock (firstWord line))
    else if (splitKey line).1 = [] then .error .emptyKey
    else .ok (some ⟨block, (splitKey line).1, (splitKey line).2⟩, block)

/-- The setting is one of the key in the block. -/
def Setting.At (s : Setting) (block key : Bytes) : Prop := s.block = block ∧ s.key = key

instance (s : Setting) (block key : Bytes) : Decidable (s.At block key) :=
  inferInstanceAs (Decidable (_ ∧ _))

/-- A setting, or none, carried out. -/
def carryOut (std : Std) (c : Config) : Option Setting → Except Fault Config
  | none => .ok c
  | some s => apply std c s.block s.key s.value

/-- The settings of lines and the block that is open behind them, unless a line is faulty. -/
def readLines : Bytes → List Bytes → Option (List Setting × Bytes)
  | block, [] => some ([], block)
  | block, raw :: lines =>
    match readLine block raw with
    | .error _ => none
    | .ok (s, next) => (readLines next lines).map fun r => (s.toList ++ r.1, r.2)

/-- The settings of a file, unless a line is faulty or a block is not closed. -/
def readText (text : Bytes) : Option (List Setting) :=
  match readLines [] (text.splitOn 10) with
  | some (ss, []) => some ss
  | _ => none

/-- The settings carried out one after the other, unless one fails. -/
def applyAll (std : Std) : Config → List Setting → Option Config
  | c, [] => some c
  | c, s :: ss =>
    match apply std c s.block s.key s.value with
    | .error _ => none
    | .ok c => applyAll std c ss

/-- What `feed` makes of a line that was read. -/
def act (std : Std) (p : Parser) : Except Fault (Option Setting × Bytes) → Except Fault Parser
  | .error e => .error e
  | .ok (s, next) =>
    match carryOut std p.cfg s with
    | .error e => .error e
    | .ok cfg => .ok ⟨cfg, next⟩

/-- A line is read, and its setting is carried out. -/
theorem feed_eq (std : Std) (p : Parser) (raw : Bytes) :
    feed std p raw = act std p (readLine p.block raw) := by
  unfold feed readLine
  dsimp only
  simp only [apply_ite (act std p)]
  simp only [act, carryOut]

theorem applyAll_append (std : Std) (c : Config) (ss ts : List Setting) :
    applyAll std c (ss ++ ts) = (applyAll std c ss).bind fun c => applyAll std c ts := by
  induction ss generalizing c with
  | nil => rfl
  | cons s ss ih =>
    rw [List.cons_append, applyAll, applyAll]
    cases apply std c s.block s.key s.value with
    | error e => rfl
    | ok c => exact ih c

theorem applyAll_toList (std : Std) (c : Config) (s : Option Setting) :
    applyAll std c s.toList = (carryOut std c s).toOption := by
  cases s with
  | none => rfl
  | some s =>
    rw [Option.toList_some, applyAll, carryOut]
    cases apply std c s.block s.key s.value <;> rfl

theorem feedLines_eq (std : Std) (path : Bytes) (n : ℕ) (p : Parser) (lines : List Bytes) :
    (feedLines std path n p lines).toOption =
      (readLines p.block lines).bind fun r => (applyAll std p.cfg r.1).map (⟨·, r.2⟩) := by
  induction lines generalizing n p with
  | nil => rfl
  | cons raw lines ih =>
    rw [feedLines, readLines, feed_eq]
    rcases hread : readLine p.block raw with e | ⟨s, next⟩
    · rfl
    · simp only [Option.bind_map, Function.comp_def, applyAll_append, applyAll_toList]
      rw [act]
      cases carryOut std p.cfg s with
      | error e => simp [Except.toOption]
      | ok cfg => exact ih (n + 1) ⟨cfg, next⟩

/-- **A file is read, and its settings are carried out.** -/
theorem parse_eq (std : Std) (c : Config) (text path : Bytes) :
    (parse std c text path).toOption = (readText text).bind (applyAll std c) := by
  have hlines := feedLines_eq std path 0 ⟨c, []⟩ (text.splitOn 10)
  rw [parse, readText]
  cases hfeed : feedLines std path 0 ⟨c, []⟩ (text.splitOn 10) with
  | error e =>
    rw [hfeed] at hlines
    rcases hread : readLines [] (text.splitOn 10) with _ | ⟨ss, _ | ⟨b, bs⟩⟩
    · rfl
    · rw [hread] at hlines
      have hnone : applyAll std c ss = none := by simpa [Except.toOption] using hlines
      exact hnone.symm
    · rfl
  | ok p =>
    rw [hfeed] at hlines
    rcases hread : readLines [] (text.splitOn 10) with _ | ⟨ss, block⟩
    · rw [hread] at hlines
      cases hlines
    · rw [hread, Option.bind_some] at hlines
      obtain ⟨cfg, hall, rfl⟩ := Option.map_eq_some_iff.1 hlines.symm
      cases block with
      | nil => exact hall.symm
      | cons b bs => rfl

/-! ### Numbers -/

/-- The numbers of a configuration that have to be positive. -/
structure Numbers where
  heartbeat : ℤ
  workers : ℤ
  queue : ℤ
  timeout : ℤ
  deriving DecidableEq

def Config.numbers (c : Config) : Numbers :=
  ⟨c.heartbeat, c.retain.workers, c.retain.queue, c.retain.opTimeout⟩

/-- What a setting makes of the numbers. -/
def numbersStep (std : Std) (n : Numbers) (s : Setting) : Option Numbers :=
  if s.At (ascii "node") (ascii "heartbeat") then
    (positiveDuration std s.value).map fun d => { n with heartbeat := d }
  else if s.At (ascii "archive") (ascii "workers") then
    (parsePositive s.value).map fun v => { n with workers := v }
  else if s.At (ascii "archive") (ascii "queue") then
    (parsePositive s.value).map fun v => { n with queue := v }
  else if s.At (ascii "archive") (ascii "timeout") then
    (positiveDuration std s.value).map fun d => { n with timeout := d }
  else some n

/-- The value of the last setting of a key. -/
def lastValue (block key : Bytes) : List Setting → Option Bytes
  | [] => none
  | s :: ss =>
    (lastValue block key ss).or (if s.At block key then some s.value else none)

section

variable {std : Std} {c c' : Config} {block key rest : Bytes}

theorem applyNode_numbers (h : applyNode std c key rest = .ok c') :
    numbersStep std c.numbers ⟨ascii "node", key, rest⟩ = some c'.numbers := by
  have hne : ascii "node" ≠ ascii "archive" := by decide
  simp only [numbersStep, Setting.At, true_and, hne, false_and, if_false]
  by_cases hkey : key = ascii "heartbeat"
  · subst hkey
    rw [applyNode, if_neg (by decide), if_neg (by decide), if_neg (by decide), if_pos rfl] at h
    rw [if_pos rfl]
    cases hd : positiveDuration std rest with
    | none => rw [hd] at h; cases h
    | some d =>
      rw [hd] at h
      cases h
      rfl
  · rw [if_neg hkey]
    simp only [applyNode, if_neg hkey] at h
    split_ifs at h <;> cases h <;> rfl

theorem applyArchive_numbers (h : applyArchive std c key rest = .ok c') :
    numbersStep std c.numbers ⟨ascii "archive", key, rest⟩ = some c'.numbers := by
  have hne : ascii "archive" ≠ ascii "node" := by decide
  simp only [numbersStep, Setting.At, true_and, hne, false_and, if_false]
  simp only [applyArchive] at h
  split_ifs at h ⊢ with hworkers hqueue htimeout hbatch hkind
  · cases hn : parsePositive rest with
    | none => rw [hn] at h; cases h
    | some n => rw [hn] at h; cases h; rfl
  · cases hn : parsePositive rest with
    | none => rw [hn] at h; cases h
    | some n => rw [hn] at h; cases h; rfl
  · cases hd : positiveDuration std rest with
    | none => rw [hd] at h; cases h
    | some d => rw [hd] at h; cases h; rfl
  · cases hb : parseBatch std (splitKey rest).2 with
    | error e => rw [hb] at h; cases h
    | ok policy => rw [hb] at h; cases h; rfl

/-- The other blocks leave the numbers as they are. -/
theorem numbersStep_other {n : Numbers} {s : Setting} (hnode : s.block ≠ ascii "node")
    (harchive : s.block ≠ ascii "archive") : numbersStep std n s = some n := by
  simp only [numbersStep, Setting.At, hnode, harchive, false_and, if_false]

theorem applyRedis_numbers (h : applyRedis std c key rest = .ok c') : c'.numbers = c.numbers := by
  simp only [applyRedis] at h
  split_ifs at h
  · cases hr : setRedis std c.retain.redis rest with
    | error e => rw [hr] at h; cases h
    | ok r => rw [hr] at h; cases h; rfl
  · cases h; rfl
  · cases h; rfl

theorem applyS3_numbers (h : applyS3 c key rest = .ok c') : c'.numbers = c.numbers := by
  simp only [applyS3] at h
  split_ifs at h <;> cases h <;> rfl

theorem applyNginx_numbers (h : applyNginx c key rest = .ok c') : c'.numbers = c.numbers := by
  unfold applyNginx at h
  split_ifs at h <;> cases h <;> rfl

/-- What a setting that is accepted makes of the numbers. -/
theorem apply_numbers (h : apply std c block key rest = .ok c') :
    numbersStep std c.numbers ⟨block, key, rest⟩ = some c'.numbers := by
  unfold apply at h
  split_ifs at h with hrest hnode hnats hredis hs3 harchive hnginx
  · exact hnode ▸ applyNode_numbers h
  · rw [numbersStep_other hnode (fun hb => absurd (hnats.symm.trans hb) (by decide))]
    simp only [applyNats] at h
    split_ifs at h
    cases h
    rfl
  · rw [numbersStep_other hnode (fun hb => absurd (hredis.symm.trans hb) (by decide)),
      applyRedis_numbers h]
  · rw [numbersStep_other hnode (fun hb => absurd (hs3.symm.trans hb) (by decide)),
      applyS3_numbers h]
  · exact harchive ▸ applyArchive_numbers h
  · rw [numbersStep_other hnode harchive, applyNginx_numbers h]

end

section

variable {std : Std} {block key : Bytes} {f : Numbers → ℤ} {val : Bytes → Option ℤ}

/-- The field takes the value of each setting of the key and of no other setting. -/
def Field (std : Std) (block key : Bytes) (f : Numbers → ℤ) (val : Bytes → Option ℤ) : Prop :=
  ∀ n s n', numbersStep std n s = some n' →
    if s.At block key then val s.value = some (f n') else f n' = f n

/-- What a field is behind settings that are accepted. -/
def Last (val : Bytes → Option ℤ) (old new : ℤ) : Option Bytes → Prop
  | none => new = old
  | some v => val v = some new

/-- **The last setting of a key decides.** -/
theorem applyAll_last (hf : Field std block key f val) {c c' : Config} {ss : List Setting}
    (h : applyAll std c ss = some c') :
    Last val (f c.numbers) (f c'.numbers) (lastValue block key ss) := by
  induction ss generalizing c with
  | nil =>
    cases h
    rfl
  | cons s ss ih =>
    rw [applyAll] at h
    cases happly : apply std c s.block s.key s.value with
    | error e => rw [happly] at h; cases h
    | ok c₁ =>
      rw [happly] at h
      have hrest := ih h
      have hstep := hf _ _ _ (apply_numbers happly)
      rw [lastValue]
      cases hlast : lastValue block key ss with
      | some v => rwa [hlast] at hrest
      | none =>
        rw [hlast] at hrest
        rw [Option.none_or]
        have hsame : f c'.numbers = f c₁.numbers := hrest
        split_ifs at hstep ⊢ with hkey
        · rw [Last, hsame]
          exact hstep
        · rw [Last, hsame]
          exact hstep

theorem names_ne : ascii "node" ≠ ascii "archive" ∧ ascii "workers" ≠ ascii "queue" ∧
    ascii "workers" ≠ ascii "timeout" ∧ ascii "queue" ≠ ascii "timeout" := by decide

theorem numbersStep_cases {n n' : Numbers} {s : Setting} (h : numbersStep std n s = some n') :
    (s.At (ascii "node") (ascii "heartbeat") ∧
      ∃ d, positiveDuration std s.value = some d ∧ n' = { n with heartbeat := d }) ∨
    (s.At (ascii "archive") (ascii "workers") ∧
      ∃ v, parsePositive s.value = some v ∧ n' = { n with workers := v }) ∨
    (s.At (ascii "archive") (ascii "queue") ∧
      ∃ v, parsePositive s.value = some v ∧ n' = { n with queue := v }) ∨
    (s.At (ascii "archive") (ascii "timeout") ∧
      ∃ d, positiveDuration std s.value = some d ∧ n' = { n with timeout := d }) ∨
    (¬s.At (ascii "node") (ascii "heartbeat") ∧ ¬s.At (ascii "archive") (ascii "workers") ∧
      ¬s.At (ascii "archive") (ascii "queue") ∧ ¬s.At (ascii "archive") (ascii "timeout") ∧
      n' = n) := by
  unfold numbersStep at h
  split_ifs at h with hheartbeat hworkers hqueue htimeout
  · obtain ⟨d, hd, rfl⟩ := Option.map_eq_some_iff.1 h
    exact .inl ⟨hheartbeat, d, hd, rfl⟩
  · obtain ⟨v, hv, rfl⟩ := Option.map_eq_some_iff.1 h
    exact .inr (.inl ⟨hworkers, v, hv, rfl⟩)
  · obtain ⟨v, hv, rfl⟩ := Option.map_eq_some_iff.1 h
    exact .inr (.inr (.inl ⟨hqueue, v, hv, rfl⟩))
  · obtain ⟨d, hd, rfl⟩ := Option.map_eq_some_iff.1 h
    exact .inr (.inr (.inr (.inl ⟨htimeout, d, hd, rfl⟩)))
  · cases h
    exact .inr (.inr (.inr (.inr ⟨hheartbeat, hworkers, hqueue, htimeout, rfl⟩)))

theorem field_heartbeat (std : Std) :
    Field std (ascii "node") (ascii "heartbeat") Numbers.heartbeat (positiveDuration std) := by
  intro n s n' h
  obtain ⟨hblock, -⟩ := names_ne
  rcases numbersStep_cases h with ⟨hat, d, hd, rfl⟩ | ⟨hat, d, hd, rfl⟩ | ⟨hat, d, hd, rfl⟩ |
    ⟨hat, d, hd, rfl⟩ | ⟨h₁, h₂, h₃, h₄, rfl⟩ <;>
    grind [Setting.At]

theorem field_workers (std : Std) :
    Field std (ascii "archive") (ascii "workers") Numbers.workers parsePositive := by
  intro n s n' h
  obtain ⟨hblock, hqueue, htimeout, -⟩ := names_ne
  rcases numbersStep_cases h with ⟨hat, d, hd, rfl⟩ | ⟨hat, d, hd, rfl⟩ | ⟨hat, d, hd, rfl⟩ |
    ⟨hat, d, hd, rfl⟩ | ⟨h₁, h₂, h₃, h₄, rfl⟩ <;>
    grind [Setting.At]

theorem field_queue (std : Std) :
    Field std (ascii "archive") (ascii "queue") Numbers.queue parsePositive := by
  intro n s n' h
  obtain ⟨hblock, hworkers, -, htimeout⟩ := names_ne
  rcases numbersStep_cases h with ⟨hat, d, hd, rfl⟩ | ⟨hat, d, hd, rfl⟩ | ⟨hat, d, hd, rfl⟩ |
    ⟨hat, d, hd, rfl⟩ | ⟨h₁, h₂, h₃, h₄, rfl⟩ <;>
    grind [Setting.At]

theorem field_timeout (std : Std) :
    Field std (ascii "archive") (ascii "timeout") Numbers.timeout (positiveDuration std) := by
  intro n s n' h
  obtain ⟨hblock, -, hworkers, hqueue⟩ := names_ne
  rcases numbersStep_cases h with ⟨hat, d, hd, rfl⟩ | ⟨hat, d, hd, rfl⟩ | ⟨hat, d, hd, rfl⟩ |
    ⟨hat, d, hd, rfl⟩ | ⟨h₁, h₂, h₃, h₄, rfl⟩ <;>
    grind [Setting.At]

/-- The settings of a file that is accepted. -/
def settings (text : Bytes) : List Setting := (readText text).getD []

theorem parse_ok {c c' : Config} {text path : Bytes} (h : parse std c text path = .ok c') :
    applyAll std c (settings text) = some c' := by
  have heq := parse_eq std c text path
  rw [h] at heq
  obtain ⟨ss, hread, hall⟩ := Option.bind_eq_some_iff.1 heq.symm
  rw [settings, hread]
  exact hall

/-- No setting of the key is in the file and its number is as before, or the number is positive. -/
def Sound (f : Numbers → ℤ) (block key text : Bytes) (c c' : Config) : Prop :=
  (lastValue block key (settings text) = none ∧ f c'.numbers = f c.numbers) ∨ 0 < f c'.numbers

/-- `Atoi` reads an integer that is not positive. -/
def NotPositive (v : Bytes) : Prop := ∃ n ≤ 0, atoi (trimSpace v) = some n

theorem positive_of_duration {v : Bytes} {d : ℤ} (h : positiveDuration std v = some d) : 0 < d := by
  obtain ⟨e, -, he⟩ := Option.bind_eq_some_iff.1 h
  split_ifs at he with hle
  cases he
  exact not_le.1 hle

theorem parsePositive_iff {v : Bytes} {n : ℤ} (h : parsePositive v = some n) :
    0 < n ↔ ¬NotPositive v := by
  unfold parsePositive at h
  cases hatoi : atoi (trimSpace v) with
  | none => rw [hatoi] at h; cases h
  | some m =>
    rw [hatoi] at h
    dsimp only at h
    split_ifs at h with hle <;> cases h
    · exact iff_of_false (lt_irrefl 0) (not_not_intro ⟨m, hle, hatoi⟩)
    · refine iff_of_true (not_le.1 hle) ?_
      rintro ⟨k, hk, hkm⟩
      rw [hatoi] at hkm
      cases hkm
      exact hle hk

/-- A duration that was accepted is positive. -/
theorem sound_duration (hf : Field std block key f (positiveDuration std)) {c c' : Config}
    {text path : Bytes} (h : parse std c text path = .ok c') : Sound f block key text c c' := by
  have hlast := applyAll_last hf (parse_ok h)
  cases hv : lastValue block key (settings text) with
  | none =>
    rw [hv] at hlast
    exact .inl ⟨hv, hlast⟩
  | some v =>
    rw [hv] at hlast
    exact .inr (positive_of_duration hlast)

/-- A number that was accepted is positive unless `Atoi` read one that is not. -/
theorem sound_number_iff (hf : Field std block key f parsePositive) {c c' : Config}
    {text path : Bytes} (h : parse std c text path = .ok c') :
    Sound f block key text c c' ↔
      ∀ v, lastValue block key (settings text) = some v → ¬NotPositive v := by
  have hlast := applyAll_last hf (parse_ok h)
  cases hv : lastValue block key (settings text) with
  | none =>
    rw [hv] at hlast
    exact iff_of_true (.inl ⟨hv, hlast⟩) (fun v hnone => by cases hnone)
  | some v =>
    rw [hv] at hlast
    have hiff := parsePositive_iff hlast
    constructor
    · rintro (⟨hnone, -⟩ | hpos) w hw
      · rw [hv] at hnone
        cases hnone
      · cases hw
        exact hiff.1 hpos
    · intro hnot
      exact .inr (hiff.2 (hnot v rfl))

end

end AgentConf
