import PlacitumNode.Wave.State
import PlacitumNode.Lib.Numerals

/-!
# The settings of the phases (`core/ngx_http_waf_directives.c`, `core/ngx_http_waf_conf.c`)

A location has a deadline, a deny mode, a hold, a score threshold, a body limit and the policies of
the exceptions for each phase.  A level of the configuration names some of them, and the merge fills
in the others.

* `Conf`, `readLine`: the lines of a level;
* `mergeRequest`, `mergeBodyLimit`, `mergePhase`: the merge of a level into its parent's result;
* `settingAt`: the value of the nearest level that names a setting;
* `settings_nearest`: the merge computes it, at every depth.
-/

namespace Settings

open Octets Numerals Slots Waves

/-- `NGX_HTTP_WAF_HOLD_*` -/
inductive Hold
  | gate
  | monitor
  deriving DecidableEq

/-- What a level names for a phase. -/
inductive Setting
  | deadline
  | denyMode
  | hold
  | scoreDeny
  | bodyLimit
  | exception (exc : Exc)
  deriving DecidableEq

/-- A setting with its value; some come with a response page or a policy. -/
inductive Value
  | deadline (msec : ℕ)
  | denyMode (mode : DenyMode)
  | hold (hold : Hold)
  | scoreDeny (n : ℕ) (page : Bytes)
  | bodyLimit (size : ℕ) (policy : Policy)
  | exception (exc : Exc) (policy : Policy) (page : Bytes)
  deriving DecidableEq

def Value.setting : Value → Setting
  | deadline _ => .deadline
  | denyMode _ => .denyMode
  | hold _ => .hold
  | scoreDeny _ _ => .scoreDeny
  | bodyLimit _ _ => .bodyLimit
  | exception exc _ _ => .exception exc

def excNumber : Exc → ℕ
  | .timeout => 0
  | .absent => 1
  | .bus => 2
  | .body => 3
  | .inspector => 4
  | .overload => 5

/-- The number of the bit `NGX_HTTP_WAF_NAMED_*`. -/
def Setting.bit : Setting → ℕ
  | deadline => 0
  | denyMode => 1
  | hold => 2
  | scoreDeny => 3
  | bodyLimit => 4
  | exception exc => 8 + excNumber exc

def phases : List Phase := [.request, .response, .frameC2s, .frameS2c]

def excs : List Exc := [.timeout, .absent, .bus, .body, .inspector, .overload]

/-- The part of `ngx_http_waf_loc_conf_t` that the phases have; `none` is an unset value or a null
string. -/
structure Conf where
  named : Phase → ℕ
  deadline : Phase → Option ℕ
  denyMode : Phase → Option DenyMode
  hold : Phase → Option Hold
  scoreDeny : Phase → Option ℕ
  scoreDenyResponse : Phase → Option Bytes
  bodyLimit : Phase → Option ℕ
  bodyLimitPolicy : Phase → Option Policy
  exception : Phase → Exc → Option Policy
  exceptionResponse : Phase → Exc → Option Bytes

/-- `ngx_http_waf_create_loc_conf` -/
def createLocConf : Conf where
  named _ := 0
  deadline _ := none
  denyMode _ := none
  hold _ := none
  scoreDeny _ := none
  scoreDenyResponse _ := none
  bodyLimit _ := none
  bodyLimitPolicy _ := none
  exception _ _ := none
  exceptionResponse _ _ := none

/-- `conf->named[phase] & bit` -/
def Conf.names (c : Conf) (p : Phase) (s : Setting) : Bool := (c.named p).testBit s.bit

/-- `conf->named[phase] |= bit` -/
def Conf.name (c : Conf) (p : Phase) (s : Setting) : Conf :=
  { c with named := Function.update c.named p (c.named p ||| 2 ^ s.bit) }

/-- A directive sets a value and marks it as named. -/
def Conf.assign (c : Conf) (p : Phase) : Value → Conf
  | .deadline msec => { c with deadline := Function.update c.deadline p (some msec) }.name p .deadline
  | .denyMode mode => { c with denyMode := Function.update c.denyMode p (some mode) }.name p .denyMode
  | .hold hold => { c with hold := Function.update c.hold p (some hold) }.name p .hold
  | .scoreDeny n page =>
    { c with
      scoreDeny := Function.update c.scoreDeny p (some n)
      scoreDenyResponse := Function.update c.scoreDenyResponse p (some page) }.name p .scoreDeny
  | .bodyLimit size policy =>
    { c with
      bodyLimit := Function.update c.bodyLimit p (some size)
      bodyLimitPolicy := Function.update c.bodyLimitPolicy p (some policy) }.name p .bodyLimit
  | .exception exc policy page =>
    { c with
      exception := Function.update c.exception p (Function.update (c.exception p) exc (some policy))
      exceptionResponse := Function.update c.exceptionResponse p
        (Function.update (c.exceptionResponse p) exc (some page)) }.name p (.exception exc)

/-! ### The directives -/

/-- The directives of the phase settings. -/
inductive Directive
  | deadline
  | denyMode
  | hold
  | scoreDeny
  | bodyLimit
  | exception
  deriving DecidableEq

/-- A line: the directive and its words, its name first. -/
structure Line where
  directive : Directive
  args : List Bytes

/-- `ngx_parse_time` in milliseconds and `ngx_parse_size`; `none` is an error. -/
structure Parsers where
  time : Bytes → Option ℕ
  size : Bytes → Option ℕ

section

variable {α : Type}

/-- `ngx_http_waf_kw_lookup` -/
def kwLookup (kw : List (Bytes × α)) (value : Bytes) : Option α :=
  (kw.find? fun k => k.1 = value).map Prod.snd

/-- `ngx_http_waf_opt_keyword` -/
def optKeyword (kw : List (Bytes × α)) (value : Bytes) : Except Bytes α :=
  match kwLookup kw value with
  | some v => .ok v
  | none => .error (ascii "waf: invalid value \"" ++ value ++ ascii "\"")

end

def kwPhase : List (Bytes × List Phase) :=
  [(ascii "request", [.request]), (ascii "response", [.response]),
    (ascii "frame", [.frameC2s, .frameS2c]), (ascii "frame:c2s", [.frameC2s]),
    (ascii "frame:s2c", [.frameS2c])]

def kwHold : List (Bytes × Hold) := [(ascii "gate", .gate), (ascii "monitor", .monitor)]

def kwDenyMode : List (Bytes × DenyMode) :=
  [(ascii "fast", .fast), (ascii "deterministic", .deterministic)]

def kwBodyPolicy : List (Bytes × Policy) :=
  [(ascii "pass", .pass), (ascii "block", .block), (ascii "trim", .trim)]

def kwException : List (Bytes × Policy) := [(ascii "pass", .pass), (ascii "deny", .block)]

def kwExcClass : List (Bytes × Exc) :=
  [(ascii "timeout", .timeout), (ascii "absent", .absent), (ascii "bus", .bus),
    (ascii "body", .body), (ascii "inspector", .inspector), (ascii "overload", .overload)]

/-- `ngx_http_waf_arg_phase` -/
def argPhase (arg : Bytes) : Except Bytes (List Phase) :=
  match kwLookup kwPhase arg with
  | some ps => .ok ps
  | none => .error (ascii "waf: write request, response, frame, frame:c2s or frame:s2c as the first " ++
      ascii "word; \"" ++ arg ++ ascii "\" is not a phase")

/-- `ngx_http_waf_split` -/
def split (arg : Bytes) : Option (Bytes × Bytes) :=
  match arg.dropWhile (· ≠ 61) with
  | [] => none
  | _ :: value => if arg.takeWhile (· ≠ 61) = [] then none else some (arg.takeWhile (· ≠ 61), value)

/-- The loop over the phases of a line. -/
def assignPhases (c : Conf) (ps : List Phase) (v : Value) : Conf :=
  phases.foldl (fun c p => if p ∈ ps then c.assign p v else c) c

/-- What nginx says of a line with too few or too many words. -/
def wrongNumber : Bytes := ascii "invalid number of arguments"

variable (e : Parsers)

/-- `ngx_http_waf_deadline` -/
def deadline (c : Conf) : List Bytes → Except Bytes Conf
  | [dir, phase, budget] => do
    let ps ← argPhase phase
    if phases.any fun p => p ∈ ps && (c.deadline p).isSome then .error (ascii "is duplicate")
    else
      match e.time budget with
      | none => .error (dir ++ ascii ": invalid budget \"" ++ budget ++ ascii "\"")
      | some msec => .ok (assignPhases c ps (.deadline msec))
  | _ => .error wrongNumber

/-- `ngx_http_waf_phase_deny_mode` -/
def phaseDenyMode (c : Conf) : List Bytes → Except Bytes Conf
  | [_, phase, value] => do
    let ps ← argPhase phase
    if phases.any fun p => p ∈ ps && (c.denyMode p).isSome then .error (ascii "is duplicate")
    else
      let mode ← optKeyword kwDenyMode value
      .ok (assignPhases c ps (.denyMode mode))
  | _ => .error wrongNumber

/-- `ngx_http_waf_hold` -/
def hold (c : Conf) : List Bytes → Except Bytes Conf
  | [_, phase, value] => do
    let ps ← argPhase phase
    if phases.any fun p => p ∈ ps && (c.hold p).isSome then .error (ascii "is duplicate")
    else
      let hold ← optKeyword kwHold value
      if hold = .monitor ∧ .request ∈ ps then
        .error (ascii "waf_hold: the request phase is always gate; for watching without gating " ++
          ascii "write mode=passive on waf_inspect")
      else if hold = .monitor ∧ (.frameC2s ∈ ps ∨ .frameS2c ∈ ps) then
        .error (ascii "waf_hold: monitor on frames is not implemented yet; both directions run as " ++
          ascii "gate")
      else .ok (assignPhases c ps (.hold hold))
  | _ => .error wrongNumber

/-- The loop over the options of `waf_score_deny`. -/
def scorePage (page : Bytes) : List Bytes → Except Bytes Bytes
  | [] => .ok page
  | arg :: args =>
    match split arg with
    | some (name, value) =>
      if name = ascii "response" then scorePage value args
      else .error (ascii "waf: unknown option \"" ++ arg ++ ascii "\" in waf_score_deny")
    | none => .error (ascii "waf: unknown option \"" ++ arg ++ ascii "\" in waf_score_deny")

/-- `ngx_http_waf_score_deny` -/
def scoreDeny (c : Conf) : List Bytes → Except Bytes Conf
  | _ :: phase :: threshold :: opts => do
    if 1 < opts.length then .error wrongNumber
    else
      let ps ← argPhase phase
      if phases.any fun p => p ∈ ps && (c.scoreDeny p).isSome then .error (ascii "is duplicate")
      else
        match atoi threshold with
        | none => .error (ascii "waf: invalid threshold \"" ++ threshold ++ ascii "\"")
        | some n =>
          let page ← scorePage [] opts
          .ok (assignPhases c ps (.scoreDeny n page))
  | _ => .error wrongNumber

/-- `ngx_http_waf_body_limit` -/
def bodyLimit (c : Conf) : List Bytes → Except Bytes Conf
  | _ :: phase :: size :: opts => do
    if 1 < opts.length then .error wrongNumber
    else
      let ps ← argPhase phase
      if phases.any fun p => p ∈ ps && (c.bodyLimit p).isSome then .error (ascii "is duplicate")
      else
        match e.size size with
        | none => .error (ascii "waf_body_limit: invalid size \"" ++ size ++ ascii "\"")
        | some n =>
          if n ≤ 0 then .error (ascii "waf_body_limit: invalid size \"" ++ size ++ ascii "\"")
          else
            let policy ← match opts with
              | [] => .ok .block
              | word :: _ => optKeyword kwBodyPolicy word
            .ok (assignPhases c ps (.bodyLimit n policy))
  | _ => .error wrongNumber

/-- The loop over the options of `waf_exception`. -/
def exceptionPage (page : Bytes) : List Bytes → Except Bytes Bytes
  | [] => .ok page
  | arg :: args =>
    match split arg with
    | some (name, value) =>
      if name ≠ ascii "response" then
        .error (ascii "waf_exception: \"" ++ arg ++ ascii "\" is not response=<name>")
      else if value = [] then
        .error (ascii "waf_exception: response= needs a name of a waf_deny_response entry")
      else if page ≠ [] then .error (ascii "waf_exception: response= is listed twice")
      else exceptionPage value args
    | none => .error (ascii "waf_exception: \"" ++ arg ++ ascii "\" is not response=<name>")

/-- The names of a phase and of a class in an error. -/
def phaseName (p : Phase) : Bytes :=
  match p with
  | .request => ascii "request"
  | .response => ascii "response"
  | .frameC2s => ascii "frame"
  | .frameS2c => ascii "frame"

def excName (exc : Exc) : Bytes := (kwExcClass.find? fun k => k.2 = exc).elim [] Prod.fst

/-- The places that a line of `waf_exception` sets, in the order of the two loops. -/
def places (ps : List Phase) (classes : List Exc) : List (Phase × Exc) :=
  (phases.filter (· ∈ ps)).flatMap fun p => (excs.filter (· ∈ classes)).map fun exc => (p, exc)

/-- The two loops that set them. -/
def assignExceptions (policy : Policy) (page : Bytes) :
    List (Phase × Exc) → Conf → Except Bytes Conf
  | [], c => .ok c
  | (p, exc) :: rest, c =>
    if (c.exception p exc).isSome then
      .error (ascii "waf_exception: \"" ++ excName exc ++ ascii "\" of phase \"" ++ phaseName p ++
        ascii "\" is already set on this level")
    else assignExceptions policy page rest (c.assign p (.exception exc policy page))

/-- `ngx_http_waf_exception` after the class: the policy and the options. -/
def exceptionTail (c : Conf) (ps : List Phase) (classes : List Exc) (word : Bytes)
    (opts : List Bytes) : Except Bytes Conf := do
  let policy ← optKeyword kwException word
  let page ← exceptionPage [] opts
  if policy = .pass ∧ page ≠ [] then
    .error (ascii "waf_exception: response= has no meaning with pass -- the request goes through, " ++
      ascii "and there is no page to answer with")
  else assignExceptions policy page (places ps classes) c

/-- `ngx_http_waf_exception` -/
def exception (c : Conf) : List Bytes → Except Bytes Conf
  | _ :: phase :: word :: rest => do
    let ps ← argPhase phase
    match kwLookup kwExcClass word with
    | some exc =>
      match rest with
      | [] => .error (ascii "waf_exception: class \"" ++ word ++ ascii "\" needs pass or deny after " ++
          ascii "it")
      | policy :: opts => exceptionTail c ps [exc] policy opts
    | none => exceptionTail c ps excs word rest
  | _ => .error wrongNumber

def readLine (c : Conf) (l : Line) : Except Bytes Conf :=
  match l.directive with
  | .deadline => deadline e c l.args
  | .denyMode => phaseDenyMode c l.args
  | .hold => hold c l.args
  | .scoreDeny => scoreDeny c l.args
  | .bodyLimit => bodyLimit e c l.args
  | .exception => exception c l.args

/-- The lines of a level, one after the other. -/
def readLevel : List Line → Conf → Except Bytes Conf
  | [], c => .ok c
  | l :: ls, c => (readLine e c l).bind (readLevel ls)

/-! ### The merge -/

section

variable {α : Type}

/-- `ngx_conf_merge_value` and its kin. -/
def mergeValue (conf prev : Option α) (default : α) : Option α :=
  match conf with
  | some v => some v
  | none =>
    match prev with
    | some v => some v
    | none => some default

end

def excDefault : Exc → Policy
  | .timeout => .block
  | .absent => .block
  | .bus => .pass
  | .body => .block
  | .inspector => .block
  | .overload => .block

/-- The request settings that `ngx_http_waf_merge_loc_conf` merges by their unset markers. -/
def mergeRequest (conf prev : Conf) : Conf :=
  { conf with
    deadline := Function.update conf.deadline .request
      (mergeValue (conf.deadline .request) (prev.deadline .request) 50)
    exception := Function.update conf.exception .request fun exc =>
      mergeValue (conf.exception .request exc) (prev.exception .request exc) (excDefault exc)
    exceptionResponse := Function.update conf.exceptionResponse .request fun exc =>
      mergeValue (conf.exceptionResponse .request exc) (prev.exceptionResponse .request exc) []
    denyMode := Function.update conf.denyMode .request
      (mergeValue (conf.denyMode .request) (prev.denyMode .request) .fast)
    scoreDeny := Function.update conf.scoreDeny .request
      (mergeValue (conf.scoreDeny .request) (prev.scoreDeny .request) 0)
    scoreDenyResponse := Function.update conf.scoreDenyResponse .request
      (mergeValue (conf.scoreDenyResponse .request) (prev.scoreDenyResponse .request) [])
    hold := Function.update conf.hold .request
      (mergeValue (conf.hold .request) (prev.hold .request) .gate) }

/-- `conf->x[phase] = from->x[src]`, for a setting with all that belongs to it. -/
def Conf.copy (c : Conf) (p : Phase) (source : Conf) (src : Phase) : Setting → Conf
  | .deadline => { c with deadline := Function.update c.deadline p (source.deadline src) }
  | .denyMode => { c with denyMode := Function.update c.denyMode p (source.denyMode src) }
  | .hold => { c with hold := Function.update c.hold p (source.hold src) }
  | .scoreDeny =>
    { c with
      scoreDeny := Function.update c.scoreDeny p (source.scoreDeny src)
      scoreDenyResponse := Function.update c.scoreDenyResponse p (source.scoreDenyResponse src) }
  | .bodyLimit =>
    { c with
      bodyLimit := Function.update c.bodyLimit p (source.bodyLimit src)
      bodyLimitPolicy := Function.update c.bodyLimitPolicy p (source.bodyLimitPolicy src) }
  | .exception exc =>
    { c with
      exception := Function.update c.exception p
        (Function.update (c.exception p) exc (source.exception src exc))
      exceptionResponse := Function.update c.exceptionResponse p
        (Function.update (c.exceptionResponse p) exc (source.exceptionResponse src exc)) }

/-- `ngx_http_waf_merge_body_limit` -/
def mergeBodyLimit (conf prev : Conf) : Conf :=
  if conf.names .request .bodyLimit then conf
  else if prev.names .request .bodyLimit then
    (conf.copy .request prev .request .bodyLimit).name .request .bodyLimit
  else
    { conf with
      bodyLimit := Function.update conf.bodyLimit .request (some (1024 * 1024))
      bodyLimitPolicy := Function.update conf.bodyLimitPolicy .request (some .block) }

/-- `ngx_http_waf_merge_from`: where a setting comes from, if it has to be copied. -/
def mergeFrom (conf prev : Conf) (p : Phase) (s : Setting) : Conf × Option (Conf × Phase) :=
  if conf.names p s then (conf, none)
  else if prev.names p s then (conf.name p s, some (prev, p))
  else (conf, some (conf, .request))

/-- A setting in `ngx_http_waf_merge_phase`. -/
def mergeSetting (prev : Conf) (p : Phase) (conf : Conf) (s : Setting) : Conf :=
  match mergeFrom conf prev p s with
  | (conf, none) => conf
  | (conf, some (source, src)) => conf.copy p source src s

/-- The settings in the order of `ngx_http_waf_merge_phase`. -/
def settings : List Setting :=
  [.deadline, .denyMode, .hold, .scoreDeny, .bodyLimit] ++ excs.map .exception

/-- `ngx_http_waf_merge_phase` -/
def mergePhase (prev conf : Conf) (p : Phase) : Conf := settings.foldl (mergeSetting prev p) conf

/-- The phase settings in `ngx_http_waf_merge_loc_conf`. -/
def mergeLocConf (conf prev : Conf) : Conf :=
  [Phase.response, .frameC2s, .frameS2c].foldl (mergePhase prev)
    (mergeBodyLimit (mergeRequest conf prev) prev)

/-- The level inside the others, the innermost first, merged into its parent's result; the outermost
level is never merged. -/
def merged (outer : List Line) : List (List Line) → Except Bytes Conf
  | [] => readLevel e outer createLocConf
  | level :: levels =>
    match merged outer levels with
    | .error err => .error err
    | .ok prev =>
      match readLevel e level createLocConf with
      | .error err => .error err
      | .ok conf => .ok (mergeLocConf conf prev)

/-! ### The nearest level -/

/-- The page that the options of a line name; the last one counts. -/
def pageOf (opts : List Bytes) : Bytes := (opts.getLast?.bind split).elim [] Prod.snd

/-- The phases that a word means. -/
def phasesOf (word : Bytes) : List Phase := (kwLookup kwPhase word).getD []

/-- What a line says of a phase and a setting. -/
def Line.gives (l : Line) (p : Phase) (s : Setting) : Option Value :=
  match l.directive, s, l.args with
  | .deadline, .deadline, _ :: ph :: budget :: _ =>
    if p ∈ phasesOf ph then (e.time budget).map .deadline else none
  | .denyMode, .denyMode, _ :: ph :: mode :: _ =>
    if p ∈ phasesOf ph then (kwLookup kwDenyMode mode).map .denyMode else none
  | .hold, .hold, _ :: ph :: hold :: _ =>
    if p ∈ phasesOf ph then (kwLookup kwHold hold).map .hold else none
  | .scoreDeny, .scoreDeny, _ :: ph :: n :: opts =>
    if p ∈ phasesOf ph then (atoi n).map fun n => .scoreDeny n (pageOf opts) else none
  | .bodyLimit, .bodyLimit, _ :: ph :: size :: opts =>
    if p ∈ phasesOf ph then (e.size size).map fun n =>
      .bodyLimit n ((opts.head?.bind (kwLookup kwBodyPolicy)).getD .block) else none
  | .exception, .exception exc, _ :: ph :: word :: opts =>
    if p ∈ phasesOf ph then
      match kwLookup kwExcClass word with
      | some kind =>
        if exc = kind then
          (opts.head?.bind (kwLookup kwException)).map fun policy =>
            .exception exc policy (pageOf opts.tail)
        else none
      | none => (kwLookup kwException word).map fun policy => .exception exc policy (pageOf opts)
    else none
  | _, _, _ => none

/-- What a level says. -/
def levelGives (level : List Line) (p : Phase) (s : Setting) : Option Value :=
  level.findSome? fun l => l.gives e p s

/-- What the nearest level says that says anything; the innermost level comes first. -/
def nearest (levels : List (List Line)) (p : Phase) (s : Setting) : Option Value :=
  levels.findSome? fun level => levelGives e level p s

def defaultValue : Setting → Value
  | .deadline => .deadline 50
  | .denyMode => .denyMode .fast
  | .hold => .hold .gate
  | .scoreDeny => .scoreDeny 0 []
  | .bodyLimit => .bodyLimit (1024 * 1024) .block
  | .exception exc => .exception exc (excDefault exc) []

/-- The nearest value of the phase, else that of the request, else the default. -/
def settingAt (levels : List (List Line)) (p : Phase) (s : Setting) : Value :=
  (nearest e levels p s).getD ((nearest e levels .request s).getD (defaultValue s))

/-- The value of a setting with all that belongs to it. -/
def Conf.get (c : Conf) (p : Phase) : Setting → Option Value
  | .deadline => (c.deadline p).map .deadline
  | .denyMode => (c.denyMode p).map .denyMode
  | .hold => (c.hold p).map .hold
  | .scoreDeny => (c.scoreDeny p).bind fun n => (c.scoreDenyResponse p).map (.scoreDeny n)
  | .bodyLimit => (c.bodyLimit p).bind fun n => (c.bodyLimitPolicy p).map (.bodyLimit n)
  | .exception exc =>
    (c.exception p exc).bind fun policy => (c.exceptionResponse p exc).map (.exception exc policy)

/-! ### One value -/

section

variable {c source : Conf} {p q src : Phase} {s t : Setting} {v : Value}

theorem excNumber_injective : Function.Injective excNumber := by
  intro a b h
  cases a <;> cases b <;> first | rfl | cases h

theorem bit_injective : Function.Injective Setting.bit := by
  intro s t h
  cases s <;> cases t <;> simp only [Setting.bit] at h <;>
    first
    | rfl
    | omega
    | exact congrArg Setting.exception (excNumber_injective (by omega))

theorem names_name : (c.name p s).names q t = (c.names q t || (q = p && t = s)) := by
  simp only [Conf.names, Conf.name]
  by_cases hq : q = p
  · subst hq
    rw [Function.update_self, Nat.testBit_or, Nat.testBit_two_pow]
    by_cases ht : t = s
    · simp [ht]
    · have hbit : s.bit ≠ t.bit := fun h => ht (bit_injective h).symm
      simp [ht, hbit]
  · rw [Function.update_of_ne hq]
    simp [hq]

@[simp] theorem get_name : (c.name p s).get q t = c.get q t := by cases t <;> rfl

theorem get_assign :
    (c.assign p v).get q t = if q = p ∧ t = v.setting then some v else c.get q t := by
  by_cases hq : q = p
  · subst hq
    cases v with
    | exception exc policy page =>
      cases t with
      | exception exc' =>
        by_cases he : exc' = exc
        · subst he
          simp [Conf.assign, Conf.get, Conf.name, Value.setting]
        · simp [Conf.assign, Conf.get, Conf.name, Value.setting, he]
      | _ => simp [Conf.assign, Conf.get, Conf.name, Value.setting]
    | _ => cases t <;> simp [Conf.assign, Conf.get, Conf.name, Value.setting]
  · cases v <;> cases t <;> simp [Conf.assign, Conf.get, Conf.name, hq]

theorem names_assign :
    (c.assign p v).names q t = (c.names q t || (q = p && t = v.setting)) := by
  cases v <;> exact names_name

theorem get_copy : (c.copy p source src s).get q t =
    if q = p ∧ t = s then source.get src s else c.get q t := by
  by_cases hq : q = p
  · subst hq
    cases s with
    | exception exc =>
      cases t with
      | exception exc' =>
        by_cases he : exc' = exc
        · subst he
          simp [Conf.copy, Conf.get]
        · simp [Conf.copy, Conf.get, he]
      | _ => simp [Conf.copy, Conf.get]
    | _ => cases t <;> simp [Conf.copy, Conf.get]
  · cases s <;> cases t <;> simp [Conf.copy, Conf.get, hq]

theorem names_copy : (c.copy p source src s).names q t = c.names q t := by cases s <;> rfl

/-- What belongs together is set together. -/
def Conf.Whole (c : Conf) : Prop :=
  ∀ p, (c.scoreDeny p).isSome = (c.scoreDenyResponse p).isSome ∧
    (c.bodyLimit p).isSome = (c.bodyLimitPolicy p).isSome ∧
    ∀ exc, (c.exception p exc).isSome = (c.exceptionResponse p exc).isSome

theorem whole_assign (h : c.Whole) : (c.assign p v).Whole := by
  intro q
  obtain ⟨hscore, hlimit, hexc⟩ := h q
  by_cases hq : q = p
  · subst hq
    cases v with
    | exception exc policy page =>
      refine ⟨hscore, hlimit, fun exc' => ?_⟩
      by_cases he : exc' = exc
      · subst he
        simp [Conf.assign, Conf.name]
      · simpa [Conf.assign, Conf.name, he] using hexc exc'
    | _ => simp [Conf.assign, Conf.name, hscore, hlimit, hexc]
  · cases v <;> simp [Conf.assign, Conf.name, hq, hscore, hlimit, hexc]

theorem whole_copy (h : c.Whole) (hs : source.Whole) : (c.copy p source src s).Whole := by
  intro q
  obtain ⟨hscore, hlimit, hexc⟩ := h q
  obtain ⟨hscore', hlimit', hexc'⟩ := hs src
  by_cases hq : q = p
  · subst hq
    cases s with
    | exception exc =>
      refine ⟨hscore, hlimit, fun other => ?_⟩
      by_cases he : other = exc
      · subst he
        simpa [Conf.copy] using hexc' other
      · simpa [Conf.copy, he] using hexc other
    | _ => simp [Conf.copy, hscore, hlimit, hexc, hscore', hlimit']
  · cases s <;> simp [Conf.copy, hq, hscore, hlimit, hexc]

end

/-! ### The lines of a level -/

/-- A line that was read: it sets what it says, and nothing of it had been set. -/
structure Effect (c c' : Conf) (gives : Phase → Setting → Option Value) : Prop where
  get : ∀ p s, c'.get p s = (gives p s).or (c.get p s)
  names : ∀ p s, c'.names p s = ((gives p s).isSome || c.names p s)
  whole : c.Whole → c'.Whole
  fresh : ∀ p s, (gives p s).isSome → c.get p s = none

section

variable {c c' : Conf} {ps : List Phase} {v : Value}

theorem mem_phases (p : Phase) : p ∈ phases := by cases p <;> simp [phases]

theorem mem_excs (exc : Exc) : exc ∈ excs := by cases exc <;> simp [excs]

/-- The loop over the phases, on a part of them. -/
theorem foldl_assign (ps : List Phase) (v : Value) (l : List Phase) (c : Conf) :
    let c' := l.foldl (fun c p => if p ∈ ps then c.assign p v else c) c
    (∀ p s, c'.get p s = if p ∈ l ∧ p ∈ ps ∧ s = v.setting then some v else c.get p s) ∧
      (∀ p s, c'.names p s = (c.names p s || (p ∈ l && (p ∈ ps && s = v.setting)))) ∧
      (c.Whole → c'.Whole) := by
  induction l generalizing c with
  | nil => simp
  | cons q l ih =>
    simp only [List.foldl_cons]
    by_cases hq : q ∈ ps
    · rw [if_pos hq]
      obtain ⟨hget, hnames, hwhole⟩ := ih (c.assign q v)
      refine ⟨fun p s => ?_, fun p s => ?_, fun h => hwhole (whole_assign h)⟩
      · rw [hget, get_assign]
        by_cases hp : p = q
        · subst hp
          by_cases hs : s = v.setting <;> simp [hq, hs]
        · simp [hp]
      · rw [hnames, names_assign]
        by_cases hp : p = q
        · subst hp
          by_cases hs : s = v.setting <;> simp [hq, hs]
        · simp [hp]
    · rw [if_neg hq]
      obtain ⟨hget, hnames, hwhole⟩ := ih c
      refine ⟨fun p s => ?_, fun p s => ?_, hwhole⟩
      · rw [hget]
        by_cases hp : p = q
        · subst hp
          simp [hq]
        · simp [hp]
      · rw [hnames]
        by_cases hp : p = q
        · subst hp
          simp [hq]
        · simp [hp]

theorem effect_phases (hfresh : ∀ p ∈ ps, c.get p v.setting = none) :
    Effect c (assignPhases c ps v) fun p s => if p ∈ ps ∧ s = v.setting then some v else none := by
  obtain ⟨hget, hnames, hwhole⟩ := foldl_assign ps v phases c
  refine ⟨fun p s => ?_, fun p s => ?_, hwhole, fun p s h => ?_⟩
  · rw [assignPhases, hget]
    by_cases hin : p ∈ ps ∧ s = v.setting <;> simp [mem_phases, hin]
  · rw [assignPhases, hnames]
    by_cases hin : p ∈ ps ∧ s = v.setting
    · simp [mem_phases, hin]
    · rw [if_neg hin]
      have hno : (p ∈ ps && s = v.setting : Bool) = false := by
        simpa using fun h₁ h₂ => hin ⟨h₁, h₂⟩
      simp [hno]
  · split_ifs at h with hin
    · rw [hin.2]
      exact hfresh p hin.1
    · cases h

theorem argPhase_ok {word : Bytes} (h : argPhase word = .ok ps) : phasesOf word = ps := by
  unfold argPhase at h
  rw [phasesOf]
  cases hps : kwLookup kwPhase word with
  | none => simp [hps] at h
  | some qs =>
    rw [hps] at h
    exact Except.ok.inj h

theorem optKeyword_ok {α : Type} {kw : List (Bytes × α)} {word : Bytes} {a : α}
    (h : optKeyword kw word = .ok a) : kwLookup kw word = some a := by
  unfold optKeyword at h
  cases ha : kwLookup kw word with
  | none => simp [ha] at h
  | some b =>
    rw [ha] at h
    exact congrArg some (Except.ok.inj h)

theorem bind_ok {α β : Type} {x : Except Bytes α} {f : α → Except Bytes β} {b : β}
    (h : x >>= f = .ok b) : ∃ a, x = .ok a ∧ f a = .ok b := by
  cases x with
  | error err => cases h
  | ok a => exact ⟨a, rfl, h⟩

/-- A line that sets one value in its phases. -/
theorem Effect.of_phases {e : Parsers} {l : Line} {word : Bytes} (hps : phasesOf word = ps)
    (hgives : ∀ p s, l.gives e p s = if p ∈ phasesOf word ∧ s = v.setting then some v else none)
    (hfresh : ∀ p ∈ ps, c.get p v.setting = none) :
    Effect c (assignPhases c ps v) (l.gives e) := by
  have heq : l.gives e = fun p s => if p ∈ ps ∧ s = v.setting then some v else none := by
    funext p s
    rw [hgives, hps]
  rw [heq]
  exact effect_phases hfresh

/-- The test for a duplicate. -/
theorem fresh_of_any {α : Type} {f : Phase → Option α}
    (h : ¬(phases.any fun p => p ∈ ps && (f p).isSome) = true) : ∀ p ∈ ps, f p = none := by
  intro p hp
  by_contra hne
  refine h (List.any_eq_true.mpr ⟨p, mem_phases p, ?_⟩)
  simp [hp, Option.isSome_iff_ne_none, hne]

/-! ### One directive -/

theorem gives_deadline (e : Parsers) (dir ph budget : Bytes) (rest : List Bytes) (p : Phase)
    (s : Setting) : Line.gives e ⟨.deadline, dir :: ph :: budget :: rest⟩ p s =
      if s = .deadline then
        if p ∈ phasesOf ph then (e.time budget).map .deadline else none
      else none := by
  cases s <;> rfl

theorem gives_denyMode (e : Parsers) (dir ph mode : Bytes) (rest : List Bytes) (p : Phase)
    (s : Setting) : Line.gives e ⟨.denyMode, dir :: ph :: mode :: rest⟩ p s =
      if s = .denyMode then
        if p ∈ phasesOf ph then (kwLookup kwDenyMode mode).map .denyMode else none
      else none := by
  cases s <;> rfl

theorem gives_hold (e : Parsers) (dir ph hold : Bytes) (rest : List Bytes) (p : Phase)
    (s : Setting) : Line.gives e ⟨.hold, dir :: ph :: hold :: rest⟩ p s =
      if s = .hold then
        if p ∈ phasesOf ph then (kwLookup kwHold hold).map .hold else none
      else none := by
  cases s <;> rfl

theorem gives_scoreDeny (e : Parsers) (dir ph n : Bytes) (opts : List Bytes) (p : Phase)
    (s : Setting) : Line.gives e ⟨.scoreDeny, dir :: ph :: n :: opts⟩ p s =
      if s = .scoreDeny then
        if p ∈ phasesOf ph then (atoi n).map fun n => .scoreDeny n (pageOf opts) else none
      else none := by
  cases s <;> rfl

theorem gives_bodyLimit (e : Parsers) (dir ph size : Bytes) (opts : List Bytes) (p : Phase)
    (s : Setting) : Line.gives e ⟨.bodyLimit, dir :: ph :: size :: opts⟩ p s =
      if s = .bodyLimit then
        if p ∈ phasesOf ph then (e.size size).map fun n =>
          .bodyLimit n ((opts.head?.bind (kwLookup kwBodyPolicy)).getD .block) else none
      else none := by
  cases s <;> rfl

theorem deadline_effect {e : Parsers} {args : List Bytes} (h : deadline e c args = .ok c') :
    Effect c c' (Line.gives e ⟨.deadline, args⟩) := by
  unfold deadline at h
  split at h
  · next dir phase budget =>
    obtain ⟨ps, hps, h⟩ := bind_ok h
    split_ifs at h with hdup
    cases hmsec : e.time budget with
    | none => simp [hmsec] at h
    | some msec =>
      rw [hmsec] at h
      cases h
      refine Effect.of_phases (argPhase_ok hps) (fun p s => ?_) fun p hp => ?_
      · cases s <;> simp [gives_deadline, hmsec, Value.setting]
      · simp [Conf.get, Value.setting, fresh_of_any hdup p hp]
  · cases h

theorem phaseDenyMode_effect {e : Parsers} {args : List Bytes} (h : phaseDenyMode c args = .ok c') :
    Effect c c' (Line.gives e ⟨.denyMode, args⟩) := by
  unfold phaseDenyMode at h
  split at h
  · next dir phase value =>
    obtain ⟨ps, hps, h⟩ := bind_ok h
    split_ifs at h with hdup
    obtain ⟨mode, hmode, h⟩ := bind_ok h
    cases h
    refine Effect.of_phases (argPhase_ok hps) (fun p s => ?_) fun p hp => ?_
    · cases s <;> simp [gives_denyMode, optKeyword_ok hmode, Value.setting]
    · simp [Conf.get, Value.setting, fresh_of_any hdup p hp]
  · cases h

theorem hold_effect {e : Parsers} {args : List Bytes} (h : hold c args = .ok c') :
    Effect c c' (Line.gives e ⟨.hold, args⟩) := by
  unfold hold at h
  split at h
  · next dir phase value =>
    obtain ⟨ps, hps, h⟩ := bind_ok h
    split_ifs at h with hdup
    obtain ⟨hold, hhold, h⟩ := bind_ok h
    split_ifs at h
    cases h
    refine Effect.of_phases (argPhase_ok hps) (fun p s => ?_) fun p hp => ?_
    · cases s <;> simp [gives_hold, optKeyword_ok hhold, Value.setting]
    · simp [Conf.get, Value.setting, fresh_of_any hdup p hp]
  · cases h

/-- The page of a line with at most one option. -/
theorem scorePage_ok {opts : List Bytes} {page : Bytes} (hlen : ¬1 < opts.length)
    (h : scorePage [] opts = .ok page) : pageOf opts = page := by
  match opts with
  | [] =>
    cases h
    rfl
  | [arg] =>
    simp only [scorePage] at h
    cases hsplit : split arg with
    | none => simp [hsplit] at h
    | some pair =>
      rw [hsplit] at h
      simp only at h
      split_ifs at h with hname
      cases h
      simp [pageOf, hsplit]
  | _ :: _ :: _ => simp at hlen

theorem scoreDeny_effect {e : Parsers} {args : List Bytes} (h : scoreDeny c args = .ok c') :
    Effect c c' (Line.gives e ⟨.scoreDeny, args⟩) := by
  unfold scoreDeny at h
  split at h
  · next dir phase threshold opts =>
    split_ifs at h with hlen
    obtain ⟨ps, hps, h⟩ := bind_ok h
    split_ifs at h with hdup
    cases hn : atoi threshold with
    | none => simp [hn] at h
    | some n =>
      rw [hn] at h
      obtain ⟨page, hpage, h⟩ := bind_ok h
      cases h
      refine Effect.of_phases (argPhase_ok hps) (fun p s => ?_) fun p hp => ?_
      · cases s <;> simp [gives_scoreDeny, hn, scorePage_ok hlen hpage, Value.setting]
      · simp [Conf.get, Value.setting, fresh_of_any hdup p hp]
  · cases h

theorem bodyLimit_effect {e : Parsers} {args : List Bytes} (h : bodyLimit e c args = .ok c') :
    Effect c c' (Line.gives e ⟨.bodyLimit, args⟩) := by
  unfold bodyLimit at h
  split at h
  · next dir phase size opts =>
    split_ifs at h with hlen
    obtain ⟨ps, hps, h⟩ := bind_ok h
    split_ifs at h with hdup
    cases hn : e.size size with
    | none => simp [hn] at h
    | some n =>
      rw [hn] at h
      simp only at h
      split_ifs at h
      obtain ⟨policy, hword, rfl⟩ : ∃ policy,
          (opts.head?.bind (kwLookup kwBodyPolicy)).getD .block = policy ∧
            assignPhases c ps (.bodyLimit n policy) = c' := by
        cases opts with
        | nil => exact ⟨.block, rfl, Except.ok.inj h⟩
        | cons word rest =>
          obtain ⟨policy, hpolicy, h⟩ := bind_ok h
          exact ⟨policy, by simp [optKeyword_ok hpolicy], Except.ok.inj h⟩
      refine Effect.of_phases (argPhase_ok hps) (fun p s => ?_) fun p hp => ?_
      · cases s <;> simp [gives_bodyLimit, hn, hword, Value.setting]
      · simp [Conf.get, Value.setting, fresh_of_any hdup p hp]
  · cases h

/-! ### The exceptions of a level -/

theorem exceptionPage_ok {opts : List Bytes} {start page : Bytes}
    (h : exceptionPage start opts = .ok page) :
    (opts = [] ∧ page = start) ∨ (start = [] ∧ pageOf opts = page) := by
  cases opts with
  | nil =>
    cases h
    exact .inl ⟨rfl, rfl⟩
  | cons arg rest =>
    simp only [exceptionPage] at h
    cases hsplit : split arg with
    | none => simp [hsplit] at h
    | some pair =>
      rw [hsplit] at h
      simp only at h
      split_ifs at h with hname hempty hstart
      refine .inr ⟨not_not.mp hstart, ?_⟩
      -- a second option is refused, because the page is there
      cases rest with
      | nil =>
        cases h
        simp [pageOf, hsplit]
      | cons arg' rest =>
        simp only [exceptionPage] at h
        cases hsplit' : split arg' with
        | none => simp [hsplit'] at h
        | some pair' =>
          rw [hsplit'] at h
          simp only at h
          split_ifs at h

theorem exceptionPage_eq {opts : List Bytes} {page : Bytes} (h : exceptionPage [] opts = .ok page) :
    pageOf opts = page := by
  rcases exceptionPage_ok h with ⟨rfl, rfl⟩ | ⟨-, hpage⟩
  · rfl
  · exact hpage

/-- What the two loops set. -/
def placed (policy : Policy) (page : Bytes) (l : List (Phase × Exc)) (p : Phase) :
    Setting → Option Value
  | .exception exc => if (p, exc) ∈ l then some (.exception exc policy page) else none
  | _ => none

theorem assignExceptions_effect {policy : Policy} {page : Bytes} {l : List (Phase × Exc)}
    (h : assignExceptions policy page l c = .ok c') : Effect c c' (placed policy page l) := by
  induction l generalizing c with
  | nil =>
    cases h
    refine ⟨fun p s => ?_, fun p s => ?_, id, fun p s hs => ?_⟩ <;>
      cases s <;> simp_all [placed]
  | cons place l ih =>
    obtain ⟨q, exc⟩ := place
    rw [assignExceptions] at h
    split_ifs at h with hset
    have hnone : c.get q (.exception exc) = none := by
      rw [Option.not_isSome_iff_eq_none] at hset
      simp [Conf.get, hset]
    obtain ⟨hget, hnames, hwhole, hfresh⟩ := ih h
    -- the place itself, or one of the others
    have hcons : ∀ p s, placed policy page ((q, exc) :: l) p s = (placed policy page l p s).or
        (if p = q ∧ s = .exception exc then some (.exception exc policy page) else none) := by
      intro p s
      cases s with
      | exception exc' =>
        by_cases hin : (p, exc') ∈ l
        · simp [placed, hin]
        · by_cases heq : p = q ∧ exc' = exc
          · obtain ⟨rfl, rfl⟩ := heq
            simp [placed, hin]
          · simp [placed, hin, heq]
      | _ => simp [placed]
    refine ⟨fun p s => ?_, fun p s => ?_, fun hw => hwhole (whole_assign hw), fun p s hs => ?_⟩
    · rw [hget, get_assign, hcons, Option.or_assoc, Value.setting]
      split_ifs <;> rfl
    · rw [hnames, names_assign, hcons, Option.isSome_or, Bool.or_assoc, Value.setting]
      congr 1
      by_cases heq : p = q ∧ s = .exception exc
      · simp [heq]
      · rw [if_neg heq]
        have hno : (p = q && s = .exception exc : Bool) = false := by
          simpa using fun h₁ h₂ => heq ⟨h₁, h₂⟩
        simp [hno]
    · rw [hcons, Option.isSome_or, Bool.or_eq_true] at hs
      rcases hs with hs | hs
      · have hother := hfresh p s hs
        rw [get_assign] at hother
        split_ifs at hother
        exact hother
      · split_ifs at hs with heq
        · rw [heq.1, heq.2]
          exact hnone
        · cases hs

theorem mem_places {classes : List Exc} {p : Phase} {exc : Exc} :
    (p, exc) ∈ places ps classes ↔ p ∈ ps ∧ exc ∈ classes := by
  simp [places, mem_phases, mem_excs]

theorem exceptionTail_ok {classes : List Exc} {word : Bytes} {opts : List Bytes}
    (h : exceptionTail c ps classes word opts = .ok c') :
    ∃ policy, kwLookup kwException word = some policy ∧
      Effect c c' (placed policy (pageOf opts) (places ps classes)) := by
  obtain ⟨policy, hpolicy, h⟩ := bind_ok h
  obtain ⟨page, hpage, h⟩ := bind_ok h
  split_ifs at h
  exact ⟨policy, optKeyword_ok hpolicy, exceptionPage_eq hpage ▸ assignExceptions_effect h⟩

theorem exception_effect {e : Parsers} {args : List Bytes} (h : exception c args = .ok c') :
    Effect c c' (Line.gives e ⟨.exception, args⟩) := by
  unfold exception at h
  split at h
  · next dir phase word rest =>
    obtain ⟨ps, hps, h⟩ := bind_ok h
    have hof := argPhase_ok hps
    cases hword : kwLookup kwExcClass word with
    | none =>
      rw [hword] at h
      obtain ⟨policy, hpolicy, heffect⟩ := exceptionTail_ok h
      convert heffect using 1
      funext p s
      cases s <;> simp [Line.gives, placed, mem_places, mem_excs, hof, hword, hpolicy]
    | some exc =>
      rw [hword] at h
      cases rest with
      | nil => cases h
      | cons policyWord opts =>
        obtain ⟨policy, hpolicy, heffect⟩ := exceptionTail_ok h
        convert heffect using 1
        funext p s
        cases s with
        | exception exc' =>
          by_cases hp : p ∈ ps <;> by_cases he : exc' = exc <;>
            simp [Line.gives, placed, mem_places, hof, hword, hpolicy, hp, he]
        | _ => rfl
  · cases h

theorem readLine_effect {e : Parsers} {l : Line} (h : readLine e c l = .ok c') :
    Effect c c' (l.gives e) := by
  obtain ⟨directive, args⟩ := l
  cases directive with
  | deadline => exact deadline_effect h
  | denyMode => exact phaseDenyMode_effect h
  | hold => exact hold_effect h
  | scoreDeny => exact scoreDeny_effect h
  | bodyLimit => exact bodyLimit_effect h
  | exception => exact exception_effect h

theorem levelGives_cons (e : Parsers) (l : Line) (ls : List Line) (p : Phase) (s : Setting) :
    levelGives e (l :: ls) p s = (l.gives e p s).or (levelGives e ls p s) := by
  rw [levelGives, List.findSome?_cons]
  cases l.gives e p s <;> rfl

/-- The lines of a level, on top of what was read before them. -/
theorem readLevel_effect {e : Parsers} {ls : List Line} (h : readLevel e ls c = .ok c')
    (hw : c.Whole) (hnames : ∀ p s, c.names p s = (c.get p s).isSome) :
    (∀ p s, c'.get p s = (c.get p s).or (levelGives e ls p s)) ∧ c'.Whole ∧
      ∀ p s, c'.names p s = (c'.get p s).isSome := by
  induction ls generalizing c with
  | nil =>
    cases h
    exact ⟨fun p s => by simp [levelGives], hw, hnames⟩
  | cons l ls ih =>
    rw [readLevel] at h
    obtain ⟨mid, hline, h⟩ := bind_ok h
    have heffect := readLine_effect hline
    obtain ⟨hget, hwhole, hnamed⟩ := ih h (heffect.whole hw) fun p s => by
      rw [heffect.names, heffect.get, hnames, Option.isSome_or]
    refine ⟨fun p s => ?_, hwhole, hnamed⟩
    rw [hget, heffect.get, levelGives_cons]
    -- what the line sets was not there
    cases hgives : l.gives e p s with
    | none => simp
    | some v =>
      have hnone := heffect.fresh p s (by rw [hgives]; rfl)
      simp [hnone]

/-- A level that was read has the values that its lines give. -/
structure Reads (c : Conf) (gives : Phase → Setting → Option Value) : Prop where
  get : ∀ p s, c.get p s = gives p s
  names : ∀ p s, c.names p s = (gives p s).isSome
  whole : c.Whole

theorem readLevel_reads {e : Parsers} {ls : List Line} (h : readLevel e ls createLocConf = .ok c) :
    Reads c (levelGives e ls) := by
  obtain ⟨hget, hwhole, hnames⟩ := readLevel_effect h (fun _ => ⟨rfl, rfl, fun _ => rfl⟩) fun p s => by
    cases s <;> simp [createLocConf, Conf.names, Conf.get]
  have hempty : ∀ p s, createLocConf.get p s = none := fun p s => by cases s <;> rfl
  have heq : ∀ p s, c.get p s = levelGives e ls p s := fun p s => by
    rw [hget, hempty, Option.none_or]
  exact ⟨heq, fun p s => by rw [hnames, heq], hwhole⟩

end

/-! ### One merge -/

section

variable {conf prev : Conf} {p q : Phase} {s t : Setting}

/-- What a setting of a later phase is merged from. -/
def picked (conf prev : Conf) (p : Phase) (s : Setting) : Option Value :=
  if conf.names p s then conf.get p s
  else if prev.names p s then prev.get p s
  else conf.get .request s

theorem get_mergeSetting : (mergeSetting prev p conf s).get q t =
    if q = p ∧ t = s then picked conf prev p s else conf.get q t := by
  unfold mergeSetting mergeFrom picked
  by_cases hconf : conf.names p s
  · by_cases heq : q = p ∧ t = s
    · simp [hconf, heq]
    · simp [hconf, heq]
  · by_cases hprev : prev.names p s
    · simp [hconf, hprev, get_copy]
    · simp [hconf, hprev, get_copy]

theorem names_mergeSetting : (mergeSetting prev p conf s).names q t =
    (conf.names q t || (q = p && t = s && prev.names p s)) := by
  unfold mergeSetting mergeFrom
  by_cases hconf : conf.names p s
  · by_cases heq : q = p ∧ t = s
    · simp [heq, hconf]
    · have hno : (q = p && t = s : Bool) = false := by simpa using fun h₁ h₂ => heq ⟨h₁, h₂⟩
      simp [hconf, hno]
  · by_cases hprev : prev.names p s
    · simp [hconf, hprev, names_copy, names_name]
    · simp [hconf, hprev, names_copy]

theorem whole_name (h : conf.Whole) : (conf.name p s).Whole := h

theorem whole_mergeSetting (h : conf.Whole) (hp : prev.Whole) :
    (mergeSetting prev p conf s).Whole := by
  unfold mergeSetting mergeFrom
  by_cases hconf : conf.names p s
  · simpa [hconf] using h
  · by_cases hprev : prev.names p s
    · simp only [hconf, hprev, if_true]
      exact whole_copy (whole_name h) hp
    · simp only [hconf, hprev]
      exact whole_copy h h

/-- The settings of a phase one after the other: each reads only its own and the request's. -/
theorem foldl_mergeSetting (l : List Setting) (hl : l.Nodup) (conf : Conf) :
    (∀ q t, (l.foldl (mergeSetting prev p) conf).get q t =
      if q = p ∧ t ∈ l then picked conf prev p t else conf.get q t) ∧
    ∀ q t, (l.foldl (mergeSetting prev p) conf).names q t =
      (conf.names q t || (q = p && t ∈ l && prev.names p t)) := by
  induction l generalizing conf with
  | nil => simp
  | cons s l ih =>
    obtain ⟨hs, hl⟩ := List.nodup_cons.mp hl
    obtain ⟨hget, hnames⟩ := ih hl (mergeSetting prev p conf s)
    have hpick : ∀ t ∈ l, picked (mergeSetting prev p conf s) prev p t = picked conf prev p t := by
      intro t ht
      have hts : t ≠ s := fun h => hs (h ▸ ht)
      have hreq : ¬(Phase.request = p ∧ t = s) := fun h => hts h.2
      have hown : ¬(p = p ∧ t = s) := fun h => hts h.2
      rw [picked, picked, get_mergeSetting, get_mergeSetting, if_neg hreq, if_neg hown,
        names_mergeSetting]
      simp [hts]
    simp only [List.foldl_cons]
    refine ⟨fun q t => ?_, fun q t => ?_⟩
    · rw [hget, get_mergeSetting]
      by_cases hq : q = p
      · by_cases ht : t ∈ l
        · have hts : t ≠ s := fun h => hs (h ▸ ht)
          simp [hq, ht, hpick t ht]
        · by_cases hts : t = s
          · simp [hq, hts, hs]
          · simp [hq, ht, hts]
      · simp [hq]
    · rw [hnames, names_mergeSetting]
      by_cases hq : q = p
      · by_cases hts : t = s
        · simp [hq, hts, hs]
        · simp [hq, hts]
      · simp [hq]

theorem whole_foldl {α : Type} {f : Conf → α → Conf} (hf : ∀ c a, c.Whole → (f c a).Whole)
    (l : List α) (h : conf.Whole) : (l.foldl f conf).Whole := by
  induction l generalizing conf with
  | nil => exact h
  | cons a l ih => exact ih (hf conf a h)

theorem mem_settings (s : Setting) : s ∈ settings := by
  cases s with
  | exception exc => cases exc <;> decide
  | _ => decide

theorem get_mergePhase : (mergePhase prev conf p).get q t =
    if q = p then picked conf prev p t else conf.get q t := by
  rw [mergePhase, (foldl_mergeSetting settings (by decide) conf).1]
  simp [mem_settings]

theorem names_mergePhase : (mergePhase prev conf p).names q t =
    (conf.names q t || (q = p && prev.names p t)) := by
  rw [mergePhase, (foldl_mergeSetting settings (by decide) conf).2]
  simp [mem_settings]

/-- The phases one after the other: each reads only its own settings and the request's. -/
theorem foldl_mergePhase (l : List Phase) (hl : l.Nodup) (hreq : .request ∉ l) (conf : Conf) :
    (∀ q t, (l.foldl (mergePhase prev) conf).get q t =
      if q ∈ l then picked conf prev q t else conf.get q t) ∧
    ∀ q t, (l.foldl (mergePhase prev) conf).names q t =
      (conf.names q t || (q ∈ l && prev.names q t)) := by
  induction l generalizing conf with
  | nil => simp
  | cons p l ih =>
    obtain ⟨hp, hl⟩ := List.nodup_cons.mp hl
    rw [List.mem_cons, not_or] at hreq
    obtain ⟨hget, hnames⟩ := ih hl hreq.2 (mergePhase prev conf p)
    simp only [List.foldl_cons]
    refine ⟨fun q t => ?_, fun q t => ?_⟩
    · rw [hget, get_mergePhase]
      by_cases hq : q ∈ l
      · have hqp : q ≠ p := fun h => hp (h ▸ hq)
        simp [picked, hq, hqp, hreq.1, get_mergePhase, names_mergePhase]
      · by_cases hqp : q = p
        · subst hqp
          simp [hq]
        · simp [hq, hqp]
    · rw [hnames, names_mergePhase]
      by_cases hqp : q = p
      · subst hqp
        simp [hp]
      · simp [hqp]

theorem map_mergeValue {α : Type} (f : α → Value) (a b : Option α) (d : α) :
    (mergeValue a b d).map f = (a.map f).or ((b.map f).or (some (f d))) := by
  cases a <;> cases b <;> rfl

theorem bind_mergeValue {α β : Type} (f : α → β → Value) {a b : Option α} {a' b' : Option β}
    (d : α) (d' : β) (ha : a.isSome = a'.isSome) (hb : b.isSome = b'.isSome) :
    (mergeValue a b d).bind (fun x => (mergeValue a' b' d').map (f x)) =
      (a.bind fun x => a'.map (f x)).or ((b.bind fun x => b'.map (f x)).or (some (f d d'))) := by
  cases a <;> cases a' <;> cases b <;> cases b' <;> first | rfl | (simp at ha; done) | simp at hb

theorem isSome_mergeValue {α : Type} (a b : Option α) (d : α) :
    (mergeValue a b d).isSome = true := by
  cases a <;> cases b <;> rfl

/-- What the request settings are merged from. -/
theorem get_mergeRequest (hc : conf.Whole) (hp : prev.Whole) (hs : s ≠ .bodyLimit) :
    (mergeRequest conf prev).get .request s =
      (conf.get .request s).or ((prev.get .request s).or (some (defaultValue s))) := by
  obtain ⟨hscore, -, hexc⟩ := hc .request
  obtain ⟨hscore', -, hexc'⟩ := hp .request
  cases s with
  | deadline => simp only [mergeRequest, Conf.get, Function.update_self, map_mergeValue, defaultValue]
  | denyMode => simp only [mergeRequest, Conf.get, Function.update_self, map_mergeValue, defaultValue]
  | hold => simp only [mergeRequest, Conf.get, Function.update_self, map_mergeValue, defaultValue]
  | scoreDeny =>
    simp only [mergeRequest, Conf.get, Function.update_self, defaultValue]
    exact bind_mergeValue _ _ _ hscore hscore'
  | bodyLimit => exact absurd rfl hs
  | exception exc =>
    simp only [mergeRequest, Conf.get, Function.update_self, defaultValue]
    exact bind_mergeValue _ _ _ (hexc exc) (hexc' exc)

theorem get_mergeRequest_other (h : q ≠ .request ∨ s = .bodyLimit) :
    (mergeRequest conf prev).get q s = conf.get q s := by
  rcases h with hq | rfl
  · cases s <;> simp [mergeRequest, Conf.get, hq]
  · rfl

theorem whole_mergeRequest (hc : conf.Whole) : (mergeRequest conf prev).Whole := by
  intro q
  obtain ⟨hscore, hlimit, hexc⟩ := hc q
  by_cases hq : q = .request
  · subst hq
    simp [mergeRequest, isSome_mergeValue, hlimit]
  · simp [mergeRequest, hq, hscore, hlimit, hexc]

/-- What the request limit is merged from. -/
theorem get_mergeBodyLimit : (mergeBodyLimit conf prev).get q s =
    if q = .request ∧ s = .bodyLimit then
      if conf.names .request .bodyLimit then conf.get q s
      else if prev.names .request .bodyLimit then prev.get q s else some (defaultValue s)
    else conf.get q s := by
  unfold mergeBodyLimit
  by_cases hin : q = .request ∧ s = .bodyLimit
  · obtain ⟨rfl, rfl⟩ := hin
    by_cases hconf : conf.names .request .bodyLimit
    · simp [hconf]
    · by_cases hprev : prev.names .request .bodyLimit
      · simp [hconf, hprev, get_copy]
      · simp [hconf, hprev, Conf.get, defaultValue]
  · rw [if_neg hin]
    split_ifs
    · rfl
    · rw [get_name, get_copy, if_neg hin]
    · by_cases hq : q = .request
      · subst hq
        cases s <;> first | rfl | exact absurd ⟨rfl, rfl⟩ hin
      · cases s <;> simp [Conf.get, hq]

theorem names_mergeBodyLimit : (mergeBodyLimit conf prev).names q s =
    (conf.names q s || (q = .request && s = .bodyLimit && prev.names q s)) := by
  unfold mergeBodyLimit
  by_cases hconf : conf.names .request .bodyLimit
  · by_cases hin : q = .request ∧ s = .bodyLimit
    · simp [hin, hconf]
    · have hno : (q = .request && s = .bodyLimit : Bool) = false := by
        simpa using fun h₁ h₂ => hin ⟨h₁, h₂⟩
      simp [hconf, hno]
  · by_cases hprev : prev.names .request .bodyLimit
    · rw [if_neg hconf, if_pos hprev, names_name, names_copy]
      by_cases hin : q = .request ∧ s = .bodyLimit
      · simp [hin, hprev]
      · have hno : (q = .request && s = .bodyLimit : Bool) = false := by
          simpa using fun h₁ h₂ => hin ⟨h₁, h₂⟩
        simp [hno]
    · rw [if_neg hconf, if_neg hprev]
      by_cases hin : q = .request ∧ s = .bodyLimit
      · simp only [hin.1, hin.2, hprev]
        simp [Conf.names]
      · have hno : (q = .request && s = .bodyLimit : Bool) = false := by
          simpa using fun h₁ h₂ => hin ⟨h₁, h₂⟩
        rw [hno]
        simp [Conf.names]

theorem whole_mergeBodyLimit (hc : conf.Whole) (hp : prev.Whole) :
    (mergeBodyLimit conf prev).Whole := by
  unfold mergeBodyLimit
  split_ifs
  · exact hc
  · exact whole_name (whole_copy hc hp)
  · intro q
    obtain ⟨hscore, hlimit, hexc⟩ := hc q
    by_cases hq : q = .request
    · subst hq
      simp [hscore, hexc]
    · simp [hq, hscore, hlimit, hexc]

theorem whole_mergeLocConf (hc : conf.Whole) (hp : prev.Whole) : (mergeLocConf conf prev).Whole :=
  whole_foldl (fun _ _ h => whole_foldl (fun _ _ h => whole_mergeSetting h hp) _ h) _
    (whole_mergeBodyLimit (whole_mergeRequest hc) hp)

theorem not_request_iff : q ∈ [Phase.response, .frameC2s, .frameS2c] ↔ q ≠ .request := by
  cases q <;> simp

theorem get_mergeLocConf : (mergeLocConf conf prev).get q s =
    if q = .request then (mergeBodyLimit (mergeRequest conf prev) prev).get q s
    else picked (mergeBodyLimit (mergeRequest conf prev) prev) prev q s := by
  rw [mergeLocConf, (foldl_mergePhase _ (by decide) (by decide) _).1]
  by_cases hq : q = .request
  · rw [if_pos hq, if_neg (fun h => not_request_iff.mp h hq)]
  · rw [if_neg hq, if_pos (not_request_iff.mpr hq)]

theorem names_mergeLocConf (h : q ≠ .request ∨ s = .bodyLimit) :
    (mergeLocConf conf prev).names q s = (conf.names q s || prev.names q s) := by
  rw [mergeLocConf, (foldl_mergePhase _ (by decide) (by decide) _).2, names_mergeBodyLimit]
  have hbase : (mergeRequest conf prev).names q s = conf.names q s := rfl
  rw [hbase]
  by_cases hq : q = .request
  · have hno : q ∉ [Phase.response, .frameC2s, .frameS2c] := fun h => not_request_iff.mp h hq
    simp [hq, h.resolve_left (not_not.mpr hq)]
  · have hin : q ∈ [Phase.response, .frameC2s, .frameS2c] := not_request_iff.mpr hq
    simp only [hq, hin]
    simp

/-! ### The nearest level -/

/-- A level has the values of the nearest levels that give them; where none does, the request
settings are unset or have their defaults. -/
structure Carries (c : Conf) (near : Phase → Setting → Option Value) : Prop where
  names : ∀ p s, p ≠ .request ∨ s = .bodyLimit → c.names p s = (near p s).isSome
  get : ∀ p s v, near p s = some v → c.get p s = some v
  rest : ∀ s, s ≠ .bodyLimit → near .request s = none →
    c.get .request s = none ∨ c.get .request s = some (defaultValue s)
  whole : c.Whole

variable {own near : Phase → Setting → Option Value}

theorem Reads.carries (h : Reads conf own) : Carries conf own where
  names p s _ := h.names p s
  get p s _ hv := (h.get p s).trans hv
  rest s _ hnone := .inl ((h.get .request s).trans hnone)
  whole := h.whole

/-- The request's value at the merged level. -/
theorem request_value (h : Reads conf own) (hprev : Carries prev near) (s : Setting) :
    (mergeBodyLimit (mergeRequest conf prev) prev).get .request s =
      some (((own .request s).or (near .request s)).getD (defaultValue s)) := by
  rw [get_mergeBodyLimit]
  by_cases hs : s = .bodyLimit
  · subst hs
    have hbase : (mergeRequest conf prev).names .request .bodyLimit =
        conf.names .request .bodyLimit := rfl
    rw [if_pos ⟨rfl, rfl⟩, hbase, h.names, get_mergeRequest_other (.inr rfl), h.get,
      hprev.names .request .bodyLimit (.inr rfl)]
    cases hown : own .request .bodyLimit with
    | some v => simp
    | none =>
      cases hnear : near .request .bodyLimit with
      | some v => simp [hprev.get _ _ _ hnear]
      | none => simp
  · rw [if_neg fun h => hs h.2, get_mergeRequest h.whole hprev.whole hs, h.get]
    cases hown : own .request s with
    | some v => rfl
    | none =>
      cases hnear : near .request s with
      | some v => simp [hprev.get _ _ _ hnear]
      | none => rcases hprev.rest s hs hnear with hget | hget <;> simp [hget]

/-- **One merge**: the values of the level itself, then those of the nearest level, then the request's,
then the defaults. -/
theorem merge_value (h : Reads conf own) (hprev : Carries prev near) (p : Phase) (s : Setting) :
    (mergeLocConf conf prev).get p s = some (((own p s).or (near p s)).getD
      (((own .request s).or (near .request s)).getD (defaultValue s))) := by
  rw [get_mergeLocConf]
  by_cases hp : p = .request
  · subst hp
    rw [if_pos rfl, request_value h hprev]
    cases (own .request s).or (near .request s) <;> rfl
  · have hnot : ¬(p = .request ∧ s = .bodyLimit) := fun h => hp h.1
    have hnames : (mergeBodyLimit (mergeRequest conf prev) prev).names p s = (own p s).isSome := by
      rw [names_mergeBodyLimit, ← h.names]
      simp [hp, Conf.names, mergeRequest]
    rw [if_neg hp, picked, request_value h hprev, hnames, get_mergeBodyLimit, if_neg hnot,
      get_mergeRequest_other (.inl hp), h.get, hprev.names p s (.inl hp)]
    cases hown : own p s with
    | some v => simp
    | none =>
      cases hnear : near p s with
      | some v => simp [hprev.get _ _ _ hnear]
      | none => simp

theorem merge_carries (h : Reads conf own) (hprev : Carries prev near) :
    Carries (mergeLocConf conf prev) fun p s => (own p s).or (near p s) where
  names p s hp := by rw [names_mergeLocConf hp, h.names, hprev.names p s hp, Option.isSome_or]
  get p s v hv := by rw [merge_value h hprev, hv, Option.getD_some]
  rest s _ hnone := .inr (by rw [merge_value h hprev, hnone, Option.getD_none, Option.getD_none])
  whole := whole_mergeLocConf h.whole hprev.whole

end

/-! ### Every depth -/

section

variable {e : Parsers} {outer : List Line}

theorem nearest_cons (level : List Line) (levels : List (List Line)) (p : Phase) (s : Setting) :
    nearest e (level :: levels) p s = (levelGives e level p s).or (nearest e levels p s) := by
  rw [nearest, List.findSome?_cons, nearest]
  cases levelGives e level p s <;> rfl

theorem merged_carries {levels : List (List Line)} {c : Conf} (h : merged e outer levels = .ok c) :
    Carries c (nearest e (levels ++ [outer])) := by
  induction levels generalizing c with
  | nil =>
    have hgives : nearest e ([] ++ [outer]) = levelGives e outer := by
      funext p s
      rw [List.nil_append, nearest_cons, nearest, List.findSome?_nil, Option.or_none]
    rw [hgives]
    exact (readLevel_reads h).carries
  | cons level levels ih =>
    rw [merged] at h
    cases hprev : merged e outer levels with
    | error err => simp [hprev] at h
    | ok prev =>
      cases hconf : readLevel e level createLocConf with
      | error err => simp [hprev, hconf] at h
      | ok conf =>
        rw [hprev, hconf] at h
        cases h
        have hgives : nearest e (level :: levels ++ [outer]) =
            fun p s => (levelGives e level p s).or (nearest e (levels ++ [outer]) p s) := by
          funext p s
          rw [List.cons_append, nearest_cons]
        rw [hgives]
        exact merge_carries (readLevel_reads hconf) (ih hprev)

/-- **The nearest-name rule.**  At every merged level each setting of each phase has the value of the
nearest level that names it for the phase, else that of the nearest level that names it for the
request, else its default. -/
theorem settings_nearest {level : List Line} {levels : List (List Line)} {c : Conf}
    (h : merged e outer (level :: levels) = .ok c) (p : Phase) (s : Setting) :
    c.get p s = some (settingAt e (level :: levels ++ [outer]) p s) := by
  rw [merged] at h
  cases hprev : merged e outer levels with
  | error err => simp [hprev] at h
  | ok prev =>
    cases hconf : readLevel e level createLocConf with
    | error err => simp [hprev, hconf] at h
    | ok conf =>
      rw [hprev, hconf] at h
      cases h
      rw [merge_value (readLevel_reads hconf) (merged_carries hprev), settingAt, List.cons_append,
        nearest_cons, nearest_cons]

/-- The times in milliseconds and the sizes of bytes that the example below has. -/
def sampleParsers : Parsers where
  time word := if word = ascii "20ms" then some 20 else none
  size word := if word = ascii "64k" then some 65536 else none

/-- The outermost level names the deadline of the frames, and the one inside it the limit of the
request. -/
def sampleOuter : List Line :=
  [⟨.deadline, [ascii "waf_deadline", ascii "frame", ascii "20ms"]⟩]

def sampleLevel : List Line :=
  [⟨.bodyLimit, [ascii "waf_body_limit", ascii "request", ascii "64k", ascii "trim"]⟩]

theorem settings_nearest_sample : ∃ c, merged sampleParsers sampleOuter [sampleLevel] = .ok c ∧
    c.get .frameS2c .deadline = some (.deadline 20) ∧
    c.get .response .bodyLimit = some (.bodyLimit 65536 .trim) := by
  have hdeadline : settingAt sampleParsers [sampleLevel, sampleOuter] .frameS2c .deadline =
      .deadline 20 := by decide +kernel
  have hlimit : settingAt sampleParsers [sampleLevel, sampleOuter] .response .bodyLimit =
      .bodyLimit 65536 .trim := by decide +kernel
  obtain ⟨c, hc⟩ : ∃ c, merged sampleParsers sampleOuter [sampleLevel] = .ok c := ⟨_, rfl⟩
  refine ⟨c, hc, ?_, ?_⟩
  · rw [← hdeadline]
    exact settings_nearest hc .frameS2c .deadline
  · rw [← hlimit]
    exact settings_nearest hc .response .bodyLimit

end

end Settings
