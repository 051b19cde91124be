import PlacitumNode.Codec.Utf8
import PlacitumNode.Lib.Loop

/-!
# Reading and writing JSON (`codec/ngx_http_waf_json.c`)

The reader walks over a payload without building a tree: `rest` is what lies between `jp->pos` and
`jp->end`, a call that fails returns the text it leaves in `jp->error`, and the two loops (over the
units of a string, over the values of a document) are loops in the sense of `Loop`.  The writer
appends to a buffer of a fixed size and remembers that something did not fit.

* `jpUnit`, `jpStringBuf`, `jpString`: strings;
* `jpBool`, `jpNull`, `jpNumberSkip`: literals and numbers;
* `jpSkip`, `jpEnd`: a whole value, and the end of the document;
* `jwRaw`, `jwString`: the writer.
-/

namespace Codec

open Octets

/-- `NGX_HTTP_WAF_JSON_MAX_DEPTH` -/
def maxDepth : ℕ := 16

def isWs (c : UInt8) : Bool := c = 32 ∨ c = 9 ∨ c = 13 ∨ c = 10

/-- `ngx_http_waf_jp_ws` -/
def jpWs (rest : Bytes) : Bytes := rest.dropWhile isWs

/-! ### Strings -/

def hexValue (c : UInt8) : Option ℕ :=
  if 48 ≤ c ∧ c ≤ 57 then some (c.toNat - 48)
  else if 97 ≤ c ∧ c ≤ 102 then some (c.toNat - 97 + 10)
  else if 65 ≤ c ∧ c ≤ 70 then some (c.toNat - 65 + 10)
  else none

/-- The loop of `ngx_http_waf_jp_hex4`, with `n` digits to read. -/
def hexDigits : (n v : ℕ) → Bytes → Except String (ℕ × Bytes)
  | 0, v, rest => .ok (v, rest)
  | _ + 1, _, [] => .error "truncated \\u escape"
  | n + 1, v, c :: rest =>
    match hexValue c with
    | some d => hexDigits n (v * 16 + d) rest
    | none => .error "invalid \\u escape"

/-- `ngx_http_waf_jp_hex4` -/
def jpHex4 (rest : Bytes) : Except String (ℕ × Bytes) :=
  if rest.length < 4 then .error "truncated \\u escape" else hexDigits 4 0 rest

/-- The escapes of one character. -/
def escape (c : UInt8) : Option UInt8 :=
  if c = 34 then some 34
  else if c = 92 then some 92
  else if c = 47 then some 47
  else if c = 98 then some 8
  else if c = 102 then some 12
  else if c = 110 then some 10
  else if c = 114 then some 13
  else if c = 116 then some 9
  else none

/-- A high surrogate `cp` takes the escape that follows it along when that is a low one. -/
def jpSurrogate (cp : ℕ) (rest : Bytes) : Except String (Bytes × Bytes) :=
  if 6 ≤ rest.length ∧ rest.take 2 = [92, 117] then
    match jpHex4 (rest.drop 2) with
    | .error e => .error e
    | .ok (low, after) =>
      if 0xdc00 ≤ low ∧ low ≤ 0xdfff then
        .ok (utf8Encode (0x10000 + ((cp - 0xd800) <<< 10) + (low - 0xdc00)), after)
      else .ok (utf8Encode 0xfffd, rest)
  else .ok (utf8Encode 0xfffd, rest)

/-- The part of `ngx_http_waf_jp_unit` after `\u`. -/
def jpCodePoint (rest : Bytes) : Except String (Bytes × Bytes) :=
  match jpHex4 rest with
  | .error e => .error e
  | .ok (cp, rest) =>
    if 0xdc00 ≤ cp ∧ cp ≤ 0xdfff then .ok (utf8Encode 0xfffd, rest)
    else if 0xd800 ≤ cp ∧ cp ≤ 0xdbff then jpSurrogate cp rest
    else .ok (utf8Encode cp, rest)

/-- `ngx_http_waf_jp_unit`: the bytes of one unit of a string, and the rest. -/
def jpUnit : Bytes → Except String (Bytes × Bytes)
  | [] => .error "unterminated string"
  | c :: rest =>
    if c < 0x20 then .error "control character in string"
    else if 0x80 ≤ c then
      match utf8Valid (c :: rest) with
      | .ok n => .ok ((c :: rest).take n, (c :: rest).drop n)
      | .error _ => .error "invalid UTF-8 in string"
    else if c ≠ 92 then .ok ([c], rest)
    else match rest with
      | [] => .error "unterminated string"
      | e :: rest =>
        match escape e with
        | some b => .ok ([b], rest)
        | none => if e ≠ 117 then .error "unknown escape sequence" else jpCodePoint rest

/-- The state of the loop of `ngx_http_waf_jp_string_buf`. -/
structure StrBuf where
  out : Bytes
  full : Bool
  rest : Bytes

/-- One iteration: a result `none` is `NGX_DECLINED`, the string did not fit the buffer. -/
def strStep (size : ℕ) (s : StrBuf) : StrBuf ⊕ Except String (Option Bytes × Bytes) :=
  match s.rest with
  | [] => .inr (.error "unterminated string")
  | c :: rest =>
    if c = 34 then .inr (.ok (if s.full then none else some s.out, rest))
    else match jpUnit (c :: rest) with
      | .error e => .inr (.error e)
      | .ok (unit, rest) =>
        if s.full ∨ size - s.out.length < unit.length then .inl { s with full := true, rest := rest }
        else .inl { s with out := s.out ++ unit, rest := rest }

/-- `ngx_http_waf_jp_string_buf` -/
def jpStringBuf (size : ℕ) (rest : Bytes) : Except String (Option Bytes × Bytes) :=
  match jpWs rest with
  | [] => .error "expected string"
  | c :: rest =>
    if c ≠ 34 then .error "expected string"
    else (Loop.exec (strStep size) (fun s => s.rest.length) ⟨[], false, rest⟩).getD
      (.error "unterminated string")

/-- `ngx_http_waf_jp_string_skip` -/
def jpStringSkip (rest : Bytes) : Except String Bytes :=
  match jpStringBuf 0 rest with
  | .error e => .error e
  | .ok (_, rest) => .ok rest

/-- How far the closing quote is: the loop of `ngx_http_waf_jp_string`, which passes over the byte
after a backslash (`escaped`). -/
def quoteAt : (escaped : Bool) → Bytes → Option ℕ
  | _, [] => none
  | true, _ :: rest => (quoteAt false rest).map (· + 1)
  | false, c :: rest => if c = 34 then some 0 else (quoteAt (c = 92) rest).map (· + 1)

/-- `ngx_http_waf_jp_string` -/
def jpString (rest : Bytes) : Except String (Option Bytes × Bytes) :=
  match jpWs rest with
  | [] => .error "expected string"
  | c :: rest =>
    if c ≠ 34 then .error "expected string"
    else match quoteAt false rest with
      | none => .error "unterminated string"
      | some size => jpStringBuf size (c :: rest)

/-! ### Numbers and literals -/

def isDigit (c : UInt8) : Bool := 48 ≤ c ∧ c ≤ 57

/-- `ngx_http_waf_jp_literal` -/
def jpLiteral (lit rest : Bytes) : Option Bytes :=
  if rest.take lit.length = lit then some (rest.drop lit.length) else none

/-- `ngx_http_waf_jp_bool` -/
def jpBool (rest : Bytes) : Except String (Bool × Bytes) :=
  let rest := jpWs rest
  match jpLiteral (ascii "true") rest with
  | some rest => .ok (true, rest)
  | none =>
    match jpLiteral (ascii "false") rest with
    | some rest => .ok (false, rest)
    | none => .error "expected boolean"

/-- `ngx_http_waf_jp_null`: the rest after `null`, when it is there. -/
def jpNull (rest : Bytes) : Option Bytes := jpLiteral (ascii "null") (jpWs rest)

/-- `ngx_http_waf_jp_digits` -/
def jpDigits (rest : Bytes) : Except String Bytes :=
  if (rest.takeWhile isDigit).length = 0 then .error "invalid number"
  else .ok (rest.dropWhile isDigit)

/-- The rest after the byte `c`, when it is there. -/
def jpByte (c : UInt8) (rest : Bytes) : Option Bytes :=
  if rest.head? = some c then some rest.tail else none

/-- The fraction of a number. -/
def jpFraction (rest : Bytes) : Except String Bytes :=
  match jpByte 46 rest with
  | some rest => jpDigits rest
  | none => .ok rest

/-- The sign of an exponent. -/
def jpSign (rest : Bytes) : Bytes :=
  if rest.head? = some 43 ∨ rest.head? = some 45 then rest.tail else rest

/-- The exponent of a number. -/
def jpExponent (rest : Bytes) : Except String Bytes :=
  if rest.head? = some 101 ∨ rest.head? = some 69 then jpDigits (jpSign rest.tail) else .ok rest

/-- The integer part of a number. -/
def jpIntPart (rest : Bytes) : Except String Bytes :=
  match jpByte 48 rest with
  | some rest => .ok rest
  | none => jpDigits rest

/-- `ngx_http_waf_jp_number_skip` -/
def jpNumberSkip (rest : Bytes) : Except String Bytes := do
  let rest ← jpIntPart ((jpByte 45 rest).getD rest)
  let rest ← jpFraction rest
  jpExponent rest

/-! ### Values -/

/-- `ngx_http_waf_jp_key_skip` -/
def jpKeySkip (rest : Bytes) : Except String Bytes :=
  match jpStringSkip rest with
  | .error e => .error e
  | .ok rest =>
    match jpByte 58 (jpWs rest) with
    | some rest => .ok rest
    | none => .error "expected colon after member name"

/-- The state of the loops of `ngx_http_waf_jp_skip`: the closing brackets of the open containers,
innermost first, and whether a value or what comes after one is read next. -/
structure Skip where
  stack : List UInt8
  rest : Bytes
  after : Bool

/-- The value has been read, if it could be. -/
def Skip.readValue (s : Skip) : Except String Bytes → Skip ⊕ Except String Bytes
  | .error e => .inr (.error e)
  | .ok rest => .inl { s with rest := rest, after := true }

/-- A value of the container that `close` ends comes next. -/
def Skip.expectValue (close : UInt8) (stack : List UInt8) :
    Except String Bytes → Skip ⊕ Except String Bytes
  | .error e => .inr (.error e)
  | .ok rest => .inl ⟨close :: stack, rest, false⟩

/-- The cases of the switch that open a container. -/
def skipOpen (s : Skip) (c : UInt8) (rest : Bytes) : Skip ⊕ Except String Bytes :=
  if s.stack.length = maxDepth then .inr (.error "message nested too deeply")
  else
    -- an opening brace is closed by a brace, an opening bracket by a bracket
    let close := if c = 123 then 125 else 93
    match jpByte close (jpWs rest) with
    | some rest => .inl { s with rest := rest, after := true }
    | none => Skip.expectValue close s.stack (if c = 123 then jpKeySkip (jpWs rest) else .ok (jpWs rest))

/-- One iteration of the outer loop up to the value, or of the inner loop after it. -/
def skipStep (s : Skip) : Skip ⊕ Except String Bytes :=
  if s.after then
    match s.stack with
    | [] => .inr (.ok s.rest)
    | close :: stack =>
      match jpWs s.rest with
      | [] => .inr (.error "truncated value")
      | c :: rest =>
        if c = close then .inl ⟨stack, rest, true⟩
        else if c ≠ 44 then .inr (.error "expected comma")
        else Skip.expectValue close stack (if close = 125 then jpKeySkip rest else .ok rest)
  else
    match jpWs s.rest with
    | [] => .inr (.error "truncated value")
    | c :: rest =>
      if c = 123 ∨ c = 91 then skipOpen s c rest
      else if c = 34 then s.readValue (jpStringSkip (c :: rest))
      else if c = 116 ∨ c = 102 then s.readValue ((jpBool (c :: rest)).map Prod.snd)
      else if c = 110 then s.readValue ((jpNull (c :: rest)).elim (.error "unexpected value") .ok)
      else if c ≠ 45 ∧ (c < 48 ∨ 57 < c) then .inr (.error "unexpected character")
      else s.readValue (jpNumberSkip (c :: rest))

/-- `ngx_http_waf_jp_skip` -/
def jpSkip (rest : Bytes) : Except String Bytes :=
  (Loop.exec skipStep (fun s => s.rest.length) ⟨[], rest, false⟩).getD (.error "truncated value")

/-- `ngx_http_waf_jp_end` -/
def jpEnd (rest : Bytes) : Except String Unit :=
  if jpWs rest = [] then .ok () else .error "trailing data after the document"

/-! ### The writer -/

/-- `ngx_http_waf_jw_t`: what has been written, how much fits, and whether something did not. -/
structure Jw where
  out : Bytes
  size : ℕ
  overflow : Bool

/-- `ngx_http_waf_jw_ok` -/
def jwOk (jw : Jw) : Bool := !jw.overflow

/-- `ngx_http_waf_jw_raw` -/
def jwRaw (jw : Jw) (data : Bytes) : Jw :=
  if jw.size - jw.out.length < data.length then { jw with overflow := true }
  else { jw with out := jw.out ++ data }

/-- The text of a control character. -/
def controlText (c : UInt8) : Bytes :=
  if c = 10 then [92, 110]
  else if c = 13 then [92, 114]
  else if c = 9 then [92, 116]
  else if c = 8 then [92, 98]
  else if c = 12 then [92, 102]
  else [92, 117, 48, 48, hexDigit (c.toNat / 16 % 16), hexDigit (c.toNat % 16)]

/-- The control characters that `jw_string` writes with `ngx_http_waf_jw_lit`, which goes on after
an overflow; every other character below 0x80 ends the call when it does not fit. -/
def jwNamed (c : UInt8) : Bool := c = 10 ∨ c = 13 ∨ c = 9 ∨ c = 8 ∨ c = 12

/-- The text of one character below 0x80. -/
def charText (c : UInt8) : Bytes :=
  if c = 34 ∨ c = 92 then [92, c] else if 0x20 ≤ c then [c] else controlText c

/-- The state of the loop of `ngx_http_waf_jw_string`. -/
structure WriteStr where
  jw : Jw
  data : Bytes

/-- One iteration; a result is the writer at the end of the loop, or at an early return. -/
def writeStep (s : WriteStr) : WriteStr ⊕ Jw × Bool :=
  match s.data with
  | [] => .inr (s.jw, true)
  | c :: rest =>
    if 0x80 ≤ c then
      match utf8Valid (c :: rest) with
      | .ok n => .inl ⟨jwRaw s.jw ((c :: rest).take n), (c :: rest).drop n⟩
      | .error bad => .inl ⟨jwRaw s.jw [0xef, 0xbf, 0xbd], (c :: rest).drop bad⟩
    else if jwNamed c then .inl ⟨jwRaw s.jw (charText c), rest⟩
    else if s.jw.size - s.jw.out.length < (charText c).length then
      .inr ({ s.jw with overflow := true }, false)
    else .inl ⟨{ s.jw with out := s.jw.out ++ charText c }, rest⟩

/-- `ngx_http_waf_jw_string` -/
def jwString (jw : Jw) (data : Bytes) : Jw :=
  match Loop.exec writeStep (fun s => s.data.length) ⟨jwRaw jw [34], data⟩ with
  | some (jw, true) => jwRaw jw [34]
  | some (jw, false) => jw
  | none => jw

end Codec
