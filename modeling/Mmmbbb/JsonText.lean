import Mathlib.Data.List.Basic

/-!
# JSON texts

`json.Marshal` of a `json.RawMessage`: the scanner of `encoding/json` goes over
the bytes one by one, and what is not a JSON text is an error. Space between
the tokens is dropped.
-/

set_option autoImplicit false

namespace JsonText

inductive ParseState
  | objectKey
  | objectValue
  | arrayValue
  deriving DecidableEq, Repr

inductive Step
  | beginValue
  | beginValueOrEmpty
  | beginString
  | beginStringOrEmpty
  | endValue
  | endTop
  | inString
  | inStringEsc
  /-- After the `u` of an escape, so many digits are left. -/
  | inStringEscU (left : ℕ)
  | neg
  | digits
  | zero
  | dot
  | dot0
  | e
  | eSign
  | e0
  | literal (left : List Char)
  deriving DecidableEq, Repr

structure Scanner where
  step : Step
  parseState : List ParseState
  deriving DecidableEq, Repr

def isSpace (c : Char) : Bool := c = ' ' || c = '\t' || c = '\r' || c = '\n'

def isDigit (c : Char) : Bool := decide ('0' ≤ c) && decide (c ≤ '9')

def isHex (c : Char) : Bool :=
  isDigit c || decide ('a' ≤ c) && decide (c ≤ 'f') || decide ('A' ≤ c) && decide (c ≤ 'F')

def maxNestingDepth : ℕ := 10000

abbrev Next := Option (Scanner × Bool)

def Scanner.to (s : Scanner) (step : Step) : Next := some ({ s with step := step }, true)

def Scanner.push (s : Scanner) (step : Step) (ps : ParseState) : Next :=
  if s.parseState.length < maxNestingDepth then some (⟨step, ps :: s.parseState⟩, true) else none

def pop (rest : List ParseState) : Next :=
  some (⟨if rest = [] then .endTop else .endValue, rest⟩, true)

def endTop (s : Scanner) (c : Char) : Next :=
  if isSpace c then some ({ s with step := .endTop }, false) else none

def endValue (s : Scanner) (c : Char) : Next :=
  match s.parseState with
  | [] => endTop s c
  | ps :: rest =>
    if isSpace c then some ({ s with step := .endValue }, false)
    else
      match ps, c with
      | .objectKey, ':' => some (⟨.beginValue, .objectValue :: rest⟩, true)
      | .objectValue, ',' => some (⟨.beginString, .objectKey :: rest⟩, true)
      | .objectValue, '}' => pop rest
      | .arrayValue, ',' => s.to .beginValue
      | .arrayValue, ']' => pop rest
      | _, _ => none

def beginValue (s : Scanner) (c : Char) : Next :=
  if isSpace c then some (s, false)
  else
    match c with
    | '{' => s.push .beginStringOrEmpty .objectKey
    | '[' => s.push .beginValueOrEmpty .arrayValue
    | '"' => s.to .inString
    | '-' => s.to .neg
    | '0' => s.to .zero
    | 't' => s.to (.literal ['r', 'u', 'e'])
    | 'f' => s.to (.literal ['a', 'l', 's', 'e'])
    | 'n' => s.to (.literal ['u', 'l', 'l'])
    | _ => if isDigit c then s.to .digits else none

def beginString (s : Scanner) (c : Char) : Next :=
  if isSpace c then some (s, false) else if c = '"' then s.to .inString else none

def afterInteger (s : Scanner) (c : Char) : Next :=
  if c = '.' then s.to .dot else if c = 'e' || c = 'E' then s.to .e else endValue s c

def inString (s : Scanner) (c : Char) : Next :=
  if c = '"' then s.to .endValue
  else if c = '\\' then s.to .inStringEsc
  else if c < ' ' then none
  else s.to .inString

def Scanner.next (s : Scanner) (c : Char) : Next :=
  match s.step with
  | .beginValue => beginValue s c
  | .beginValueOrEmpty => if c = ']' then endValue s c else beginValue s c
  | .beginString => beginString s c
  | .beginStringOrEmpty =>
    if c = '}' then endValue { s with parseState := .objectValue :: s.parseState.tail } c
    else beginString s c
  | .endValue => endValue s c
  | .endTop => endTop s c
  | .inString => inString s c
  | .inStringEsc =>
    if c ∈ ['b', 'f', 'n', 'r', 't', '\\', '/', '"'] then s.to .inString
    else if c = 'u' then s.to (.inStringEscU 4)
    else none
  | .inStringEscU left =>
    if isHex c then s.to (if left = 1 then .inString else .inStringEscU (left - 1)) else none
  | .neg => if c = '0' then s.to .zero else if isDigit c then s.to .digits else none
  | .digits => if isDigit c then s.to .digits else afterInteger s c
  | .zero => afterInteger s c
  | .dot => if isDigit c then s.to .dot0 else none
  | .dot0 =>
    if isDigit c then s.to .dot0 else if c = 'e' || c = 'E' then s.to .e else endValue s c
  | .e => if c = '+' || c = '-' then s.to .eSign else if isDigit c then s.to .e0 else none
  | .eSign => if isDigit c then s.to .e0 else none
  | .e0 => if isDigit c then s.to .e0 else endValue s c
  | .literal left =>
    match left with
    | [] => none
    | x :: rest =>
      if c = x then s.to (if rest = [] then .endValue else .literal rest) else none

def newScanner : Scanner := ⟨.beginValue, []⟩

def Scanner.eof (s : Scanner) : Bool :=
  s.step = .endTop || (s.next ' ').any (fun r => r.1.step = .endTop)

def scan : Scanner → List UInt8 → Option (List UInt8)
  | s, [] => if s.eof then some [] else none
  | s, b :: bytes =>
    match s.next (Char.ofNat b.toNat) with
    | some (s', kept) => (scan s' bytes).map (fun out => if kept then b :: out else out)
    | none => none

def escape (text : String) : List UInt8 := text.toList.map Char.toUInt8

/-- Bytes that browsers would take for markup are escaped; they can only stand
in strings. -/
def escapeHTML : List UInt8 → List UInt8
  | 0xE2 :: 0x80 :: 0xA8 :: rest => escape "\\u2028" ++ escapeHTML rest
  | 0xE2 :: 0x80 :: 0xA9 :: rest => escape "\\u2029" ++ escapeHTML rest
  | b :: rest =>
    (if b = '<'.toUInt8 then escape "\\u003c"
      else if b = '>'.toUInt8 then escape "\\u003e"
      else if b = '&'.toUInt8 then escape "\\u0026"
      else [b]) ++ escapeHTML rest
  | [] => []

def null : List UInt8 := escape "null"

/-- A nil slice marshals to `null`. -/
def marshal (raw : List UInt8) : Option (List UInt8) :=
  (scan newScanner (if raw = [] then null else raw)).map escapeHTML

example : marshal [] = some null := by decide +kernel

example : marshal (escape "[1, \x7b\"a<b\": \"c\"\x7d , -2.5e+3 ]") =
    some (escape "[1,\x7b\"a\\u003cb\":\"c\"\x7d,-2.5e+3]") := by decide +kernel

example : marshal [1] = none := by decide +kernel

end JsonText
