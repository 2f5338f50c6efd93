import AgentConfig.Json.Basic
import AgentConfig.Number.Literal

namespace AgentConfig.Json

/-- What is wrong with a text that is no JSON document. -/
inductive ReadCause where
  | byteOrderMark
  | expectingValue
  | expectingName
  | expectingColon
  | expectingComma
  | extraData
  | unterminatedString
  | controlCharacter
  | badEscape
  | badUnicodeEscape
  | longInteger (digits : Nat)
  | tooDeep
  deriving DecidableEq, Repr

structure ReadError where
  cause : ReadCause
  position : Nat
  deriving DecidableEq, Repr

def ReadError.isMalformed (e : ReadError) : Bool := e.cause != .tooDeep

def ReadCause.text : ReadCause → Text
  | .byteOrderMark => "Unexpected UTF-8 BOM (decode using utf-8-sig)"
  | .expectingValue => "Expecting value"
  | .expectingName => "Expecting property name enclosed in double quotes"
  | .expectingColon => "Expecting ':' delimiter"
  | .expectingComma => "Expecting ',' delimiter"
  | .extraData => "Extra data"
  | .unterminatedString => "Unterminated string starting at"
  | .controlCharacter => "Invalid control character at"
  | .badEscape => "Invalid \\escape"
  | .badUnicodeEscape => "Invalid \\uXXXX escape"
  | .longInteger digits =>
    "Exceeds the limit (4300 digits) for integer string conversion: value has " ++
      Text.ofNat digits ++ " digits; use sys.set_int_max_str_digits() to increase the limit"
  | .tooDeep => "Too many levels"

/-- The message for an error in `text`, with line, column and position. -/
def ReadError.message (text : Text) (e : ReadError) : Text :=
  match e.cause with
  | .longInteger _ => e.cause.text
  | cause =>
    let before := text.take e.position
    let line := before.count (.char '\n') + 1
    let column := (before.reverse.takeWhile (· != .char '\n')).length + 1
    cause.text ++ ": line " ++ Text.ofNat line ++ " column " ++ Text.ofNat column ++ " (char " ++
      Text.ofNat e.position ++ ")"

structure Cursor where
  position : Nat
  rest : Text

namespace Cursor

def fail {α : Type} (c : Cursor) (cause : ReadCause) : Except ReadError α :=
  .error { cause, position := c.position }

def drop (n : Nat) (c : Cursor) : Cursor := ⟨c.position + n, c.rest.drop n⟩

def peek (c : Cursor) : Option Letter := c.rest.head?

def isSpace (l : Letter) : Bool := l == ' ' || l == '\t' || l == '\n' || l == '\r'

def skipSpace (c : Cursor) : Cursor := c.drop (c.rest.takeWhile isSpace).length

end Cursor

def simpleEscape? : Char → Option Char
  | '"' => some '"'
  | '\\' => some '\\'
  | '/' => some '/'
  | 'b' => some '\x08'
  | 'f' => some '\x0c'
  | 'n' => some '\n'
  | 'r' => some '\r'
  | 't' => some '\t'
  | _ => none

def isHighSurrogate (n : Nat) : Bool := 0xD800 ≤ n && n < 0xDC00

def isLowSurrogate (n : Nat) : Bool := 0xDC00 ≤ n && n < 0xE000

def hexNumber? (digits : Text) : Option Nat := digits.chars?.bind Text.hexNumber?

/-- The four digits after `\u`, which must not be the last letters of the text. -/
def unicodeUnit? : Text → Option (Nat × Text)
  | a :: b :: c :: d :: e :: rest => (hexNumber? [a, b, c, d]).map (·, e :: rest)
  | _ => none

/-- The second half of a surrogate pair, if one follows the first. -/
inductive SecondUnit where
  | none
  | broken
  | unit (value : Nat) (rest : Text)

def secondUnit : Text → SecondUnit
  | .char '\\' :: .char 'u' :: a :: b :: c :: d :: e :: rest =>
    match hexNumber? [a, b, c, d] with
    | some n => if isLowSurrogate n then .unit n (e :: rest) else .none
    | none => .broken
  | _ => .none

/-- Reads the letters of a string up to its closing quote; `start` is the position of the opening
one and `done` holds the letters read, last first. Two escapes for the halves of a pair are one
character. `fuel` exceeds the letters left. -/
def stringBody (start : Nat) :
    (fuel : Nat) → (done : Text) → Cursor → Except ReadError (Text × Cursor)
  | 0, _, _ => .error { cause := .unterminatedString, position := start }
  | fuel + 1, done, cur =>
    match cur.rest with
    | [] => .error { cause := .unterminatedString, position := start }
    | .char '"' :: rest => .ok (done.reverse, ⟨cur.position + 1, rest⟩)
    | [.char '\\'] => .error { cause := .unterminatedString, position := start }
    | .char '\\' :: .char 'u' :: rest =>
      match unicodeUnit? rest with
      | none => (cur.drop 1).fail .badUnicodeEscape
      | some (n, rest) =>
        let next : Cursor := ⟨cur.position + 6, rest⟩
        if isHighSurrogate n then
          match secondUnit rest with
          | .broken => (next.drop 1).fail .badUnicodeEscape
          | .none => stringBody start fuel (.ofCode n :: done) next
          | .unit low rest =>
            let joined := 0x10000 + (n - 0xD800) * 0x400 + (low - 0xDC00)
            stringBody start fuel (.ofCode joined :: done) ⟨cur.position + 12, rest⟩
        else stringBody start fuel (.ofCode n :: done) next
    | .char '\\' :: l :: rest =>
      match l.char?.bind simpleEscape? with
      | some d => stringBody start fuel (.char d :: done) ⟨cur.position + 2, rest⟩
      | none => cur.fail .badEscape
    | l :: rest =>
      if l.code < 0x20 then cur.fail .controlCharacter
      else stringBody start fuel (l :: done) ⟨cur.position + 1, rest⟩

def string (fuel : Nat) (cur : Cursor) : Except ReadError (Text × Cursor) :=
  stringBody (cur.position - 1) fuel [] cur

def numberRun (rest : Text) : List Char :=
  let run := rest.takeWhile (Letter.is fun c => c.isDigit || "+-.eE".toList.contains c)
  run.filterMap Letter.char?

/-- The digits of the whole part: a lone zero, or digits that do not start with one. -/
def wholeDigits (cs : List Char) : List Char :=
  match cs with
  | '0' :: _ => ['0']
  | cs => cs.takeWhile Char.isDigit

def fractionPart : List Char → List Char
  | '.' :: cs =>
    let digits := cs.takeWhile Char.isDigit
    if digits.isEmpty then [] else '.' :: digits
  | _ => []

/-- An exponent mark, an optional sign and at least one digit. -/
def exponentPart : List Char → List Char
  | c :: cs =>
    if c = 'e' ∨ c = 'E' then
      let sign := cs.take 1 |>.filter fun d => d == '+' || d == '-'
      let digits := (cs.drop sign.length).takeWhile Char.isDigit
      if digits.isEmpty then [] else c :: sign ++ digits
    else []
  | [] => []

def number (cur : Cursor) : Except ReadError (Json × Cursor) :=
  let run := numberRun cur.rest
  let negative := run.head? = some '-'
  let unsigned := if negative then run.drop 1 else run
  let whole := wholeDigits unsigned
  let fraction := fractionPart (unsigned.drop whole.length)
  let exponent := exponentPart (unsigned.drop (whole.length + fraction.length))
  let chars := whole ++ fraction ++ exponent
  let next := cur.drop (chars.length + if negative then 1 else 0)
  if whole.isEmpty then cur.fail .expectingValue
  else if fraction.isEmpty && exponent.isEmpty then
    if Literal.maxDigits < whole.length then cur.fail (.longInteger whole.length)
    else
      match Literal.digits? 10 whole with
      | some n => .ok (.int (if negative then -(n : Int) else n), next)
      | none => cur.fail .expectingValue
  else
    match Literal.decimal? negative chars with
    | some x => .ok (.real x, next)
    | none => cur.fail .expectingValue

def words : List (Text × Json) :=
  [("null", .null), ("true", .bool true), ("false", .bool false), ("NaN", .real .nan),
    ("Infinity", .real (.infinite false)), ("-Infinity", .real (.infinite true))]

def wordOrNumber (cur : Cursor) : Except ReadError (Json × Cursor) :=
  match words.find? fun w => w.1.isPrefixOf cur.rest with
  | some (word, value) => .ok (value, cur.drop word.length)
  | none => number cur

/-- How many collections may stand one inside another. -/
def maxLevels : Nat := 991

mutual

/-- Reads one document at the cursor, which may have `levels` collections one inside another. `fuel`
exceeds twice the letters left: a collection and its first item may both start at one letter. -/
def value (levels : Nat) : (fuel : Nat) → Cursor → Except ReadError (Json × Cursor)
  | 0, cur => cur.fail .expectingValue
  | fuel + 1, cur =>
    match cur.rest with
    | [] => cur.fail .expectingValue
    | .char '"' :: _ => (string fuel (cur.drop 1)).map fun (s, next) => (.str s, next)
    | .char '[' :: _ =>
      let next := (cur.drop 1).skipSpace
      if levels = 0 then cur.fail .tooDeep
      else if next.peek = some (.char ']') then .ok (.arr [], next.drop 1)
      else (items (levels - 1) fuel next).map fun (vs, next) => (.arr vs, next)
    | .char '\x7b' :: _ =>
      let next := (cur.drop 1).skipSpace
      if levels = 0 then cur.fail .tooDeep
      else if next.peek = some (.char '\x7d') then .ok (.obj [], next.drop 1)
      else (members (levels - 1) fuel [] next).map fun (ms, next) => (.obj ms, next)
    | _ => wordOrNumber cur

def items (levels : Nat) : (fuel : Nat) → Cursor → Except ReadError (List Json × Cursor)
  | 0, cur => cur.fail .expectingValue
  | fuel + 1, cur =>
    match value levels fuel cur with
    | .error e => .error e
    | .ok (v, next) =>
      let next := next.skipSpace
      match next.peek with
      | some (.char ']') => .ok ([v], next.drop 1)
      | some (.char ',') =>
        (items levels fuel (next.drop 1).skipSpace).map fun (vs, next) => (v :: vs, next)
      | _ => next.fail .expectingComma

def members (levels : Nat) :
    (fuel : Nat) → (done : Members) → Cursor → Except ReadError (Members × Cursor)
  | 0, _, cur => cur.fail .expectingName
  | fuel + 1, done, cur =>
    if cur.peek ≠ some (.char '"') then cur.fail .expectingName
    else
      match string fuel (cur.drop 1) with
      | .error e => .error e
      | .ok (key, next) =>
        let next := next.skipSpace
        if next.peek ≠ some (.char ':') then next.fail .expectingColon
        else
          match value levels fuel (next.drop 1).skipSpace with
          | .error e => .error e
          | .ok (v, next) =>
            let next := next.skipSpace
            let done := done.put key v
            match next.peek with
            | some (.char '\x7d') => .ok (done, next.drop 1)
            | some (.char ',') => members levels fuel done (next.drop 1).skipSpace
            | _ => next.fail .expectingComma

end

def read (text : Text) : Except ReadError Json :=
  let start : Cursor := ⟨0, text⟩
  if start.peek = some (.char '\ufeff') then start.fail .byteOrderMark
  else
    match value maxLevels (2 * start.rest.length + 1) start.skipSpace with
    | .error e => .error e
    | .ok (v, next) =>
      let next := next.skipSpace
      if next.rest.isEmpty then .ok v else next.fail .extraData

end AgentConfig.Json
