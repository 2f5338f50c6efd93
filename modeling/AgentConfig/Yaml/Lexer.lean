import AgentConfig.Number.Literal
import AgentConfig.Yaml.Scalar

namespace AgentConfig.Yaml

/-- The start of a node that may turn out to be a key: how many tokens came before it, and where it
stands. A key is required where only one can stand, at the indentation of a block mapping. -/
structure KeyPlace where
  tokens : Nat
  required : Bool
  index : Nat
  line : Nat
  column : Nat

structure Lexer where
  cursor : Cursor
  flowLevel : Nat := 0
  /-- The column of the innermost block collection, `-1` outside any. -/
  indent : Int := -1
  /-- The columns of the collections around it. -/
  outer : List Int := []
  allowKey : Bool := true
  /-- The possible keys, with the flow level each stands on. -/
  keys : List (Nat × KeyPlace) := []
  tokens : List Token := []
  count : Nat := 0

namespace Lexer

abbrev Step := Except Fault Lexer

def push (t : Token) (s : Lexer) : Lexer := { s with tokens := t :: s.tokens, count := s.count + 1 }

def insert (place : Nat) (t : Token) (s : Lexer) : Lexer :=
  { s with tokens := s.tokens.insertIdx (s.count - place) t, count := s.count + 1 }

def move (cursor : Cursor) (s : Lexer) : Lexer := { s with cursor }

def inFlow (s : Lexer) : Bool := s.flowLevel != 0

def currentKey? (s : Lexer) : Option KeyPlace := s.keys.lookup s.flowLevel

/-- Gives up the possible key of the current level, which must not be a required one. -/
def dropKey (s : Lexer) : Step :=
  match s.currentKey? with
  | none => .ok s
  | some key =>
    if key.required then .error .malformed
    else .ok { s with keys := s.keys.filter fun k => k.1 != s.flowLevel }

def saveKey (s : Lexer) : Step :=
  if s.allowKey then do
    let s ← s.dropKey
    let c := s.cursor
    let key : KeyPlace :=
      { tokens := s.count, required := !s.inFlow && s.indent == c.column
        index := c.index, line := c.line, column := c.column }
    .ok { s with keys := (s.flowLevel, key) :: s.keys }
  else .ok s

def isStale (s : Lexer) (key : KeyPlace) : Bool :=
  key.line != s.cursor.line || 1024 < s.cursor.index - key.index

/-- Gives up the possible keys that are stale, none of which must be a required one. -/
def dropStaleKeys (s : Lexer) : Step :=
  if s.keys.any fun k => s.isStale k.2 && k.2.required then .error .malformed
  else .ok { s with keys := s.keys.filter fun k => !s.isStale k.2 }

/-- Leaves the block collections indented more than `column`: how many they are, the column of the
one that stays innermost, and those around it. -/
def closeTo (column indent : Int) : List Int → Nat × Int × List Int
  | [] => (0, indent, [])
  | next :: outer =>
    if column < indent then
      let (closed, indent, outer) := closeTo column next outer
      (closed + 1, indent, outer)
    else (0, indent, next :: outer)

def unwind (column : Int) (s : Lexer) : Lexer :=
  if s.inFlow then s
  else
    let (closed, indent, outer) := closeTo column s.indent s.outer
    let tokens := List.replicate closed .blockEnd ++ s.tokens
    { s with indent, outer, tokens, count := s.count + closed }

/-- Opens a block collection at the column unless one is open there; `true` when it does. -/
def openAt (column : Nat) (s : Lexer) : Bool × Lexer :=
  if s.indent < column then (true, { s with indent := column, outer := s.indent :: s.outer })
  else (false, s)

/-- Past spaces, comments and line breaks. A new line outside flow collections may start a key. -/
def skipToToken : (fuel : Nat) → Lexer → Lexer
  | 0, s => s
  | fuel + 1, s =>
    let c := s.cursor.skipSpaces
    let c := if c.peek = some '#' then c.skipLine else c
    match c.lineBreak? with
    | none => s.move c
    | some (_, c) => skipToToken fuel { s with cursor := c, allowKey := s.allowKey || !s.inFlow }

def skipBlanks (s : Lexer) : Lexer :=
  let c := s.cursor
  let c := if c.index = 0 ∧ c.peek = some '\ufeff' then c.advance else c
  skipToToken c.limit (s.move c)

def name (c : Cursor) : Except Fault (Text × Cursor) :=
  let (run, c) := c.takeWhile isNameChar
  if run.isEmpty then .error .malformed else .ok (Text.ofChars run, c)

def tooManyDigits (digits : Nat) : Text :=
  "Exceeds the limit (4300 digits) for integer string conversion: value has " ++
    Text.ofNat digits ++
    " digits; use sys.set_int_max_str_digits() to increase the limit"

def decimal (c : Cursor) : Except Fault (Nat × Cursor) :=
  let (run, c) := c.takeWhile Char.isDigit
  if run.isEmpty then .error .malformed
  else if Literal.maxDigits < run.length then .error (.unconvertible (tooManyDigits run.length))
  else .ok (run.foldl (fun n d => 10 * n + (d.toNat - 48)) 0, c)

def expect (ok : Bool) : Except Fault Unit := if ok then .ok () else .error .malformed

def isAddressChar (c : Char) : Bool := c.isAlphanum || "-;/?:@&=+$,_.!~*'()[]%".toList.contains c

/-- The bytes of consecutive `%xx` escapes; `fuel` bounds their number. -/
def addressEscapes : (fuel : Nat) → Cursor → Except Fault (List UInt8 × Cursor)
  | 0, c => .ok ([], c)
  | fuel + 1, c =>
    if c.peek = some '%' then
      match (c.rest.drop 1).take 2 with
      | [a, b] =>
        match Text.hexNumber? [a, b] with
        | none => .error .malformed
        | some n =>
          (addressEscapes fuel (c.advanceBy 3)).map fun (bytes, c) => (UInt8.ofNat n :: bytes, c)
      | _ => .error .malformed
    else .ok ([], c)

/-- The address of a tag after `done`, which holds its characters so far, last first. `fuel` bounds
its length. -/
def addressFrom : (fuel : Nat) → (done : List Char) → Cursor → Except Fault (List Char × Cursor)
  | 0, done, c => .ok (done.reverse, c)
  | fuel + 1, done, c =>
    match c.peek with
    | none => .ok (done.reverse, c)
    | some ch =>
      if ch = '%' then
        match addressEscapes c.limit c with
        | .error e => .error e
        | .ok (bytes, c) =>
          match String.fromUTF8? ⟨bytes.toArray⟩ with
          | none => .error .malformed
          | some s => addressFrom fuel (s.toList.reverse ++ done) c
      else if isAddressChar ch then addressFrom fuel (ch :: done) c.advance
      else .ok (done.reverse, c)

def address (c : Cursor) : Except Fault (Text × Cursor) := do
  let (text, next) ← addressFrom c.limit [] c
  expect (next.index != c.index)
  .ok (Text.ofChars text, next)

def handle (c : Cursor) : Except Fault (Text × Cursor) := do
  expect (c.peek == some '!')
  let c := c.advance
  if c.peek = some ' ' then .ok ("!", c)
  else
    let (run, c) := c.takeWhile isNameChar
    expect (c.peek == some '!')
    .ok (Text.ofChars ('!' :: run ++ ['!']), c.advance)

def directive (c : Cursor) : Except Fault (Directive × Cursor) := do
  let (word, c) ← name c.advance
  expect (isEndOrSpace c.peek)
  if word = "YAML" then
    let (major, c) ← decimal c.skipSpaces
    expect (c.peek == some '.')
    let (minor, c) ← decimal c.advance
    expect (isEndOrSpace c.peek)
    .ok (.version major minor, ← restOfLine c)
  else if word = "TAG" then
    let (h, c) ← handle c.skipSpaces
    expect (c.peek == some ' ')
    let (uri, c) ← address c.skipSpaces
    expect (isEndOrSpace c.peek)
    .ok (.tag h uri, ← restOfLine c)
  else .ok (.other word, ← restOfLine c.skipLine)

def anchorName (c : Cursor) : Except Fault (Text × Cursor) := do
  let (word, c) ← name c.advance
  let ends := isEndOrBlank c.peek || c.peek.any fun ch => "?:,]\x7d%@`".toList.contains ch
  expect ends
  .ok (word, c)

/-- Whether a `!` follows in the same word, so that the tag starts with a handle. -/
def hasHandle (c : Cursor) : Bool :=
  (c.rest.takeWhile fun ch => !isEndOrSpace (some ch)).contains '!'

def tag (c : Cursor) : Except Fault (Token × Cursor) := do
  let next := c.advance
  let (token, c) ←
    if next.peek = some '<' then do
      let (uri, c) ← address next.advance
      expect (c.peek == some '>')
      .ok (Token.tag none uri, c.advance)
    else if isEndOrBlank next.peek then .ok (Token.tag none "!", next)
    else do
      let (h, c) ← if hasHandle next then handle c else .ok ("!", next)
      let (suffix, c) ← address c
      .ok (Token.tag (some h) suffix, c)
  expect (isEndOrSpace c.peek)
  .ok (token, c)

def streamEnd (s : Lexer) : Step := do
  let s ← (s.unwind (-1)).dropKey
  .ok ({ s with allowKey := false, keys := [] }.push .streamEnd)

/-- A directive or a document separator: it closes all block collections. -/
def atMargin (t : Token) (after : Cursor) (s : Lexer) : Step := do
  let s ← (s.unwind (-1)).dropKey
  .ok (({ s with allowKey := false }.move after).push t)

def flowStart (t : Token) (s : Lexer) : Step := do
  let s ← s.saveKey
  let s := { s with flowLevel := s.flowLevel + 1, allowKey := true }
  .ok ((s.move s.cursor.advance).push t)

def flowEnd (t : Token) (s : Lexer) : Step := do
  expect s.inFlow
  let s ← s.dropKey
  let s := { s with flowLevel := s.flowLevel - 1, allowKey := false }
  .ok ((s.move s.cursor.advance).push t)

def flowEntry (s : Lexer) : Step := do
  let s ← { s with allowKey := true }.dropKey
  .ok ((s.move s.cursor.advance).push .flowEntry)

/-- Starts a block collection at the cursor if none is open at its column. -/
def startBlock (t : Token) (s : Lexer) : Step :=
  if s.inFlow then .ok s
  else if !s.allowKey then .error .malformed
  else
    let (opened, s) := s.openAt s.cursor.column
    .ok (if opened then s.push t else s)

def blockEntry (s : Lexer) : Step := do
  let s ← s.startBlock .blockSequenceStart
  let s ← { s with allowKey := true }.dropKey
  .ok ((s.move s.cursor.advance).push .blockEntry)

def explicitKey (s : Lexer) : Step := do
  let s ← s.startBlock .blockMappingStart
  let s ← { s with allowKey := !s.inFlow }.dropKey
  .ok ((s.move s.cursor.advance).push .key)

/-- A colon: it turns the remembered node of this level into a key, or follows an explicit key. -/
def valueMark (s : Lexer) : Step := do
  match s.currentKey? with
  | some key =>
    let s := { s with keys := s.keys.filter fun k => k.1 != s.flowLevel }
    let s := s.insert key.tokens .key
    let (opened, s) := if s.inFlow then (false, s) else s.openAt key.column
    let s := if opened then s.insert key.tokens .blockMappingStart else s
    .ok (({ s with allowKey := false }.move s.cursor.advance).push .value)
  | none =>
    let s ← s.startBlock .blockMappingStart
    let s ← { s with allowKey := !s.inFlow }.dropKey
    .ok ((s.move s.cursor.advance).push .value)

/-- A token that may be, or stand before, a key. -/
def keyable (s : Lexer) (scan : Cursor → Except Fault (Token × Cursor)) : Step := do
  let s ← s.saveKey
  let (t, c) ← scan s.cursor
  .ok (({ s with allowKey := false }.move c).push t)

def plain (s : Lexer) : Step := do
  let s ← s.saveKey
  let scalar := plainScalar s.inFlow (s.indent + 1) s.cursor
  .ok ({ s with allowKey := scalar.allowKey, cursor := scalar.cursor }.push
    (.scalar (Text.ofChars scalar.text) true))

def block (s : Lexer) : Step := do
  let s ← { s with allowKey := true }.dropKey
  let (text, c) ← blockScalar s.indent s.cursor
  .ok ((s.move c).push (.scalar (Text.ofChars text) false))

def plainStarts (inFlow : Bool) (c : Cursor) : Bool :=
  c.peek.any fun ch =>
    !(isEndOrBlank (some ch) || "-?:,[]\x7b\x7d#&*!|>'\"%@`".toList.contains ch) ||
      (!isEndOrBlank (c.peekAt 1) && (ch == '-' || (!inFlow && (ch == '?' || ch == ':'))))

def token (s : Lexer) : Step :=
  let c := s.cursor
  let atStart := c.column == 0
  let spaced := isEndOrBlank (c.peekAt 1)
  match c.peek with
  | none => s.streamEnd
  | some ch =>
    if ch = '%' ∧ atStart then do
      let (d, after) ← directive c
      s.atMargin (.directive d) after
    else if atStart && c.hasMark '-' then s.atMargin .documentStart (c.advanceBy 3)
    else if atStart && c.hasMark '.' then s.atMargin .documentEnd (c.advanceBy 3)
    else if ch = '[' then s.flowStart .flowSequenceStart
    else if ch = '\x7b' then s.flowStart .flowMappingStart
    else if ch = ']' then s.flowEnd .flowSequenceEnd
    else if ch = '\x7d' then s.flowEnd .flowMappingEnd
    else if ch = ',' then s.flowEntry
    else if ch = '-' ∧ spaced then s.blockEntry
    else if ch = '?' ∧ (s.inFlow || spaced) then s.explicitKey
    else if ch = ':' ∧ (s.inFlow || spaced) then s.valueMark
    else if ch = '*' then s.keyable fun c => (anchorName c).map fun (n, c) => (.alias n, c)
    else if ch = '&' then s.keyable fun c => (anchorName c).map fun (n, c) => (.anchor n, c)
    else if ch = '!' then s.keyable tag
    else if (ch = '|' ∨ ch = '>') ∧ !s.inFlow then s.block
    else if ch = '\'' ∨ ch = '"' then
      s.keyable fun c => (quotedScalar c).map fun (text, c) => (.scalar text false, c)
    else if plainStarts s.inFlow c then s.plain
    else .error .malformed

def step (s : Lexer) : Step := do
  let s ← s.skipBlanks.dropStaleKeys
  (s.unwind s.cursor.column).token

/-- The settled tokens: those before the first node that may still turn out to be a key. -/
def settled (s : Lexer) : List Token :=
  let pending := (s.keys.filter fun k => !s.isStale k.2).map (·.2.tokens)
  s.tokens.reverse.take (pending.foldl min s.count)

/-- Reads tokens up to the end of the text or a fault; every one but the last takes a character. -/
def run : (fuel : Nat) → Lexer → List Token × Option Fault
  | 0, s => (s.settled, none)
  | fuel + 1, s =>
    if s.tokens.head? = some .streamEnd then (s.tokens.reverse, none)
    else
      match s.step with
      | .error e => (s.settled, some e)
      | .ok s => run fuel s

end Lexer

def isAllowed (c : Char) : Bool :=
  let n := c.toNat
  n == 9 || n == 10 || n == 13 || (0x20 ≤ n && n ≤ 0x7E) || n == 0x85 || (0xA0 ≤ n && n ≤ 0xD7FF) ||
    (0xE000 ≤ n && n ≤ 0xFFFD) || 0x10000 ≤ n

/-- The tokens of a text as far as they are settled, and the fault that ends them, if any. -/
def tokens (text : Text) : List Token × Option Fault :=
  match text.chars? with
  | none => ([], some .malformed)
  | some cs =>
    if !cs.all isAllowed then ([], some .malformed)
    else Lexer.run (cs.length + 2) { cursor := .ofChars cs }

end AgentConfig.Yaml
