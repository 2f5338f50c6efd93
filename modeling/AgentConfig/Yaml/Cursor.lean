namespace AgentConfig.Yaml

def isBreak (c : Char) : Bool :=
  c == '\n' || c == '\r' || c == '\x85' || c == '\u2028' || c == '\u2029'

def isEndOrBreak : Option Char → Bool
  | none => true
  | some c => isBreak c

def isEndOrSpace : Option Char → Bool
  | none => true
  | some c => isBreak c || c == ' '

def isEndOrBlank : Option Char → Bool
  | none => true
  | some c => isBreak c || c == ' ' || c == '\t'

/-- The letters, digits and marks of the names of directives, anchors and tag handles. -/
def isNameChar (c : Char) : Bool := c.isAlphanum || c == '-' || c == '_'

structure Cursor where
  rest : List Char
  /-- A number above the length of `rest`: no reader takes a character that often. -/
  limit : Nat
  index : Nat := 0
  line : Nat := 0
  column : Nat := 0

namespace Cursor

def ofChars (cs : List Char) : Cursor := { rest := cs, limit := cs.length + 1 }

def peek (c : Cursor) : Option Char := c.rest.head?

def peekAt (c : Cursor) (k : Nat) : Option Char := c.rest[k]?

/-- One character further. A `\r` ends a line unless a `\n` follows, and the byte-order mark takes
no column. -/
def advance (c : Cursor) : Cursor :=
  match c.rest with
  | [] => c
  | ch :: rest =>
    if isBreak ch && !(ch == '\r' && rest.head? == some '\n') then
      { c with rest, index := c.index + 1, line := c.line + 1, column := 0 }
    else if ch = '\ufeff' then { c with rest, index := c.index + 1 }
    else { c with rest, index := c.index + 1, column := c.column + 1 }

def advanceBy : Nat → Cursor → Cursor
  | 0, c => c
  | n + 1, c => advanceBy n c.advance

/-- The longest run of characters with the property, and the place after it. -/
def takeWhile (p : Char → Bool) (c : Cursor) : List Char × Cursor :=
  let run := c.rest.takeWhile p
  (run, c.advanceBy run.length)

def skipWhile (p : Char → Bool) (c : Cursor) : Cursor := (c.takeWhile p).2

def skipSpaces (c : Cursor) : Cursor := c.skipWhile (· == ' ')

def skipLine (c : Cursor) : Cursor := c.skipWhile (!isBreak ·)

/-- Past a line break, with the letter it is read as: `\n`, or one of the two Unicode separators. -/
def lineBreak? (c : Cursor) : Option (Char × Cursor) :=
  match c.rest with
  | '\r' :: '\n' :: _ => some ('\n', c.advanceBy 2)
  | ch :: _ =>
    if ch = '\u2028' ∨ ch = '\u2029' then some (ch, c.advance)
    else if isBreak ch then some ('\n', c.advance)
    else none
  | [] => none

/-- Whether the three characters ahead are the given mark, followed by a blank or the end. -/
def hasMark (mark : Char) (c : Cursor) : Bool :=
  c.rest.take 3 == [mark, mark, mark] && isEndOrBlank (c.peekAt 3)

def atSeparator (c : Cursor) : Bool := c.hasMark '-' || c.hasMark '.'

end Cursor

end AgentConfig.Yaml
