import AgentConfig.Yaml.Cursor
import AgentConfig.Yaml.Token

namespace AgentConfig.Yaml

def isFlowIndicator (c : Char) : Bool :=
  c == ',' || c == '[' || c == ']' || c == '\x7b' || c == '\x7d'

/-- The longest run of a plain scalar on one line without blanks. A colon ends it before a blank,
and inside a flow collection before an indicator too. -/
def plainRun (inFlow : Bool) : List Char → List Char
  | [] => []
  | c :: rest =>
    let colonEnds := c == ':' &&
      (isEndOrBlank rest.head? || (inFlow && rest.head?.any isFlowIndicator))
    if isEndOrBlank (some c) || colonEnds || (inFlow && (isFlowIndicator c || c == '?')) then []
    else c :: plainRun inFlow rest

/-- What lies between two runs of a plain scalar: the characters it stands for, the place after it,
and whether a line break was passed. No characters means that the scalar ends. -/
structure Gap where
  text : List Char
  cursor : Cursor
  broken : Bool

/-- The line breaks and spaces that follow a first break; `none` at a document separator. -/
def followingBreaks : (fuel : Nat) → (breaks : List Char) → Cursor → Option (List Char) × Cursor
  | 0, breaks, c => (some breaks, c)
  | fuel + 1, breaks, c =>
    if c.peek = some ' ' then followingBreaks fuel breaks c.advance
    else
      match c.lineBreak? with
      | none => (some breaks, c)
      | some (br, c) =>
        if c.atSeparator then (none, c) else followingBreaks fuel (breaks ++ [br]) c

/-- A single break folds into a space, and of several the first is dropped. -/
def foldBreaks (first : Char) (more : List Char) : List Char :=
  if first ≠ '\n' then first :: more else if more.isEmpty then [' '] else more

def plainGap (c : Cursor) : Gap :=
  let (spaces, c) := c.takeWhile (· == ' ')
  match c.lineBreak? with
  | none => ⟨spaces, c, false⟩
  | some (br, c) =>
    if c.atSeparator then ⟨[], c, true⟩
    else
      match followingBreaks c.limit [] c with
      | (none, c) => ⟨[], c, true⟩
      | (some more, c) => ⟨foldBreaks br more, c, true⟩

/-- A plain scalar, the place after it, and whether a simple key may start there. -/
structure PlainScalar where
  text : List Char
  cursor : Cursor
  allowKey : Bool

/-- Reads on after `gap`; `done` holds the characters before it, last first. Outside flow
collections a line indented less than `indent` ends the scalar, and so does a comment. -/
def plainFrom (inFlow : Bool) (indent : Int) :
    (fuel : Nat) → (done gap : List Char) → (broken : Bool) → Cursor → PlainScalar
  | 0, done, _, broken, c => ⟨done.reverse, c, broken⟩
  | fuel + 1, done, gap, broken, c =>
    let run := plainRun inFlow c.rest
    if c.peek = some '#' ∨ run.isEmpty then ⟨done.reverse, c, broken⟩
    else
      let next := plainGap (c.advanceBy run.length)
      let done := run.reverse ++ (gap.reverse ++ done)
      if next.text.isEmpty ∨ next.cursor.peek = some '#' ∨
          (!inFlow ∧ (next.cursor.column : Int) < indent) then
        ⟨done.reverse, next.cursor, next.broken⟩
      else plainFrom inFlow indent fuel done next.text next.broken next.cursor

def plainScalar (inFlow : Bool) (indent : Int) (c : Cursor) : PlainScalar :=
  plainFrom inFlow indent c.limit [] [] false c

def simpleEscape? : Char → Option Char
  | '0' => some '\x00'
  | 'a' => some '\x07'
  | 'b' => some '\x08'
  | 't' => some '\t'
  | '\t' => some '\t'
  | 'n' => some '\n'
  | 'v' => some '\x0b'
  | 'f' => some '\x0c'
  | 'r' => some '\r'
  | 'e' => some '\x1b'
  | ' ' => some ' '
  | '"' => some '"'
  | '\\' => some '\\'
  | '/' => some '/'
  | 'N' => some '\x85'
  | '_' => some '\xa0'
  | 'L' => some '\u2028'
  | 'P' => some '\u2029'
  | _ => none

def escapeWidth? : Char → Option Nat
  | 'x' => some 2
  | 'u' => some 4
  | 'U' => some 8
  | _ => none

def letterOfCode (code : Nat) : Except Fault Letter :=
  if code < 0x110000 then .ok (.ofCode code)
  else if code < 0x80000000 then .error (.unconvertible "chr() arg not in range(0x110000)")
  else .error .tooLarge

/-- The breaks of the blank lines that follow a break inside quotes. -/
def quotedBreaks : (fuel : Nat) → (breaks : List Char) → Cursor → Except Fault (List Char × Cursor)
  | 0, breaks, c => .ok (breaks, c)
  | fuel + 1, breaks, c =>
    if c.atSeparator then .error .malformed
    else
      let c := c.skipWhile fun ch => ch == ' ' || ch == '\t'
      match c.lineBreak? with
      | none => .ok (breaks, c)
      | some (br, c) => quotedBreaks fuel (breaks ++ [br]) c

def quotedGap (c : Cursor) : Except Fault (List Char × Cursor) :=
  let (blanks, c) := c.takeWhile fun ch => ch == ' ' || ch == '\t'
  if c.rest.isEmpty then .error .malformed
  else
    match c.lineBreak? with
    | none => .ok (blanks, c)
    | some (br, c) =>
      (quotedBreaks c.limit [] c).map fun (more, c) => (foldBreaks br more, c)

def escapeSequence (c : Cursor) : Except Fault (Text × Cursor) :=
  match c.peek with
  | none => .error .malformed
  | some ch =>
    match simpleEscape? ch, escapeWidth? ch with
    | some value, _ => .ok ([.char value], c.advance)
    | none, some width =>
      let c := c.advance
      let digits := c.rest.take width
      if digits.length < width then .error .malformed
      else
        match Text.hexNumber? digits with
        | none => .error .malformed
        | some code => (letterOfCode code).map fun value => ([value], c.advanceBy width)
    | none, none =>
      match c.lineBreak? with
      | some (_, c) => (quotedBreaks c.limit [] c).map fun (breaks, c) => (Text.ofChars breaks, c)
      | none => .error .malformed

/-- Reads a quoted scalar after `done`, which holds its letters so far, last first. -/
def quotedFrom (double : Bool) :
    (fuel : Nat) → (done : Text) → Cursor → Except Fault (Text × Cursor)
  | 0, _, _ => .error .malformed
  | fuel + 1, done, c =>
    match c.rest with
    | [] => .error .malformed
    | ch :: rest =>
      if ch = '\'' ∧ !double then
        if rest.head? = some '\'' then quotedFrom double fuel (.char '\'' :: done) (c.advanceBy 2)
        else .ok (done.reverse, c.advance)
      else if ch = '"' ∧ double then .ok (done.reverse, c.advance)
      else if ch = '\\' ∧ double then
        match escapeSequence c.advance with
        | .error e => .error e
        | .ok (value, c) => quotedFrom double fuel (value.reverse ++ done) c
      else if isEndOrBlank (some ch) then
        match quotedGap c with
        | .error e => .error e
        | .ok (gap, c) => quotedFrom double fuel (Text.ofChars gap.reverse ++ done) c
      else quotedFrom double fuel (.char ch :: done) c.advance

def quotedScalar (c : Cursor) : Except Fault (Text × Cursor) :=
  quotedFrom (c.peek = some '"') c.limit [] c.advance

/-- What happens to the line breaks at the end of a block scalar. -/
inductive Chomping where
  | strip
  | clip
  | keep
  deriving DecidableEq, Repr

def chomping? : Char → Option Chomping
  | '+' => some .keep
  | '-' => some .strip
  | _ => none

/-- The indicators after `|` or `>`: a chomping mark and an indent of 1 to 9, in either order. -/
def blockIndicators (c : Cursor) : Except Fault (Chomping × Option Nat × Cursor) :=
  let chomp := c.peek.bind chomping?
  let c := if chomp.isSome then c.advance else c
  let width := c.peek.bind fun ch => if ch.isDigit then some (ch.toNat - 48) else none
  let c := if width.isSome then c.advance else c
  let late := if chomp.isNone && width.isSome then c.peek.bind chomping? else none
  let c := if late.isSome then c.advance else c
  if width = some 0 ∨ !isEndOrSpace c.peek then .error .malformed
  else .ok ((chomp.or late).getD .clip, width, c)

def restOfLine (c : Cursor) : Except Fault Cursor :=
  let c := c.skipSpaces
  let c := if c.peek = some '#' then c.skipLine else c
  if isEndOrBreak c.peek then .ok ((c.lineBreak?.map (·.2)).getD c) else .error .malformed

/-- The leading blank lines of a block scalar without a given indentation: their breaks, the
greatest column reached, and the place of the first other character. -/
def blockLead : (fuel : Nat) → (breaks : List Char) → (column : Nat) → Cursor →
    List Char × Nat × Cursor
  | 0, breaks, column, c => (breaks, column, c)
  | fuel + 1, breaks, column, c =>
    if c.peek = some ' ' then
      let c := c.advance
      blockLead fuel breaks (max column c.column) c
    else
      match c.lineBreak? with
      | none => (breaks, column, c)
      | some (br, c) => blockLead fuel (breaks ++ [br]) column c

def skipIndent (indent : Nat) (c : Cursor) : Cursor :=
  c.advanceBy (min (indent - c.column) (c.rest.takeWhile (· == ' ')).length)

/-- The breaks of blank lines inside a block scalar, and the place after the next indentation. -/
def blockBreaks (indent : Nat) : (fuel : Nat) → (breaks : List Char) → Cursor → List Char × Cursor
  | 0, breaks, c => (breaks, c)
  | fuel + 1, breaks, c =>
    let c := skipIndent indent c
    match c.lineBreak? with
    | none => (breaks, c)
    | some (br, c) => blockBreaks indent fuel (breaks ++ [br]) c

def isSpaceOrTab? (c : Option Char) : Bool := c == some ' ' || c == some '\t'

/-- The lines of a block scalar, from a place at its indentation. `done` holds the characters so
far, last first, and `breaks` the breaks of the blank lines before. In a folded scalar a single
break between lines that start with no blank becomes a space. The result is the text without its
last break, that break, and the breaks after it. -/
def blockLines (folded : Bool) (indent : Nat) : (fuel : Nat) → (done breaks : List Char) → Cursor →
    List Char × List Char × List Char × Cursor
  | 0, done, breaks, c => (done.reverse, [], breaks, c)
  | fuel + 1, done, breaks, c =>
    if c.column ≠ indent ∨ c.rest.isEmpty then (done.reverse, [], breaks, c)
    else
      let flush := !isSpaceOrTab? c.peek
      let (line, c) := c.takeWhile (!isBreak ·)
      let done := line.reverse ++ (breaks.reverse ++ done)
      match c.lineBreak? with
      | none => (done.reverse, [], [], c)
      | some (br, c) =>
        let (more, c) := blockBreaks indent c.limit [] c
        if c.column ≠ indent ∨ c.rest.isEmpty then (done.reverse, [br], more, c)
        else if folded && br == '\n' && flush && !isSpaceOrTab? c.peek then
          blockLines folded indent fuel (if more.isEmpty then ' ' :: done else done) more c
        else blockLines folded indent fuel (br :: done) more c

def blockScalar (indent : Int) (c : Cursor) : Except Fault (List Char × Cursor) := do
  let folded := c.peek = some '>'
  let (chomping, width, c) ← blockIndicators c.advance
  let c ← restOfLine c
  let least := (indent + 1).toNat.max 1
  let (breaks, column, c) := match width with
    | none =>
      let (breaks, column, c) := blockLead c.limit [] 0 c
      (breaks, least.max column, c)
    | some width =>
      let column := least + width - 1
      let (breaks, c) := blockBreaks column c.limit [] c
      (breaks, column, c)
  let (text, last, breaks, c) := blockLines folded column c.limit [] breaks c
  match chomping with
  | .strip => .ok (text, c)
  | .clip => .ok (text ++ last, c)
  | .keep => .ok (text ++ last ++ breaks, c)

end AgentConfig.Yaml
