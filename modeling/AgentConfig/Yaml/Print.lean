import AgentConfig.Json.Basic
import AgentConfig.Yaml.Cursor
import AgentConfig.Yaml.Tag

namespace AgentConfig.Yaml

namespace Print

def isSpecial (l : Letter) : Bool := !l.is fun c => c == '\n' || (' ' ≤ c && c ≤ '~')

/-- Whether two letters with the given properties stand next to each other. -/
def hasPair (p q : Letter → Bool) (text : Text) : Bool :=
  (text.zip text.tail).any fun (a, b) => p a && q b

def isSpace (l : Letter) : Bool := l == ' '

def isLineBreak (l : Letter) : Bool := l.is fun c => isBreak c && c != '\r'

def isBlankLetter (l : Letter) : Bool := l.is fun c => isEndOrBlank (some c) || c == '\x00'

/-- Whether single quotes can hold a text: no special letters, and no space next to a line break. -/
def fitsSingleQuotes (text : Text) : Bool :=
  !(text.any isSpecial || hasPair isLineBreak isSpace text || hasPair isSpace isLineBreak text)

/-- Whether a plain text would be taken for an indicator, a comment or the end of the document. -/
def hasIndicator (text : Text) : Bool :=
  let spaced := text.tail.head?.all isBlankLetter
  text.take 3 == "---" || text.take 3 == "..." ||
    text.head?.any (Letter.is fun c => "#,[]\x7b\x7d&*!|>'\"%@`".toList.contains c) ||
    (text.head?.any (Letter.is fun c => c == '?' || c == ':' || c == '-') && spaced) ||
    hasPair (· == .char ':') isBlankLetter text.tail ||
    (!text.tail.isEmpty && text.getLast? == some (.char ':')) ||
    hasPair isBlankLetter (· == .char '#') text

/-- Whether a text is printed plain: it is one line without outer blanks or indicators, and reads
back as a text. -/
def isPlain (text : Text) : Bool :=
  let outer (l : Option Letter) : Bool := l.any fun l => isSpace l || isLineBreak l
  fitsSingleQuotes text && !outer text.head? && !outer text.getLast? && !text.any isLineBreak &&
    !hasIndicator text && Tag.ofPlain text == .str

/-- Beyond this column a line is broken at the next place that allows it. -/
def width : Nat := 80

def newline (indent : Nat) : Text := .char '\n' :: List.replicate indent (.char ' ')

def runs (kind : Letter → Nat) (text : Text) : List Text := text.splitBy fun a b => kind a == kind b

/-- Words and the spaces between them from a column on; a lone space beyond the width becomes a line
break. -/
def plainRuns (split : Bool) (indent column : Nat) : List Text → Text
  | [] => []
  | run :: rest =>
    if split && run == " " && width < column then
      newline indent ++ plainRuns split indent indent rest
    else run ++ plainRuns split indent (column + run.length) rest

def plain (split : Bool) (indent column : Nat) (text : Text) : Text :=
  plainRuns split indent column (runs (fun l => if isSpace l then 0 else 1) text)

def doubleQuotes (text : Text) : Text :=
  text.flatMap fun (l : Letter) => if l = '\'' then "''" else [l]

/-- The runs inside single quotes. A lone space may become a line break unless it is the first or
the last run; a run of line breaks is written with one more break. -/
def singleRuns (split : Bool) (indent column : Nat) (first : Bool) : List Text → Text
  | [] => []
  | run :: rest =>
    if run.head? = some (.char '\n') then
      .char '\n' :: run ++ List.replicate indent (.char ' ') ++
        singleRuns split indent indent false rest
    else if split && run == " " && width < column && !first && !rest.isEmpty then
      newline indent ++ singleRuns split indent indent false rest
    else
      let written := doubleQuotes run
      written ++ singleRuns split indent (column + written.length) false rest

def single (split : Bool) (indent column : Nat) (text : Text) : Text :=
  let kind (l : Letter) : Nat := if isSpace l then 0 else if l = '\n' then 1 else 2
  "'" ++ singleRuns split indent (column + 1) true (runs kind text) ++ "'"

def escapeLetter? : Char → Option Char
  | '\x00' => some '0'
  | '\x07' => some 'a'
  | '\x08' => some 'b'
  | '\t' => some 't'
  | '\n' => some 'n'
  | '\x0b' => some 'v'
  | '\x0c' => some 'f'
  | '\r' => some 'r'
  | '\x1b' => some 'e'
  | '"' => some '"'
  | '\\' => some '\\'
  | '\x85' => some 'N'
  | '\xa0' => some '_'
  | '\u2028' => some 'L'
  | '\u2029' => some 'P'
  | _ => none

def isBare (l : Letter) : Bool := l.is fun c => ' ' ≤ c && c ≤ '~' && c != '"' && c != '\\'

def escaped (l : Letter) : Text :=
  match l.char?.bind escapeLetter? with
  | some letter => ['\\', letter]
  | none =>
    if l.code ≤ 0xFF then "\\x" ++ Text.hexUpper 2 l.code
    else if l.code ≤ 0xFFFF then "\\u" ++ Text.hexUpper 4 l.code
    else "\\U" ++ Text.hexUpper 8 l.code

/-- The letters inside double quotes. `pending` holds bare letters not yet written, last one first,
`column` is where they will start, and `started` tells whether this is past the first letter. The
line may be broken at a space, or where nothing is pending, but not before the first or the last
letter; a space after the break is marked with a backslash. -/
def doubleFrom (split : Bool) (indent : Nat) :
    (started : Bool) → (column : Nat) → (pending : Text) → Text → Text
  | _, _, pending, [] => pending.reverse
  | started, column, pending, l :: rest =>
    let bare := isBare l
    let before := if bare then [] else pending.reverse ++ escaped l
    let column := column + before.length
    let waiting := if bare then pending else []
    let breakable := split && started && !rest.isEmpty && (isSpace l || waiting.isEmpty)
    -- An escape has been written by now, so the column counts it; of a bare letter it counts what
    -- is pending before it.
    let reached := if bare then column + waiting.length else column - 1
    if breakable && width < reached then
      let next := if bare then some l else rest.head?
      let mark : Text := if next = some (.char ' ') then "\\" else []
      before ++ waiting.reverse ++ "\\" ++ newline indent ++ mark ++
        doubleFrom split indent true (indent + mark.length) (if bare then [l] else []) rest
    else before ++ doubleFrom split indent true column (if bare then l :: pending else []) rest

def double (split : Bool) (indent column : Nat) (text : Text) : Text :=
  "\"" ++ doubleFrom split indent false (column + 1) [] text ++ "\""

def scalar (split : Bool) (indent column : Nat) (text : Text) : Text :=
  if isPlain text then plain split indent column text
  else if fitsSingleQuotes text && (split || !text.any isLineBreak) then
    single split indent column text
  else double split indent column text

def isSimpleName (name : Text) : Bool :=
  !name.isEmpty && name.length < 123 && !name.any isLineBreak

def opening (indent : Nat) (name : Text) : Text :=
  if isSimpleName name then scalar false (indent + 2) indent name ++ ":"
  else "? " ++ scalar true (indent + 2) (indent + 2) name ++ newline indent ++ ":"

def number (x : Binary64) : Text :=
  let text := (x.textWith ".nan" ".inf").toList
  let mantissa := text.takeWhile (· != 'e')
  if mantissa.length < text.length && !mantissa.contains '.' then
    Text.ofChars mantissa ++ ".0" ++ Text.ofChars (text.drop mantissa.length)
  else Text.ofChars text

/-- A value that takes no lines of its own, from a column on. -/
def inline (indent column : Nat) : Json → Text
  | .null => "null"
  | .bool b => if b then "true" else "false"
  | .int n => Text.ofInt n
  | .real x => number x
  | .str s => scalar true indent column s
  | .arr _ => "[]"
  | .obj _ => "\x7b\x7d"

mutual

/-- A value after a mark, which stands at the indentation. A collection starts on the same line. -/
def afterMark (indent : Nat) : Json → Text
  | .arr (item :: items) =>
    " " ++ Text.intercalate (newline (indent + 2)) (marked (indent + 2) (item :: items))
  | .obj (m :: members) =>
    " " ++ Text.intercalate (newline (indent + 2)) (named (indent + 2) (m :: members))
  | v => " " ++ inline (indent + 2) (indent + 2) v

/-- A value after a name at the indentation and its colon, which end before `column`. A collection
starts on the next line; a list stays at the indentation of the name. -/
def afterName (indent column : Nat) : Json → Text
  | .arr (item :: items) => (marked indent (item :: items)).flatMap (newline indent ++ ·)
  | .obj (m :: members) => (named (indent + 2) (m :: members)).flatMap (newline (indent + 2) ++ ·)
  | v => " " ++ inline (indent + 2) (column + 1) v

def marked (indent : Nat) : List Json → List Text
  | [] => []
  | item :: items => ("-" ++ afterMark indent item) :: marked indent items

def named (indent : Nat) : List (Text × Json) → List Text
  | [] => []
  | (name, v) :: members =>
    (if isSimpleName name then
      opening indent name ++ afterName indent (indent + (opening indent name).length) v
    else opening indent name ++ afterMark indent v) :: named indent members

end

end Print

/-- A member whose value is a list of one text under a tag. -/
def printTagged (name tag item : Text) : Text :=
  Print.opening 0 name ++ " " ++ tag ++ "\n-" ++ Print.afterMark 0 (.str item)

def print (members : Json.Members) : Text := Text.intercalate "\n" (Print.named 0 members)

end AgentConfig.Yaml
