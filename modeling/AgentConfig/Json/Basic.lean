import AgentConfig.Number.Shortest
import AgentConfig.Text.Quoted

namespace AgentConfig

inductive Json where
  | null
  | bool (value : Bool)
  | int (value : Int)
  | real (value : Binary64)
  | str (value : Text)
  | arr (items : List Json)
  | obj (members : List (Text × Json))
  deriving Inhabited

namespace Json

abbrev Members := List (Text × Json)

namespace Members

def get? (key : Text) (members : Members) : Option Json := members.lookup key

def hasKey (key : Text) (members : Members) : Bool := members.any fun m => m.1 == key

/-- Gives `key` a value: in its place when the key is there, else at the end. -/
def put (key : Text) (value : Json) : Members → Members
  | [] => [(key, value)]
  | (k, v) :: rest => if k = key then (k, value) :: rest else (k, v) :: put key value rest

def erase (key : Text) (members : Members) : Members := members.filter fun m => m.1 != key

end Members

mutual

/-- The literal of a document: `None`, `True`, quoted texts, `[a, b]`, `\x7bk: v\x7d`. -/
def literal : Json → Text
  | .null => "None"
  | .bool b => if b then "True" else "False"
  | .int n => Text.ofInt n
  | .real x => x.textWith "nan" "inf"
  | .str s => Text.quoted s
  | .arr items => "[" ++ Text.intercalate ", " (literals items) ++ "]"
  | .obj members => "\x7b" ++ Text.intercalate ", " (memberLiterals members) ++ "\x7d"

def literals : List Json → List Text
  | [] => []
  | v :: rest => literal v :: literals rest

def memberLiterals : List (Text × Json) → List Text
  | [] => []
  | (k, v) :: rest => (Text.quoted k ++ ": " ++ literal v) :: memberLiterals rest

end

mutual

def levels : Json → Nat
  | .arr items => itemLevels items + 1
  | .obj members => memberLevels members + 1
  | _ => 0

def itemLevels : List Json → Nat
  | [] => 0
  | v :: rest => max (levels v) (itemLevels rest)

def memberLevels : List (Text × Json) → Nat
  | [] => 0
  | (_, v) :: rest => max (levels v) (memberLevels rest)

end

def text : Json → Text
  | .str s => s
  | v => literal v

def text? : Json → Option Text
  | .str s => some s
  | _ => none

def unicodeEscape (n : Nat) : Text := "\\u" ++ Text.hex 4 n

/-- A letter inside a written string. Beyond the Basic Multilingual Plane a character is written as
a surrogate pair, and a half is written as itself. -/
def writeLetter (l : Letter) : Text :=
  let n := l.code
  if l = '"' then "\\\""
  else if l = '\\' then "\\\\"
  else if l = '\n' then "\\n"
  else if l = '\r' then "\\r"
  else if l = '\t' then "\\t"
  else if l = '\x0c' then "\\f"
  else if l = '\x08' then "\\b"
  else if 0x20 ≤ n && n < 0x7F then [l]
  else if n < 0x10000 then unicodeEscape n
  else
    unicodeEscape (0xD800 + (n - 0x10000) / 0x400) ++ unicodeEscape (0xDC00 + (n - 0x10000) % 0x400)

def writeString (s : Text) : Text := "\"" ++ s.flatMap writeLetter ++ "\""

def newline (level : Nat) : Text := .char '\n' :: List.replicate (2 * level) (.char ' ')

def writeBlock (opening closing : Char) (level : Nat) (parts : List Text) : Text :=
  if parts.isEmpty then [opening, closing]
  else
    .char opening :: newline (level + 1) ++
      Text.intercalate (.char ',' :: newline (level + 1)) parts ++ newline level ++ [.char closing]

mutual

def writeAt (level : Nat) : Json → Text
  | .null => "null"
  | .bool b => if b then "true" else "false"
  | .int n => Text.ofInt n
  | .real x => x.textWith "NaN" "Infinity"
  | .str s => writeString s
  | .arr items => writeBlock '[' ']' level (writeItems (level + 1) items)
  | .obj members => writeBlock '\x7b' '\x7d' level (writeMembers (level + 1) members)

def writeItems (level : Nat) : List Json → List Text
  | [] => []
  | v :: rest => writeAt level v :: writeItems level rest

def writeMembers (level : Nat) : List (Text × Json) → List Text
  | [] => []
  | (k, v) :: rest => (writeString k ++ ": " ++ writeAt level v) :: writeMembers level rest

end

def write (v : Json) : Text := writeAt 0 v ++ "\n"

end Json

end AgentConfig
