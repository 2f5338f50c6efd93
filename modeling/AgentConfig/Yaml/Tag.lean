import AgentConfig.Text.Basic

namespace AgentConfig.Yaml

inductive Tag where
  | null
  | bool
  | int
  | float
  | binary
  | timestamp
  | str
  | seq
  | map
  | set
  | omap
  | pairs
  /-- The plain key `<<`, whose value is merged into the mapping. -/
  | merge
  /-- The plain scalar `=`. -/
  | value
  /-- One of the marks `!`, `&` and `*` alone, which stand for nothing. -/
  | mark
  | other (address : Text)
  deriving DecidableEq, Repr

namespace Tag

def commonAddress : Text := "tag:yaml.org,2002:"

def names : List (Text × Tag) :=
  [("null", .null), ("bool", .bool), ("int", .int), ("float", .float), ("binary", .binary),
    ("timestamp", .timestamp), ("str", .str), ("seq", .seq), ("map", .map), ("set", .set),
    ("omap", .omap), ("pairs", .pairs), ("merge", .merge), ("value", .value), ("yaml", .mark)]

def ofAddress (address : Text) : Tag :=
  match names.find? fun n => commonAddress ++ n.1 == address with
  | some (_, tag) => tag
  | none => .other address

def trueWords : List String := ["yes", "Yes", "YES", "true", "True", "TRUE", "on", "On", "ON"]

def falseWords : List String := ["no", "No", "NO", "false", "False", "FALSE", "off", "Off", "OFF"]

def nullWords : List String := ["~", "null", "Null", "NULL", ""]

def isSpaceOrTab (c : Char) : Bool := c == ' ' || c == '\t'

def dropSign : List Char → List Char
  | '-' :: cs => cs
  | '+' :: cs => cs
  | cs => cs

def isDigitMark (c : Char) : Bool := c.isDigit || c == '_'

def isHexMark (c : Char) : Bool :=
  isDigitMark c || ('a' ≤ c && c ≤ 'f') || ('A' ≤ c && c ≤ 'F')

def isGrouped : List Char → Bool
  | c :: cs => c.isDigit && cs.all isDigitMark
  | [] => false

/-- A part of a number in base sixty: one digit, or two of which the first is at most five. -/
def isSixtieth : List Char → Bool
  | [c] => c.isDigit
  | [c, d] => '0' ≤ c && c ≤ '5' && d.isDigit
  | _ => false

/-- Parts between colons, at least two, the first satisfying `head`. -/
def isSexagesimal (head : List Char → Bool) (cs : List Char) : Bool :=
  match cs.splitOn ':' with
  | first :: part :: parts => head first && (part :: parts).all isSixtieth
  | _ => false

def isPositive (cs : List Char) : Bool := isGrouped cs && cs.head? != some '0'

def isInt (cs : List Char) : Bool :=
  let cs := dropSign cs
  match cs with
  | ['0'] => true
  | '0' :: 'b' :: rest => !rest.isEmpty && rest.all fun c => c == '0' || c == '1' || c == '_'
  | '0' :: 'x' :: rest => !rest.isEmpty && rest.all isHexMark
  | '0' :: rest => rest.all fun c => ('0' ≤ c && c ≤ '7') || c == '_'
  | cs => isPositive cs || isSexagesimal isPositive cs

/-- An optional exponent: a mark, a sign that must be there, and digits. -/
def isExponent : List Char → Bool
  | [] => true
  | e :: sign :: digits =>
    (e == 'e' || e == 'E') && (sign == '+' || sign == '-') && !digits.isEmpty &&
      digits.all Char.isDigit
  | _ => false

def isFraction (cs : List Char) : Bool := isExponent (cs.dropWhile isDigitMark)

def isFloat (cs : List Char) : Bool :=
  let unsigned := dropSign cs
  let whole := unsigned.takeWhile (· != '.')
  let word := String.ofList unsigned
  match unsigned.dropWhile (· != '.') with
  | [] => false
  | _ :: fraction =>
    (isGrouped whole && isFraction fraction) ||
      (cs.head? == some '.' && fraction.head?.any Char.isDigit && isFraction fraction) ||
      (isSexagesimal isGrouped whole && fraction.all isDigitMark) ||
      [".inf", ".Inf", ".INF"].contains word ||
      [".nan", ".NaN", ".NAN"].contains (String.ofList cs)

def digitsBetween (low high : Nat) (cs : List Char) : Bool :=
  cs.all Char.isDigit && low ≤ cs.length && cs.length ≤ high

/-- An optional zone after a time: `Z`, or a signed hour with optional minutes. -/
def isZone (cs : List Char) : Bool :=
  cs.isEmpty ||
    match cs.dropWhile isSpaceOrTab with
    | ['Z'] => true
    | sign :: zone =>
      (sign == '+' || sign == '-') &&
        match zone.splitOn ':' with
        | [hour] => digitsBetween 1 2 hour
        | [hour, minute] => digitsBetween 1 2 hour && digitsBetween 2 2 minute
        | _ => false
    | [] => false

/-- Hours, minutes and seconds, an optional fraction, an optional zone. -/
def isClock (cs : List Char) : Bool :=
  match cs.splitOn ':' with
  | hour :: minute :: second :: more =>
    let tail := List.intercalate [':'] (second :: more)
    let rest := tail.drop 2
    let rest := if rest.head? = some '.' then (rest.drop 1).dropWhile Char.isDigit else rest
    digitsBetween 1 2 hour && digitsBetween 2 2 minute && digitsBetween 2 2 (tail.take 2) &&
      isZone rest
  | _ => false

/-- The clock part after a date: a `T` or blanks, then the time. -/
def clockAfterDate? : List Char → Option (List Char)
  | 'T' :: cs => some cs
  | 't' :: cs => some cs
  | c :: cs => if isSpaceOrTab c then some (cs.dropWhile isSpaceOrTab) else none
  | [] => none

def splitDate? (cs : List Char) : Option (List Char × List Char × List Char × List Char) :=
  let year := cs.takeWhile Char.isDigit
  match cs.dropWhile Char.isDigit with
  | '-' :: cs =>
    let month := cs.takeWhile Char.isDigit
    match cs.dropWhile Char.isDigit with
    | '-' :: cs => some (year, month, cs.takeWhile Char.isDigit, cs.dropWhile Char.isDigit)
    | _ => none
  | _ => none

def isTimestamp (cs : List Char) : Bool :=
  match splitDate? cs with
  | none => false
  | some (year, month, day, rest) =>
    if rest.isEmpty then
      digitsBetween 4 4 year && digitsBetween 2 2 month && digitsBetween 2 2 day
    else
      digitsBetween 4 4 year && digitsBetween 1 2 month && digitsBetween 1 2 day &&
        (clockAfterDate? rest).any isClock

def dropFinalBreak (cs : List Char) : List Char :=
  if cs.getLast? = some '\n' then cs.dropLast else cs

/-- The tag of some characters by their form, `text` being they with a final line break. -/
def ofForm (text cs : List Char) : Tag :=
  let word := String.ofList cs
  if trueWords.contains word || falseWords.contains word then .bool
  else if isFloat cs then .float
  else if isInt cs then .int
  else if word = "<<" then .merge
  else if nullWords.contains word && (!cs.isEmpty || text.isEmpty) then .null
  else if isTimestamp cs then .timestamp
  else if word = "=" then .value
  else if ["!", "&", "*"].contains word then .mark
  else .str

def ofPlain (text : Text) : Tag :=
  match text.chars? with
  | some cs => ofForm cs (dropFinalBreak cs)
  | none => .str

end Tag

end AgentConfig.Yaml
