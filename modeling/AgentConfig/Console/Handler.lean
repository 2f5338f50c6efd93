import AgentConfig.Text.Basic

namespace AgentConfig.Handler

inductive Literal where
  | number (imaginary signed : Bool)
  | other (isKey : Bool)
  deriving DecidableEq, Repr

def Literal.isKey : Literal → Bool
  | .number _ _ => true
  | .other isKey => isKey

/-- The characters after blanks; inside brackets a line end is a blank. -/
def skipBlanks (inside : Bool) (cs : List Char) : List Char :=
  cs.dropWhile fun c => c == ' ' || c == '\t' || c == '\x0c' || (inside && c == '\n')

def digits (isDigit : Char → Bool) : List Char → List Char × List Char
  | [] => ([], [])
  | '_' :: c :: rest =>
    if isDigit c then
      let (read, rest) := digits isDigit rest
      (c :: read, rest)
    else ([], '_' :: c :: rest)
  | c :: rest =>
    if isDigit c then
      let (read, rest) := digits isDigit rest
      (c :: read, rest)
    else ([], c :: rest)

def run (isDigit : Char → Bool) (cs : List Char) : List Char × List Char :=
  if cs.head? = some '_' then ([], cs) else digits isDigit cs

def skipExponent (cs : List Char) : Option (List Char) :=
  match cs with
  | mark :: rest =>
    if mark = 'e' ∨ mark = 'E' then
      let rest := if rest.head? = some '+' ∨ rest.head? = some '-' then rest.tail else rest
      let (read, rest) := run Char.isDigit rest
      if read.isEmpty then none else some rest
    else none
  | [] => none

def based? (cs : List Char) : Option (List Char) :=
  let rest (isDigit : Char → Bool) (cs : List Char) : Option (List Char) :=
    let (read, rest) := digits isDigit cs
    if read.isEmpty then none else some rest
  match cs with
  | '0' :: 'x' :: cs | '0' :: 'X' :: cs => rest (fun c => (Text.hexValue? c).isSome) cs
  | '0' :: 'o' :: cs | '0' :: 'O' :: cs => rest (fun c => '0' ≤ c && c ≤ '7') cs
  | '0' :: 'b' :: cs | '0' :: 'B' :: cs => rest (fun c => c == '0' || c == '1') cs
  | _ => none

/-- A number without a sign. A whole number other than zero does not start with a zero. -/
def number? (cs : List Char) : Option (Literal × List Char) :=
  match based? cs with
  | some rest => some (.number false false, rest)
  | none =>
    let (whole, rest) := run Char.isDigit cs
    let (isWhole, fraction, rest) := match rest with
      | '.' :: rest =>
        let (fraction, rest) := run Char.isDigit rest
        (false, fraction, rest)
      | rest => (true, [], rest)
    if whole.isEmpty && fraction.isEmpty then none
    else
      let (isWhole, rest) := match skipExponent rest with
        | some rest => (false, rest)
        | none => (isWhole, rest)
      match rest with
      | 'j' :: rest | 'J' :: rest => some (.number true false, rest)
      | rest =>
        if isWhole && whole.head? = some '0' && whole.any (· != '0') then none
        else some (.number false false, rest)

def startsWithHex (count : Nat) (cs : List Char) : Bool :=
  (cs.take count).length == count && (cs.take count).all fun c => (Text.hexValue? c).isSome

def isSoundEscape (bytes : Bool) : List Char → Bool
  | 'x' :: cs => startsWithHex 2 cs
  | 'u' :: cs => bytes || startsWithHex 4 cs
  | 'U' :: cs => bytes || (startsWithHex 8 cs && (Text.hexNumber? (cs.take 8)).any (· < 0x110000))
  | 'N' :: _ => bytes
  | _ => true

def closing? (raw bytes : Bool) (quotes : List Char) : List Char → Option (List Char)
  | [] => none
  | '\\' :: c :: cs =>
    if (bytes && !c.val < 128) || (!raw && !isSoundEscape bytes (c :: cs)) then none
    else closing? raw bytes quotes cs
  | c :: cs =>
    if quotes.isPrefixOf (c :: cs) then some ((c :: cs).drop quotes.length)
    else if (c == '\n' && quotes.length == 1) || (bytes && !c.val < 128) then none
    else closing? raw bytes quotes cs

/-- The letters that may stand before quotes, and whether they ask for raw text and for bytes. -/
def quoteKinds : List (String × Bool × Bool) :=
  [("", false, false), ("u", false, false), ("r", true, false), ("b", false, true),
    ("br", true, true), ("rb", true, true)]

def quoted? (cs : List Char) : Option (Bool × List Char) :=
  let letters := cs.takeWhile Char.isAlpha
  let rest := cs.drop letters.length
  match quoteKinds.lookup (String.ofList (letters.map Char.toLower)), rest with
  | some (raw, bytes), q :: rest =>
    if q = '\'' ∨ q = '"' then
      let quotes := if [q, q].isPrefixOf rest then [q, q, q] else [q]
      (closing? raw bytes quotes (rest.drop (quotes.length - 1))).map (bytes, ·)
    else none
  | _, _ => none

/-- Quoted texts one after the other, which are one text. `fuel` exceeds the characters left. -/
def quotedRun? (inside : Bool) (bytes : Bool) : (fuel : Nat) → List Char → Option (List Char)
  | 0, cs => some cs
  | fuel + 1, cs =>
    match quoted? (skipBlanks inside cs) with
    | some (more, rest) => if more = bytes then quotedRun? inside bytes fuel rest else none
    | none => some cs

def isNameCharacter (c : Char) : Bool := c.isAlphanum || c == '_' || !c.val < 128

def word? (cs : List Char) : Option (List Char) :=
  let name := cs.takeWhile isNameCharacter
  if ["None", "True", "False"].contains (String.ofList name) then some (cs.drop name.length)
  else none

def emptySet? (inside : Bool) (cs : List Char) : Option (List Char) :=
  if ['s', 'e', 't'].isPrefixOf cs then
    match skipBlanks inside (cs.drop 3) with
    | '(' :: rest =>
      match skipBlanks true rest with
      | ')' :: rest => some rest
      | _ => none
    | _ => none
  else none

mutual

/-- A literal. `inside` tells whether it stands in brackets. `fuel` exceeds twice the characters
left. -/
def literal? (inside : Bool) : (fuel : Nat) → List Char → Option (Literal × List Char)
  | 0, _ => none
  | fuel + 1, cs =>
    match signed? inside fuel cs with
    | some (.number false signed, rest) =>
      match skipBlanks inside rest with
      | c :: more =>
        if c = '+' ∨ c = '-' then
          match simple? inside fuel (skipBlanks inside more) with
          | some (.number true false, rest) => some (.other true, rest)
          | _ => none
        else some (.number false signed, rest)
      | [] => some (.number false signed, rest)
    | found => found

def signed? (inside : Bool) : (fuel : Nat) → List Char → Option (Literal × List Char)
  | 0, _ => none
  | fuel + 1, cs =>
    match skipBlanks inside cs with
    | c :: rest =>
      if c = '+' ∨ c = '-' then
        match simple? inside fuel (skipBlanks inside rest) with
        | some (.number imaginary false, rest) => some (.number imaginary true, rest)
        | _ => none
      else simple? inside fuel (c :: rest)
    | [] => none

def simple? (inside : Bool) : (fuel : Nat) → List Char → Option (Literal × List Char)
  | 0, _ => none
  | fuel + 1, cs =>
    match cs with
    | '(' :: rest =>
      match skipBlanks true rest with
      | ')' :: rest => some (.other true, rest)
      | rest => tuple? fuel rest
    | '\x7b' :: rest =>
      match skipBlanks true rest with
      | '\x7d' :: rest => some (.other false, rest)
      | rest => (braced? fuel rest).map (.other false, ·)
    | '.' :: '.' :: '.' :: rest => some (.other true, rest)
    | cs =>
      match number? cs, quoted? cs, word? cs, emptySet? inside cs with
      | some found, _, _, _ => some found
      | _, some (bytes, rest), _, _ => (quotedRun? inside bytes fuel rest).map (.other true, ·)
      | _, _, some rest, _ => some (.other true, rest)
      | _, _, _, some rest => some (.other false, rest)
      | _, _, _, _ => none

def tuple? : (fuel : Nat) → List Char → Option (Literal × List Char)
  | 0, _ => none
  | fuel + 1, cs => do
    let (first, rest) ← literal? true fuel cs
    match skipBlanks true rest with
    | ')' :: rest => some (first, rest)
    | ',' :: rest =>
      let (areKeys, rest) ← items? ')' fuel rest
      some (.other (first.isKey && areKeys), rest)
    | _ => none

/-- The literals up to a bracket, each with a comma before it; whether all are fit to be keys. -/
def items? (close : Char) : (fuel : Nat) → List Char → Option (Bool × List Char)
  | 0, _ => none
  | fuel + 1, cs => do
    match skipBlanks true cs with
    | [] => none
    | c :: rest =>
      if c = close then some (true, rest)
      else
        let (item, rest) ← literal? true fuel (c :: rest)
        match skipBlanks true rest with
        | ',' :: rest =>
          let (areKeys, rest) ← items? close fuel rest
          some (item.isKey && areKeys, rest)
        | c :: rest => if c = close then some (item.isKey, rest) else none
        | [] => none

def braced? : (fuel : Nat) → List Char → Option (List Char)
  | 0, _ => none
  | fuel + 1, cs => do
    let (first, rest) ← literal? true fuel cs
    if !first.isKey then none
    else
      match skipBlanks true rest with
      | '\x7d' :: rest => some rest
      | ',' :: rest =>
        let (areKeys, rest) ← items? '\x7d' fuel rest
        if areKeys then some rest else none
      | ':' :: rest => entries? fuel rest
      | _ => none

def entries? : (fuel : Nat) → List Char → Option (List Char)
  | 0, _ => none
  | fuel + 1, cs => do
    let (_, rest) ← literal? true fuel cs
    match skipBlanks true rest with
    | '\x7d' :: rest => some rest
    | ',' :: rest =>
      match skipBlanks true rest with
      | '\x7d' :: rest => some rest
      | rest =>
        let (key, rest) ← literal? true fuel rest
        match skipBlanks true rest with
        | ':' :: rest => if key.isKey then entries? fuel rest else none
        | _ => none
    | _ => none

end

/-- Whether characters are literals with commas between them. `fuel` exceeds twice their number. -/
def areLiterals : (fuel : Nat) → List Char → Bool
  | 0, _ => false
  | fuel + 1, cs =>
    match literal? false fuel cs with
    | none => false
    | some (_, rest) =>
      match skipBlanks false rest with
      | [] => true
      | ',' :: rest => (skipBlanks false rest).isEmpty || areLiterals fuel rest
      | _ => false

def splitName (cs : List Char) : List Char × List Char :=
  let isName (c : Char) : Bool :=
    c.isAlphanum || c == '_' || c == '.' || (!c.val < 128 && !Text.isBlank (.char c))
  (cs.takeWhile isName, cs.dropWhile isName)

/-- The arguments of a handler: those in brackets behind its name, none behind a bare name, and all
of it if it has no such form. -/
def arguments (cs : List Char) : List Char :=
  let (name, rest) := splitName cs
  if rest.isEmpty then ['(', ')']
  else if rest.head? = some '(' && rest.getLast? = some ')' && !rest.contains '\n' then rest
  else name ++ rest

def isSound (handler : Text) : Bool :=
  match (Text.trim handler).chars? with
  | none => false
  | some cs =>
    let arguments := arguments cs
    cs.isEmpty || areLiterals (2 * arguments.length + 2) arguments

end AgentConfig.Handler
