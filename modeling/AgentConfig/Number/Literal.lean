import AgentConfig.Number.Shortest
import AgentConfig.Text.Basic

namespace AgentConfig.Literal

/-- The characters a literal is read by: decimal digits and blanks beyond ASCII count as ASCII ones,
and anything else there as a question mark, which no literal holds. -/
def plainChar (l : Letter) : Char :=
  if l.code < 0x7F then Char.ofNat l.code
  else if Text.isBlank l then ' '
  else
    match Text.decimalValue? l with
    | some n => Nat.digitChar n
    | none => '?'

def isSpace (c : Char) : Bool := c == ' ' || (9 ≤ c.toNat && c.toNat ≤ 13)

def digit? (base : Nat) (c : Char) : Option Nat :=
  let value :=
    if '0' ≤ c ∧ c ≤ '9' then c.toNat - 48
    else if 'a' ≤ c ∧ c ≤ 'z' then c.toNat - 87
    else if 'A' ≤ c ∧ c ≤ 'Z' then c.toNat - 55
    else 36
  if value < base then some value else none

def digits? (base : Nat) (cs : List Char) : Option Nat :=
  if cs.isEmpty then none else cs.foldlM (fun n c => (digit? base c).map (base * n + ·)) 0

def splitSign : List Char → Bool × List Char
  | '-' :: cs => (true, cs)
  | '+' :: cs => (false, cs)
  | cs => (false, cs)

def baseLetter? : Nat → Option Char
  | 2 => some 'b'
  | 8 => some 'o'
  | 16 => some 'x'
  | _ => none

def dropBaseMark (base : Nat) : List Char → List Char
  | '0' :: c :: cs => if baseLetter? base = some c.toLower then cs else '0' :: c :: cs
  | cs => cs

def maxDigits : Nat := 4300

inductive IntFault where
  | malformed
  | tooLong (digits : Nat)
  deriving DecidableEq, Repr

/-- An integer literal: a sign and a mark for the base are allowed. Decimal digits in excess are
found before anything that may follow them. -/
def int (base : Nat) (text : Text) : Except IntFault Int :=
  let (negative, cs) := splitSign ((text.map plainChar).dropWhile isSpace)
  let cs := dropBaseMark base cs
  let run := cs.takeWhile fun c => (digit? base c).isSome
  if base = 10 ∧ maxDigits < run.length then .error (.tooLong run.length)
  else if (cs.drop run.length).any (!isSpace ·) then .error .malformed
  else
    match digits? base run with
    | some n => .ok (if negative then -(n : Int) else n)
    | none => .error .malformed

/-- The digits of a decimal literal before its exponent: all digits, and how many of them follow
the point. -/
def splitFraction (cs : List Char) : Option (List Char × Nat) :=
  let whole := cs.takeWhile Char.isDigit
  match cs.dropWhile Char.isDigit with
  | [] => if whole.isEmpty then none else some (whole, 0)
  | '.' :: fraction =>
    if fraction.all Char.isDigit && !(whole.isEmpty && fraction.isEmpty) then
      some (whole ++ fraction, fraction.length)
    else none
  | _ => none

def exponent? (cs : List Char) : Option Int :=
  let (negative, cs) := splitSign cs
  (digits? 10 cs).map fun n => if negative then -(n : Int) else n

def decimal? (negative : Bool) (cs : List Char) : Option Binary64 :=
  let isMark (c : Char) : Bool := c == 'e' || c == 'E'
  let mantissa := cs.takeWhile (!isMark ·)
  do
    let (digits, places) ← splitFraction mantissa
    let n ← digits? 10 digits
    let power ← match cs.dropWhile (!isMark ·) with
      | [] => some 0
      | _ :: rest => exponent? rest
    some (Binary64.ofDecimal negative n (power - places))

def float? (text : Text) : Option Binary64 :=
  let (negative, cs) :=
    splitSign (Text.dropEndWhile isSpace ((text.map plainChar).dropWhile isSpace))
  let word := String.ofList (cs.map Char.toLower)
  if word = "inf" ∨ word = "infinity" then some (.infinite negative)
  else if word = "nan" then some .nan
  else decimal? negative cs

end AgentConfig.Literal
