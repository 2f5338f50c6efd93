import AgentConfig.Text.Case
import AgentConfig.Yaml.Lexer
import AgentConfig.Yaml.Value

namespace AgentConfig.Yaml

def shownLetters : Nat := 200

def intLiteral (base : Nat) (text : Text) : Except Fault Int :=
  (Literal.int base text).mapError fun
    | .tooLong digits => .unconvertible (Lexer.tooManyDigits digits)
    | .malformed =>
      .unconvertible ("invalid literal for int() with base " ++ Text.ofNat base ++ ": " ++
        (Text.quoted text).take shownLetters)

def withoutUnderscores (text : Text) : Text := text.filter (· != .char '_')

def unsignedInt (text : Text) : Except Fault Int :=
  match text with
  | [] => .error .emptyNumber
  | [.char '0'] => .ok 0
  | .char '0' :: .char 'b' :: digits => intLiteral 2 digits
  | .char '0' :: .char 'x' :: digits => intLiteral 16 digits
  | .char '0' :: _ => intLiteral 8 text
  | _ =>
    if text.contains (.char ':') then do
      let parts ← (Text.splitOn ':' text).mapM (intLiteral 10)
      .ok (parts.foldl (fun n part => 60 * n + part) 0)
    else intLiteral 10 text

def intOf (text : Text) : Except Fault Int :=
  match withoutUnderscores text with
  | [] => .error .emptyNumber
  | .char '-' :: text => (unsignedInt text).map (- ·)
  | .char '+' :: text => unsignedInt text
  | text => unsignedInt text

def floatLiteral (text : Text) : Except Fault Binary64 :=
  match Literal.float? text with
  | some x => .ok x
  | none => .error (.unconvertible ("could not convert string to float: " ++ Text.quoted text))

def sumSixtieths : (base : Nat) → (sum : Binary64) → List Binary64 → Except Fault Binary64
  | _, sum, [] => .ok sum
  | base, sum, part :: parts =>
    match Binary64.ofNat? base with
    | none => .error .tooLarge
    | some weight => sumSixtieths (60 * base) (sum.add (part.mul weight)) parts

def unsignedFloat (text : Text) : Except Fault Binary64 :=
  if text = ".inf" then .ok (.infinite false)
  else if text.contains (.char ':') then do
    let parts ← (Text.splitOn ':' text).mapM floatLiteral
    sumSixtieths 1 (.zero false) parts.reverse
  else floatLiteral text

def floatOf (origin : Nat) (text : Text) : Except Fault Value :=
  let valueOf (x : Binary64) : Value := if x = .nan then .nan (some origin) else .float x
  let unsigned (negative : Bool) (text : Text) : Except Fault Value :=
    if text = ".nan" then .ok (.nan none)
    else (unsignedFloat text).map fun x => valueOf (if negative then x.neg else x)
  match Text.lower (withoutUnderscores text) with
  | [] => .error .emptyNumber
  | .char '-' :: text => unsigned true text
  | .char '+' :: text => unsigned false text
  | text => unsigned false text

def boolOf (text : Text) : Except Fault Bool :=
  let word := Text.lower text
  if Tag.trueWords.any (word == ·) then .ok true
  else if Tag.falseWords.any (word == ·) then .ok false
  else .error .unknownWord

def base64Digit? (c : Char) : Option Nat :=
  if 'A' ≤ c ∧ c ≤ 'Z' then some (c.toNat - 65)
  else if 'a' ≤ c ∧ c ≤ 'z' then some (c.toNat - 71)
  else if '0' ≤ c ∧ c ≤ '9' then some (c.toNat + 4)
  else if c = '+' then some 62
  else if c = '/' then some 63
  else none

/-- Decodes base-64 digits four at a time; other characters are passed over. `place` counts the
digits of the current group, `carry` holds its bits not yet written, and `pads` counts the `=`. -/
def base64From : (place carry pads : Nat) → List Char → Option (List UInt8)
  | place, _, _, [] => if place = 0 then some [] else none
  | place, carry, pads, c :: cs =>
    if c = '=' then
      if 2 ≤ place ∧ 4 ≤ place + pads + 1 then some []
      else base64From place carry (if 2 ≤ place then pads + 1 else pads) cs
    else
      match base64Digit? c with
      | none => base64From place carry pads cs
      | some d =>
        match place with
        | 0 => base64From 1 d 0 cs
        | 1 => (base64From 2 (d % 16) 0 cs).map (UInt8.ofNat (carry * 4 + d / 16) :: ·)
        | 2 => (base64From 3 (d % 4) 0 cs).map (UInt8.ofNat (carry * 16 + d / 4) :: ·)
        | _ => (base64From 0 0 0 cs).map (UInt8.ofNat (carry * 64 + d) :: ·)

def bytesOf (text : Text) : Except Fault (List UInt8) :=
  match text.chars? with
  | none => .error .malformed
  | some cs =>
    if cs.any fun c => 0x80 ≤ c.toNat then .error .malformed
    else
      match base64From 0 0 0 cs with
      | some bytes => .ok bytes
      | none => .error .malformed

/-- The value of the text in the node `origin` under a tag of scalars. -/
def scalarValue (tag : Tag) (origin : Nat) (text : Text) : Except Fault Value :=
  match tag with
  | .null => .ok .null
  | .bool => (boolOf text).map .bool
  | .int => (intOf text).map .int
  | .float => floatOf origin text
  | .binary => (bytesOf text).map .bytes
  | .timestamp =>
    (timeOf text).map fun
      | .inl d => .date d
      | .inr m => .moment m
  | .str => .ok (.str text)
  | _ => .error .malformed

end AgentConfig.Yaml
