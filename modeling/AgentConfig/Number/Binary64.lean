namespace AgentConfig

inductive Binary64 where
  | nan
  | infinite (negative : Bool)
  | finite (negative : Bool) (mantissa : Nat) (exponent : Int)
  deriving DecidableEq, Repr

namespace Binary64

def minExponent : Int := -1074

def maxExponent : Int := 971

def zero (negative : Bool) : Binary64 := .finite negative 0 minExponent

/-- A natural power; a negative exponent counts as zero. -/
def power (base : Nat) (exponent : Int) : Nat := Nat.pow base exponent.toNat

/-- `⌊log₂ (num / den)⌋` for positive `num` and `den`. -/
def logRatio (num den : Nat) : Int :=
  let guess : Int := num.log2 - den.log2
  let reached : Bool :=
    if guess < 0 then den ≤ num * power 2 (-guess) else den * power 2 guess ≤ num
  if reached then guess else guess - 1

/-- `num / den` rounded to a natural number, ties to even. -/
def roundQuotient (num den : Nat) : Nat :=
  let q := num / den
  let r := num % den
  if den < 2 * r ∨ (2 * r = den ∧ q % 2 = 1) then q + 1 else q

/-- The number nearest to `± num / den`, for positive `den`. -/
def ofRatio (negative : Bool) (num den : Nat) : Binary64 :=
  if num = 0 then zero negative
  else
    let exponent := max minExponent (logRatio num den - 52)
    let mantissa :=
      if exponent < 0 then roundQuotient (num * power 2 (-exponent)) den
      else roundQuotient num (den * power 2 exponent)
    let (mantissa, exponent) :=
      if mantissa = power 2 53 then (power 2 52, exponent + 1) else (mantissa, exponent)
    if maxExponent < exponent then .infinite negative else .finite negative mantissa exponent

def ofScaled (negative : Bool) (mantissa : Nat) (exponent : Int) : Binary64 :=
  if exponent < 0 then ofRatio negative mantissa (power 2 (-exponent))
  else ofRatio negative (mantissa * power 2 exponent) 1

/-- The number nearest to `± digits · 10 ^ exponent`. Beyond 400 decimal places on either side the
result is infinite or zero, whatever the digits are. -/
def ofDecimal (negative : Bool) (digits : Nat) (exponent : Int) : Binary64 :=
  let places : Int := (Nat.toDigits 10 digits).length + exponent
  if digits = 0 ∨ places < -400 then zero negative
  else if 400 < places then .infinite negative
  else if exponent < 0 then ofRatio negative digits (power 10 (-exponent))
  else ofRatio negative (digits * power 10 exponent) 1

def ofNat? (n : Nat) : Option Binary64 :=
  match ofRatio false n 1 with
  | .finite s m e => some (.finite s m e)
  | _ => none

def neg : Binary64 → Binary64
  | .nan => .nan
  | .infinite s => .infinite (!s)
  | .finite s m e => .finite (!s) m e

def isZero : Binary64 → Bool
  | .finite _ 0 _ => true
  | _ => false

/-- The signed mantissa of a finite number at the exponent `e`, which is at most its own. -/
def scaledTo (negative : Bool) (mantissa : Nat) (exponent e : Int) : Int :=
  let m : Int := mantissa * power 2 (exponent - e)
  if negative then -m else m

def add : Binary64 → Binary64 → Binary64
  | .finite s m e, .finite s' m' e' =>
    let least := min e e'
    let sum := scaledTo s m e least + scaledTo s' m' e' least
    if sum = 0 then zero (s && s') else ofScaled (sum < 0) sum.natAbs least
  | .nan, _ => .nan
  | _, .nan => .nan
  | .infinite s, .infinite s' => if s = s' then .infinite s else .nan
  | .infinite s, _ => .infinite s
  | _, .infinite s => .infinite s

def mul : Binary64 → Binary64 → Binary64
  | .finite s m e, .finite s' m' e' => ofScaled (s != s') (m * m') (e + e')
  | .nan, _ => .nan
  | _, .nan => .nan
  | .infinite s, .infinite s' => .infinite (s != s')
  | .infinite s, .finite s' m _ => if m = 0 then .nan else .infinite (s != s')
  | .finite s m _, .infinite s' => if m = 0 then .nan else .infinite (s != s')

def equalsInt : Binary64 → Int → Bool
  | .finite s m e, n =>
    if e < 0 then scaledTo s m e e == n * power 2 (-e) else scaledTo s m e 0 == n
  | _, _ => false

/-- Numeric equality: the two zeros are equal, and `nan` equals itself, as when both stand for the
same entry of a mapping. -/
def sameNumber (x y : Binary64) : Bool := x == y || (x.isZero && y.isZero)

end Binary64

end AgentConfig
