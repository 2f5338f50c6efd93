import AgentConfig.Number.Binary64

namespace AgentConfig.Binary64

structure Decimal where
  digits : Nat
  exponent : Int
  deriving DecidableEq, Repr

def Decimal.toBinary (d : Decimal) : Binary64 := ofDecimal false d.digits d.exponent

/-- The decimal without trailing zeros in its digits; `fuel` bounds the zeros removed. -/
def Decimal.normalize : (fuel : Nat) → Decimal → Decimal
  | 0, d => d
  | fuel + 1, d =>
    if d.digits ≠ 0 ∧ d.digits % 10 = 0 then normalize fuel ⟨d.digits / 10, d.exponent + 1⟩ else d

/-- `⌊log₁₀ (num / den)⌋` for positive `num` and `den`. -/
def logTenRatio (num den : Nat) : Int :=
  let guess : Int := (Nat.toDigits 10 num).length - (Nat.toDigits 10 den).length
  let reached : Bool :=
    if guess < 0 then den ≤ num * power 10 (-guess) else den * power 10 guess ≤ num
  if reached then guess else guess - 1

def inUnits (num den : Nat) (place : Int) : Nat × Nat :=
  if place < 0 then (num * power 10 (-place), den) else (num, den * power 10 place)

/-- A neighbour of `num / den` on the grid of multiples of `10 ^ place` that reads back as `x`. -/
def neighbour? (x : Binary64) (num den : Nat) (place : Int) : Option Decimal :=
  let (num, den) := inUnits num den place
  let q := num / den
  let r := num % den
  let below : Decimal := ⟨q, place⟩
  let above : Decimal := ⟨q + 1, place⟩
  let nearer := if 2 * r < den ∨ (2 * r = den ∧ q % 2 = 0) then (below, above) else (above, below)
  if nearer.1.toBinary = x then some nearer.1
  else if nearer.2.toBinary = x then some nearer.2
  else none

/-- The first of the grids from `place` downwards with a neighbour that reads back. -/
def firstGrid (x : Binary64) (num den : Nat) : (grids : Nat) → (place : Int) → Option Decimal
  | 0, _ => none
  | grids + 1, place =>
    (neighbour? x num den place).or (firstGrid x num den grids (place - 1))

def exactDecimal (mantissa : Nat) (exponent : Int) : Decimal :=
  if exponent < 0 then ⟨mantissa * power 5 (-exponent), exponent⟩
  else ⟨mantissa * power 2 exponent, 0⟩

def shortest (mantissa : Nat) (exponent : Int) : Decimal :=
  if mantissa = 0 then ⟨0, 0⟩
  else
    let num := if exponent < 0 then mantissa else mantissa * power 2 exponent
    let den := if exponent < 0 then power 2 (-exponent) else 1
    let place := logTenRatio num den
    let found := firstGrid (.finite false mantissa exponent) num den 17 place
    Decimal.normalize 20 (found.getD (exactDecimal mantissa exponent))

/-- The text of a decimal: positional when the leading digit stands at 10^-4 to 10^15, else with an
exponent of at least two digits. -/
def Decimal.text (d : Decimal) : String :=
  let digits := (Nat.repr d.digits).toList
  let point : Int := digits.length + d.exponent
  if d.digits = 0 then "0.0"
  else if point ≤ -4 ∨ 16 < point then
    let power := point - 1
    let exponent := (Nat.repr power.natAbs).toList.leftpad 2 '0'
    let fraction := match digits with
      | [] => []
      | [c] => [c]
      | c :: rest => c :: '.' :: rest
    String.ofList (fraction ++ 'e' :: (if power < 0 then '-' else '+') :: exponent)
  else if point ≤ 0 then
    String.ofList ('0' :: '.' :: List.replicate (-point).toNat '0' ++ digits)
  else if 0 ≤ d.exponent then
    String.ofList (digits ++ List.replicate d.exponent.toNat '0' ++ ['.', '0'])
  else String.ofList (digits.take point.toNat ++ '.' :: digits.drop point.toNat)

def textWith (nan infinity : String) : Binary64 → String
  | .nan => nan
  | .infinite negative => if negative then "-" ++ infinity else infinity
  | .finite negative m e =>
    let text := (shortest m e).text
    if negative then "-" ++ text else text

end AgentConfig.Binary64
