import AgentConfig.Number.Literal
import AgentConfig.Text.Quoted
import AgentConfig.Yaml.Time

namespace AgentConfig.Yaml

inductive Value where
  | null
  | bool (value : Bool)
  | int (value : Int)
  | float (value : Binary64)
  /-- The outcome of a calculation that is no number, with the node it was written in; the word for
  it has no such origin. -/
  | nan (origin : Option Nat)
  | str (value : Text)
  | date (value : Date)
  | moment (value : Moment)
  | bytes (value : List UInt8)
  | cell (place : Nat)
  deriving DecidableEq, Repr, Inhabited

inductive Cell where
  | seq (items : List Value)
  | pair (key value : Value)
  | set (items : List Value)
  | map (entries : List (Value × Value))
  deriving DecidableEq, Repr

structure Graph where
  cells : Array Cell := #[]
  root : Value := .null
  deriving Repr

namespace Value

def maxDigits : Nat := Literal.maxDigits

def intText (n : Int) : Except Fault Text :=
  if Nat.pow 10 maxDigits ≤ n.natAbs then
    .error (.unconvertible ("Exceeds the limit (4300 digits) for integer string conversion; " ++
      "use sys.set_int_max_str_digits() to increase the limit"))
  else .ok (Text.ofInt n)

/-- Whether two scalars are one key of a mapping. A truth value is the key 0 or 1, numbers are
compared as numbers, and what is no number is the same only as itself. -/
def sameKey : Value → Value → Bool
  | .null, .null => true
  | .bool a, .bool b => a == b
  | .bool a, .int b => (if a then 1 else 0) == b
  | .int a, .bool b => a == (if b then 1 else 0)
  | .int a, .int b => a == b
  | .int a, .float b => b.equalsInt a
  | .float a, .int b => a.equalsInt b
  | .bool a, .float b => b.equalsInt (if a then 1 else 0)
  | .float a, .bool b => a.equalsInt (if b then 1 else 0)
  | .float a, .float b => a.sameNumber b
  | .nan a, .nan b => a == b
  | .str a, .str b => a == b
  | .date a, .date b => a == b
  | .moment a, .moment b => a.sameAs b
  | .bytes a, .bytes b => a == b
  | _, _ => false

def isKey : Value → Bool
  | .cell _ => false
  | _ => true

def text? : Value → Option Text
  | .str s => some s
  | _ => none

/-- Gives a key a value: in the place of the equal key, if there is one, else at the end. -/
def putEntry (key value : Value) : List (Value × Value) → List (Value × Value)
  | [] => [(key, value)]
  | (k, v) :: rest =>
    if k.sameKey key then (k, value) :: rest else (k, v) :: putEntry key value rest

def lookup? (key : Text) (entries : List (Value × Value)) : Option Value :=
  (entries.find? fun e => e.1.sameKey (.str key)).map (·.2)

def scalarLiteral : Value → Except Fault Text
  | .null => .ok "None"
  | .bool b => .ok (if b then "True" else "False")
  | .int n => intText n
  | .float x => .ok (x.textWith "nan" "inf")
  | .nan _ => .ok "nan"
  | .str s => .ok (Text.quoted s)
  | .date d => .ok d.literal
  | .moment m => .ok m.literal
  | .bytes b => .ok (Text.quotedBytes b)
  | .cell _ => .ok "..."

end Value

namespace Cell

def ellipsis : Cell → Text
  | .seq _ => "[...]"
  | .pair _ _ => "(...)"
  | .set _ => "set(...)"
  | .map _ => "\x7b...\x7d"

def isEmpty : Cell → Bool
  | .seq items => items.isEmpty
  | .pair _ _ => false
  | .set items => items.isEmpty
  | .map entries => entries.isEmpty

end Cell

namespace Graph

def cell? (g : Graph) : Value → Option Cell
  | .cell place => g.cells[place]?
  | _ => none

def items? (g : Graph) (v : Value) : Option (List Value) :=
  match g.cell? v with
  | some (.seq items) => some items
  | _ => none

def entries? (g : Graph) (v : Value) : Option (List (Value × Value)) :=
  match g.cell? v with
  | some (.map entries) => some entries
  | _ => none

/-- Whether a value counts as true: all but null, false, zero and the empty ones. -/
def isTruthy (g : Graph) (v : Value) : Bool :=
  match v with
  | .null => false
  | .bool b => b
  | .int n => n != 0
  | .float x => !x.isZero
  | .str s => !s.isEmpty
  | .bytes b => !b.isEmpty
  | .cell _ => (g.cell? v).any (!·.isEmpty)
  | _ => true

def bracketed (opening closing : Text) (parts : List Text) : Text :=
  opening ++ Text.intercalate ", " parts ++ closing

/-- The literal of a value inside the cells of `path`. A cell of the path is not opened again, so
`fuel` need only exceed the number of cells that are not in it. The limit that an environment may
set to the depth of a value, which is reached through aliases only, is left out. -/
def literalFrom (g : Graph) : (fuel : Nat) → (path : List Nat) → Value → Except Fault Text
  | fuel + 1, path, .cell place => do
    let inside := g.literalFrom fuel (place :: path)
    match g.cells[place]? with
    | none => return "..."
    | some cell =>
      if path.contains place then return cell.ellipsis
      match cell with
      | .seq items => return bracketed "[" "]" (← items.mapM inside)
      | .pair key value => return bracketed "(" ")" [← inside key, ← inside value]
      | .set [] => return "set()"
      | .set items => return bracketed "\x7b" "\x7d" (← items.mapM inside)
      | .map entries =>
        let parts ← entries.mapM fun (k, v) => do return (← inside k) ++ ": " ++ (← inside v)
        return bracketed "\x7b" "\x7d" parts
  | _, _, v => v.scalarLiteral

def literal (g : Graph) (v : Value) : Except Fault Text := g.literalFrom (g.cells.size + 1) [] v

def text (g : Graph) (v : Value) : Except Fault Text :=
  match v with
  | .str s => .ok s
  | .date d => .ok d.text
  | .moment m => .ok m.text
  | v => g.literal v

end Graph

structure Mapping where
  graph : Graph := {}
  entries : List (Value × Value) := []
  deriving Repr

namespace Mapping

def ofGraph? (g : Graph) : Option Mapping := (g.entries? g.root).map (⟨g, ·⟩)

def get? (m : Mapping) (key : Text) : Option Value := Value.lookup? key m.entries

end Mapping

end AgentConfig.Yaml
