import AgentConfig.Path
import AgentConfig.Yaml.Value

namespace AgentConfig.Config

inductive Schema where
  /-- A text, one of the allowed ones if they are listed. -/
  | text (allowed : Option (List Text))
  | list (item : Schema)
  /-- A mapping with no other keys than the listed ones. -/
  | mapping (required : List Text) (properties : List (Text × Schema))

structure Violation where
  path : List Text
  message : Text
  deriving DecidableEq, Repr

namespace Violation

def text (v : Violation) : Text := "/" ++ Text.intercalate "/" v.path ++ ": " ++ v.message

/-- Violations by path; those of one path keep their order. -/
def sort (vs : List Violation) : List Violation := vs.mergeSort fun a b => Path.le a.path b.path

end Violation

def textsLiteral (xs : List Text) : Text :=
  "[" ++ Text.intercalate ", " (xs.map Text.quoted) ++ "]"

namespace Schema

open Yaml (Fault Graph Mapping Value)

def wrongType (g : Graph) (path : List Text) (value : Value) (type : Text) :
    Except Fault (List Violation) := do
  return [⟨path, (← g.literal value) ++ " is not of type '" ++ type ++ "'"⟩]

/-- A value of another type is none of the allowed texts either. -/
def notAllowed (g : Graph) (path : List Text) (value : Value) :
    Option (List Text) → Except Fault (List Violation)
  | none => .ok []
  | some allowed => do
    if value.text?.any allowed.contains then return []
    return [⟨path, (← g.literal value) ++ " is not one of " ++ textsLiteral allowed⟩]

def textViolations (g : Graph) (path : List Text) (allowed : Option (List Text)) (value : Value) :
    Except Fault (List Violation) := do
  let typeFault ← if value.text?.isSome then pure [] else wrongType g path value "string"
  return typeFault ++ (← notAllowed g path value allowed)

def missing (path : List Text) (required : List Text) (m : Mapping) : List Violation :=
  (required.filter fun key => (m.get? key).isNone).map fun key =>
    ⟨path, Text.quoted key ++ " is a required property"⟩

/-- The literals of the keys that are not among the listed ones, in the order of their texts. -/
def extraKeys (listed : List Text) (m : Mapping) : Except Fault (List Text) := do
  let extras := (m.entries.map (·.1)).filter fun key =>
    !listed.any fun name => key.sameKey (.str name)
  let shown ← extras.mapM fun key => return (← m.graph.text key, ← m.graph.literal key)
  return (shown.mergeSort fun a b => Text.le a.1 b.1).map (·.2)

def unexpected (path : List Text) (listed : List Text) (m : Mapping) :
    Except Fault (List Violation) := do
  match ← extraKeys listed m with
  | [] => return []
  | keys =>
    let verb : Text := if keys.length = 1 then "was" else "were"
    return [⟨path, "Additional properties are not allowed (" ++ Text.intercalate ", " keys ++ " " ++
      verb ++ " unexpected)"⟩]

mutual

/-- The violations of a value at a path, in the order of the schema: type, required keys, the values
of the properties, further keys. A value of the wrong type is not looked into. -/
def violations (g : Graph) (path : List Text) : Schema → Value → Except Fault (List Violation)
  | .text allowed, value => textViolations g path allowed value
  | .list item, value =>
    match g.items? value with
    | some items => items.zipIdx.flatMapM fun (value, i) =>
      violations g (path ++ [Text.ofNat i]) item value
    | none => wrongType g path value "array"
  | .mapping required properties, value =>
    match g.entries? value with
    | some entries => do
      let m : Mapping := ⟨g, entries⟩
      let inside ← propertyViolations path properties m
      return missing path required m ++ inside ++ (← unexpected path (properties.map (·.1)) m)
    | none => wrongType g path value "object"

def propertyViolations (path : List Text) :
    List (Text × Schema) → Mapping → Except Fault (List Violation)
  | [], _ => .ok []
  | (name, schema) :: rest, m => do
    let found ← match m.get? name with
      | some value => violations m.graph (path ++ [name]) schema value
      | none => pure []
    return found ++ (← propertyViolations path rest m)

end

end Schema

end AgentConfig.Config
