import AgentConfig.Guidance
import AgentConfig.Json.Basic

namespace AgentConfig

class Described (α : Type) where
  name : α → Text
  /-- Empty when there is none. -/
  description : α → Text

instance : Described Rule := ⟨Rule.name, fun r => r.description.getD ""⟩

instance : Described Command := ⟨Command.name, Command.description⟩

instance : Described Skill := ⟨Skill.name, Skill.description⟩

instance : Described Agent := ⟨Agent.name, Agent.description⟩

structure Field (α : Type) where
  key : Text
  value : α → Json

namespace Field

variable {α : Type}

def constant (key : Text) (value : Json) : Field α := ⟨key, fun _ => value⟩

def name [Described α] (key : Text) : Field α := ⟨key, fun x => .str (Described.name x)⟩

def description [Described α] (key : Text) : Field α :=
  ⟨key, fun x => .str (Described.description x)⟩

def descriptionOrName [Described α] (key : Text) : Field α :=
  ⟨key, fun x =>
    .str (if (Described.description x).isEmpty then Described.name x else Described.description x)⟩

def globList (key : Text) : Field Rule := ⟨key, fun r => .arr ((r.globs.getD []).map .str)⟩

def globText (key : Text) : Field Rule :=
  ⟨key, fun r => .str (Text.intercalate "," (r.globs.getD []))⟩

def model (key : Text) : Field Agent := ⟨key, fun a => .str (a.model.getD "")⟩

def toolList (key : Text) : Field Agent := ⟨key, fun a => .arr ((a.tools.getD []).map .str)⟩

def toolText (key : Text) : Field Agent :=
  ⟨key, fun a => .str (Text.intercalate ", " (a.tools.getD []))⟩

def isWorthwhile : Json → Bool
  | .null => false
  | .str s => !s.isEmpty
  | .arr items => !items.isEmpty
  | _ => true

/-- The fields of a thing, added to those already there; a key given twice keeps its first place and
takes its last value. -/
def resolveInto (done : Json.Members) (fields : List (Field α)) (x : α) : Json.Members :=
  fields.foldl (fun done f =>
    if isWorthwhile (f.value x) then done.put f.key (f.value x) else done) done

def resolve (fields : List (Field α)) (x : α) : Json.Members := resolveInto [] fields x

end Field

end AgentConfig
