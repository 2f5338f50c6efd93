import AgentConfig.Platform.Generate

namespace AgentConfig

inductive FieldSource where
  | name
  | description
  | descriptionOrName
  | globList
  | globText
  | model
  | toolList
  | toolText
  deriving DecidableEq, Repr

namespace FieldSource

def text : FieldSource → Text
  | .name => "name"
  | .description => "description"
  | .descriptionOrName => "description-or-name"
  | .globList => "globs-list"
  | .globText => "globs-csv"
  | .model => "model"
  | .toolList => "tools-list"
  | .toolText => "tools-csv"

def all : List FieldSource :=
  [.name, .description, .descriptionOrName, .globList, .globText, .model, .toolList, .toolText]

def ofText? (text : Text) : Option FieldSource := all.find? fun s => s.text == text

def common? {α : Type} [Described α] (key : Text) : FieldSource → Option (Field α)
  | .name => some (.name key)
  | .description => some (.description key)
  | .descriptionOrName => some (.descriptionOrName key)
  | _ => none

end FieldSource

class Sourced (α : Type) where
  /-- The field of a source, if the thing has it. -/
  field? : (key : Text) → FieldSource → Option (Field α)

instance : Sourced Rule where
  field? key
    | .globList => some (.globList key)
    | .globText => some (.globText key)
    | source => source.common? key

instance : Sourced Agent where
  field? key
    | .model => some (.model key)
    | .toolList => some (.toolList key)
    | .toolText => some (.toolText key)
    | source => source.common? key

instance : Sourced Command := ⟨fun key source => source.common? key⟩

instance : Sourced Skill := ⟨fun key source => source.common? key⟩

inductive DraftField where
  | constant (key : Text) (value : Json)
  | sourced (key : Text) (source : FieldSource)

namespace DraftField

def key : DraftField → Text
  | .constant key _ => key
  | .sourced key _ => key

/-- Adds a field: in the place of one with its key, if there is one, else at the end. -/
def putInto (f : DraftField) : List DraftField → List DraftField
  | [] => [f]
  | g :: rest => if g.key = f.key then f :: rest else g :: putInto f rest

def sourceTag : Text := "!!python/object/apply:agentrc.adapters.profiles.FieldValue"

/-- The field in the header of a page that is about no thing, where a source stands for itself. -/
def line : DraftField → Text
  | .constant key value => Yaml.print [(key, value)]
  | .sourced key source => Yaml.printTagged key sourceTag source.text

def header (fields : List DraftField) : Text :=
  if fields.isEmpty then ""
  else
    let lines := (fields.foldl (fun done f => putInto f done) []).map line
    "---\n" ++ Text.intercalate "\n" lines ++ "\n---"

variable {α : Type} [Sourced α]

def field? : DraftField → Option (Field α)
  | .constant key value => some (.constant key value)
  | .sourced key source => Sourced.field? key source

/-- The values of fields for a thing, if it has all their sources. -/
def resolve? (fields : List DraftField) (x : α) : Option Json.Members :=
  (fields.mapM field?).map fun fields => Field.resolve fields x

def isWritable : DraftField → Bool
  | .constant key value => Page.isWritable [(key, value)]
  | .sourced _ _ => true

def allKnown (α : Type) [Sourced α] (fields : List DraftField) : Bool :=
  fields.all fun f => (f.field? : Option (Field α)).isSome

end DraftField

structure DraftTreatment where
  support : Support := .omitted
  path : Option Template := none
  fields : List DraftField := []
  detail : Text := ""

structure Draft where
  name : Text
  rules : List (RuleScope × DraftTreatment) := []
  hooks : DraftTreatment := {}
  commands : DraftTreatment := {}
  skills : DraftTreatment := {}
  agents : DraftTreatment := {}
  instructionsPath : Option Text := none
  conventionsPath : Option Text := none
  conventionsFields : List DraftField := []
  managedDirs : List Text := []
  /-- The first number and the width, if the files of rules are numbered. -/
  numbering : Option (Int × Int) := none
  budget : Option Budget := none
  settingsPath : Option Text := none

inductive DraftFault where
  | noTreatment (scope : RuleScope)
  | badWidth (width : Int)
  | noPath (feature : Feature)
  | noSource (feature : Feature)
  | tooDeep (feature : Feature)
  deriving DecidableEq, Repr

def DraftFault.message : DraftFault → Text
  | .noTreatment scope => "no treatment of rules with the scope " ++ scope.text
  | .badWidth width =>
    "Invalid format specifier '0" ++ Text.ofInt width ++ "d' for object of type 'int'"
  | .noPath feature => "no path for " ++ feature.text
  | .noSource feature => "no such source for " ++ feature.text
  | .tooDeep feature => "too many levels in a field for " ++ feature.text

namespace DraftTreatment

def toRuleTreatment (t : DraftTreatment) : RuleTreatment :=
  { support := t.support, path := t.path, fields := t.fields.filterMap DraftField.field?
    detail := t.detail }

def toTreatment {α : Type} [Sourced α] (t : DraftTreatment) : Treatment α :=
  match t.support with
  | .native => .native (t.path.getD (.around "" "")) (t.fields.filterMap DraftField.field?)
  | .degraded => .folded t.detail
  | .omitted => .omitted

def toHookTreatment (settings : Option Text) (t : DraftTreatment) : HookTreatment :=
  match t.support with
  | .native => .native settings
  | .degraded => .folded t.detail
  | .omitted => .omitted

/-- What is lacking for a thing of a feature, which `isPlain` if its file has no header. -/
def fault? {α : Type} [Sourced α] (t : DraftTreatment) (feature : Feature)
    (isPlain : Template → α → Bool) (x : α) : Option DraftFault :=
  match t.support, t.path with
  | .native, none => some (.noPath feature)
  | .native, some path =>
    if isPlain path x then none
    else if !DraftField.allKnown α t.fields then some (.noSource feature)
    else if t.fields.all DraftField.isWritable then none
    else some (.tooDeep feature)
  | _, _ => none

end DraftTreatment

namespace Draft

/-- The profile of a draft, without what the draft cannot give. -/
def toProfile (d : Draft) : Profile :=
  { name := d.name
    rules := fun scope => ((d.rules.lookup scope).getD {}).toRuleTreatment
    hooks := d.hooks.toHookTreatment d.settingsPath
    commands := d.commands.toTreatment
    skills := d.skills.toTreatment
    agents := d.agents.toTreatment
    instructionsPath := d.instructionsPath
    conventionsPath := d.conventionsPath
    conventionsHeader := DraftField.header d.conventionsFields
    managedDirs := d.managedDirs
    naming := match d.numbering with
      | some (start, width) => .numbered start width.toNat
      | none => .plain
    budget := d.budget }

def ruleFault? (d : Draft) (r : Rule) : Option DraftFault :=
  match d.rules.lookup r.scope with
  | none => some (.noTreatment r.scope)
  | some t =>
    if t.path.isNone then none
    else
      let width := (d.numbering.map (·.2)).getD 0
      if width < 0 then some (.badWidth width)
      else if !DraftField.allKnown Rule t.fields then some (.noSource r.scope.feature)
      else if t.fields.all DraftField.isWritable then none
      else some (.tooDeep r.scope.feature)

def fault? (d : Draft) (g : Guidance) : Option DraftFault :=
  g.rules.findSome? d.ruleFault? <|>
    g.commands.findSome?
      (d.commands.fault? .commands fun path c => Profile.isToml (path.fill c.name)) <|>
    g.skills.findSome? (d.skills.fault? .skills fun _ _ => false) <|>
    g.agents.findSome? (d.agents.fault? .agents fun _ _ => false)

def generate (d : Draft) (g : Guidance) : Except DraftFault Generated :=
  match d.fault? g with
  | some fault => .error fault
  | none => .ok (d.toProfile.generate g)

end Draft

end AgentConfig
