import AgentConfig.Guidance
import AgentConfig.Yaml.Build

namespace AgentConfig

structure Header where
  globs : Option (List Text) := none
  alwaysApply : Option Bool := none
  manual : Option Bool := none
  description : Option Text := none
  priority : Priority := .normal
  aliases : Option (List Text) := none
  model : Option Text := none
  tools : Option (List Text) := none
  deriving DecidableEq, Repr, Inhabited

/-- A document: its header and the text below it, without surrounding blanks. -/
structure Document where
  header : Header := {}
  content : Text := ""
  deriving DecidableEq, Repr, Inhabited

namespace Header

def afterBreak? : Text → Option Text
  | .char '\n' :: rest => some rest
  | .char '\r' :: .char '\n' :: rest => some rest
  | _ => none

def afterOpening? (text : Text) : Option Text := do
  let rest ← Text.stripPrefix? "---" text
  afterBreak? (rest.dropWhile Text.isSpaceOrTab)

/-- What follows a closing line, which starts with the line break before its dashes and may end the
text. -/
def afterClosing? (text : Text) : Option Text := do
  let dashes ← afterBreak? text
  let rest ← Text.stripPrefix? "---" dashes
  let rest := rest.dropWhile Text.isSpaceOrTab
  if rest.isEmpty then some [] else afterBreak? rest

/-- The text before the first closing line, and the text after it. -/
def splitAtClosing? : Text → Option (Text × Text)
  | [] => none
  | l :: text =>
    match afterClosing? (l :: text) with
    | some body => some ([], body)
    | none => (splitAtClosing? text).map fun (block, body) => (l :: block, body)

def parts? (text : Text) : Option (Text × Text) := do splitAtClosing? (← afterOpening? text)

/-- The mapping of a header and the body below it, `load` being the reader of the block. A text
without a header, or whose block is malformed or holds anything but a mapping, is all body; an empty
block is an empty mapping. -/
def splitWith (load : Text → Except Yaml.Fault Yaml.Graph) (text : Text) :
    Except Yaml.Fault (Yaml.Mapping × Text) :=
  match parts? text with
  | none => .ok ({}, text)
  | some (block, body) =>
    match load block with
    | .error .malformed => .ok ({}, text)
    | .error fault => .error fault
    | .ok graph =>
      if graph.isTruthy graph.root then
        match Yaml.Mapping.ofGraph? graph with
        | some mapping => .ok (mapping, body)
        | none => .ok ({}, text)
      else .ok ({}, body)

def split (text : Text) : Except Yaml.Fault (Yaml.Mapping × Text) := splitWith Yaml.load text

open Yaml (Graph Value Fault)

def listOf (g : Graph) : Value → Except Fault (Option (List Text))
  | .null => .ok none
  | value => some <$> ((g.items? value).getD [value]).mapM g.text

def flagOf (g : Graph) : Value → Option Bool
  | .null => none
  | value => some (g.isTruthy value)

def textOf (g : Graph) : Value → Except Fault (Option Text)
  | .null => .ok none
  | value => some <$> g.text value

/-- The priority a value names, in whatever case; any other value is normal. -/
def priorityOf (g : Graph) (value : Value) : Priority :=
  match g.text value with
  | .ok text => (Priority.ofText? (Text.lower text)).getD .normal
  | .error _ => .normal

/-- The settings in the mapping of a header. Of the two spellings of one key, the first listed here
wins when both are present. -/
def ofMapping (m : Yaml.Mapping) : Except Fault Header := do
  let get (key : Text) : Value := (m.get? key).getD .null
  return {
    globs := ← listOf m.graph (get "globs")
    alwaysApply := flagOf m.graph ((m.get? "alwaysApply").getD (get "always_apply"))
    manual := flagOf m.graph (get "manual")
    description := ← textOf m.graph (get "description")
    priority := priorityOf m.graph (get "priority")
    aliases := ← listOf m.graph (get "aliases")
    model := ← textOf m.graph (get "model")
    tools := ← listOf m.graph (get "tools") }

/-- The scope of a rule, by the first line that holds: it always applies; it is manual; it has
globs; it has a description; it was told not to apply always, so it is manual; it always applies. -/
def scope (h : Header) : RuleScope :=
  if h.alwaysApply = some true then .always
  else if h.manual = some true then .manual
  else if (h.globs.getD []) ≠ [] then .glob
  else if (h.description.getD "") ≠ "" then .description
  else if h.alwaysApply = some false then .manual
  else .always

end Header

def Document.ofText (text : Text) : Except Yaml.Fault Document := do
  let (mapping, body) ← Header.split text
  return { header := ← Header.ofMapping mapping, content := Text.trim body }

def Document.toRule (name : Text) (d : Document) : Rule :=
  { name
    scope := d.header.scope
    content := d.content
    priority := d.header.priority
    globs := d.header.globs
    description := d.header.description }

def Document.toCommand (name : Text) (d : Document) : Command :=
  { name
    description := d.header.description.getD ""
    content := d.content
    aliases := d.header.aliases }

def Document.toAgent (name : Text) (d : Document) : Agent :=
  { name
    description := d.header.description.getD ""
    content := d.content
    model := d.header.model
    tools := d.header.tools }

end AgentConfig
