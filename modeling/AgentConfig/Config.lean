import AgentConfig.Config.Schema
import AgentConfig.Platform.Default

namespace AgentConfig

structure Config where
  version : Text
  targets : List Text := []
  hooks : List Hook := []
  deriving DecidableEq, Repr

inductive ConfigFault where
  | malformed
  | notMapping
  | violations (found : List Config.Violation)
  | value (fault : Yaml.Fault)
  /-- Under a key there is not what is asked of it. -/
  | unread (key : Text)
  deriving DecidableEq, Repr

namespace ConfigFault

def detail : ConfigFault → Text
  | .malformed => "not valid YAML: a rule of the language is broken"
  | .notMapping => "must contain a YAML mapping"
  | .violations found => Text.intercalate "; " (found.map Config.Violation.text)
  | .value _ => "not valid YAML: a value cannot be converted"
  | .unread key => "nothing to read: " ++ key

def message (path : Option Text) (fault : ConfigFault) : Text :=
  "Invalid config (" ++ fault.detail ++ ")" ++
    match path with
    | some path => ": " ++ path
    | none => ""

end ConfigFault

namespace Config

open Yaml (Graph Mapping Value)

def hookSchema : Schema :=
  .mapping ["event", "run", "description"]
    [("event", .text (some (HookEvent.all.map HookEvent.text))), ("match", .text none),
      ("run", .text none), ("description", .text none)]

def schema (platforms : List Text) : Schema :=
  .mapping ["version"]
    [("version", .text (some ["1"])), ("targets", .list (.text (some platforms))),
      ("hooks", .list hookSchema)]

/-- What is found under a key, which has to be there. -/
def found {α : Type} (key : Text) : Option α → Except ConfigFault α
  | some x => .ok x
  | none => .error (.unread key)

def textAt (m : Mapping) (key : Text) : Except ConfigFault Text :=
  found key ((m.get? key).bind Value.text?)

/-- The list under a key, item by item; a key that is not there stands for no items. -/
def listAt {α : Type} (m : Mapping) (key : Text) (read : Value → Except ConfigFault α) :
    Except ConfigFault (List α) :=
  match m.get? key with
  | none => .ok []
  | some v => do (← found key (m.graph.items? v)).mapM read

def hookOf (g : Graph) (item : Value) : Except ConfigFault Hook := do
  let m : Mapping := ⟨g, ← found "hooks" (g.entries? item)⟩
  return {
    event := ← found "event" (HookEvent.ofText? (← textAt m "event"))
    run := ← textAt m "run"
    description := ← textAt m "description"
    glob := ← (m.get? "match").mapM fun v => found "match" v.text? }

/-- The configuration in a mapping. Each value is read as if it had to be there and to be of its
kind. -/
def ofMapping (m : Mapping) : Except ConfigFault Config := do
  let hooks ← listAt m "hooks" (hookOf m.graph)
  return {
    version := ← textAt m "version"
    targets := ← listAt m "targets" fun v => found "targets" v.text?
    hooks }

/-- The configuration a graph stands for. No platforms stand for all supported ones. -/
def ofGraph (platforms : List Text) (g : Graph) : Except ConfigFault Config :=
  match Mapping.ofGraph? g with
  | none => .error .notMapping
  | some m =>
    let platforms := if platforms.isEmpty then Profile.defaultNames else platforms
    match (schema platforms).violations g [] g.root with
    | .error fault => .error (.value fault)
    | .ok [] => ofMapping m
    | .ok found => .error (.violations (Violation.sort found))

/-- The configuration a text holds, `load` being the reader of the text. -/
def parseWith (load : Text → Except Yaml.Fault Graph) (platforms : List Text) (text : Text) :
    Except ConfigFault Config :=
  match load text with
  | .error .malformed => .error .malformed
  | .error fault => .error (.value fault)
  | .ok graph => ofGraph platforms graph

def parse (platforms : List Text) (text : Text) : Except ConfigFault Config :=
  parseWith Yaml.load platforms text

end Config

end AgentConfig
