import AgentConfig.Text.Basic

namespace AgentConfig.Yaml

/-- Why a text yields no value. Most faults belong to scalars that have the form of their kind but
stand for no value of it. -/
inductive Fault where
  | malformed
  | unconvertible (reason : Text)
  /-- A word marked as a truth value that is none. -/
  | unknownWord
  /-- An empty text marked as a number. -/
  | emptyNumber
  /-- A text marked as a time that has not the form of one. -/
  | shapelessTime
  | timeOfMapping
  | tooLarge
  /-- A mapping that stands for the text of its own entry. -/
  | endlessText
  | tooDeep
  deriving DecidableEq, Repr

/-- A line that starts with `%`. Directives of other names have no effect. -/
inductive Directive where
  | version (major minor : Nat)
  | tag (handle uri : Text)
  | other (name : Text)
  deriving DecidableEq, Repr

inductive Token where
  | directive (d : Directive)
  | documentStart
  | documentEnd
  | blockSequenceStart
  | blockMappingStart
  | blockEnd
  | flowSequenceStart
  | flowSequenceEnd
  | flowMappingStart
  | flowMappingEnd
  | blockEntry
  | flowEntry
  | key
  | value
  | alias (name : Text)
  | anchor (name : Text)
  | tag (handle : Option Text) (suffix : Text)
  /-- A scalar; `plain` when it is written without quotes or block indicators. -/
  | scalar (text : Text) (plain : Bool)
  | streamEnd
  deriving DecidableEq, Repr

end AgentConfig.Yaml
