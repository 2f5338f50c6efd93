import AgentConfig.Text.Basic

namespace AgentConfig

inductive Feature where
  | instructions
  | scopedRules
  | descriptionRules
  | manualRules
  | hooks
  | commands
  | skills
  | agents
  deriving DecidableEq, Repr

def Feature.text : Feature → Text
  | .instructions => "instructions"
  | .scopedRules => "scoped-rules"
  | .descriptionRules => "description-triggered rules"
  | .manualRules => "manual rules"
  | .hooks => "hooks"
  | .commands => "commands"
  | .skills => "skills"
  | .agents => "agents"

inductive Support where
  | native
  | degraded
  | omitted
  deriving DecidableEq, Repr

/-- How the writer may treat a generated path. -/
inductive Ownership where
  /-- The file is generated and bears a marker. -/
  | full
  /-- The file is the user's; some of its keys are generated. -/
  | sharedKeys
  /-- The file is generated and bears no marker. -/
  | unmarked
  deriving DecidableEq, Repr

structure OutputFile where
  path : Text
  content : Text
  ownership : Ownership := .full
  deriving DecidableEq, Repr

structure Generated where
  files : List OutputFile := []
  warnings : List Text := []
  native : List Text := []
  degraded : List Text := []
  deriving DecidableEq, Repr

end AgentConfig
