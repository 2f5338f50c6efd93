import AgentConfig.Text.Basic

namespace AgentConfig

inductive RuleScope where
  | always
  | glob
  | description
  | manual
  deriving DecidableEq, Repr, Inhabited

def RuleScope.text : RuleScope → Text
  | .always => "always"
  | .glob => "glob"
  | .description => "description"
  | .manual => "manual"

def RuleScope.all : List RuleScope := [.always, .glob, .description, .manual]

def RuleScope.ofText? (text : Text) : Option RuleScope :=
  RuleScope.all.find? fun s => s.text == text

inductive Priority where
  | critical
  | high
  | normal
  | low
  deriving DecidableEq, Repr, Inhabited

def Priority.text : Priority → Text
  | .critical => "critical"
  | .high => "high"
  | .normal => "normal"
  | .low => "low"

/-- The place of a priority: the most urgent is 0. -/
def Priority.rank : Priority → Nat
  | .critical => 0
  | .high => 1
  | .normal => 2
  | .low => 3

def Priority.all : List Priority := [.critical, .high, .normal, .low]

def Priority.ofText? (text : Text) : Option Priority := Priority.all.find? fun p => p.text == text

inductive HookEvent where
  | postEdit
  | postCreate
  | preCommit
  deriving DecidableEq, Repr, Inhabited

def HookEvent.text : HookEvent → Text
  | .postEdit => "post-edit"
  | .postCreate => "post-create"
  | .preCommit => "pre-commit"

def HookEvent.all : List HookEvent := [.postEdit, .postCreate, .preCommit]

def HookEvent.ofText? (text : Text) : Option HookEvent :=
  HookEvent.all.find? fun e => e.text == text

structure Rule where
  name : Text
  scope : RuleScope := .always
  content : Text := ""
  priority : Priority := .normal
  globs : Option (List Text) := none
  description : Option Text := none
  deriving DecidableEq, Repr, Inhabited

/-- A command that runs after or before something happens to files that match `glob`. -/
structure Hook where
  event : HookEvent
  run : Text
  description : Text := ""
  glob : Option Text := none
  deriving DecidableEq, Repr, Inhabited

structure Command where
  name : Text
  description : Text := ""
  content : Text := ""
  aliases : Option (List Text) := none
  deriving DecidableEq, Repr, Inhabited

/-- A skill with its supporting files, as paths and texts. -/
structure Skill where
  name : Text
  description : Text := ""
  content : Text := ""
  files : List (Text × Text) := []
  deriving DecidableEq, Repr, Inhabited

structure Agent where
  name : Text
  description : Text := ""
  content : Text := ""
  model : Option Text := none
  tools : Option (List Text) := none
  deriving DecidableEq, Repr, Inhabited

structure Guidance where
  rules : List Rule := []
  hooks : List Hook := []
  commands : List Command := []
  skills : List Skill := []
  agents : List Agent := []
  /-- The platforms the project asks for; none stands for all. -/
  targets : List Text := []
  deriving DecidableEq, Repr, Inhabited

/-- Rules by priority, the most urgent first; rules of one priority keep their order. -/
def sortByPriority (rules : List Rule) : List Rule :=
  rules.mergeSort fun a b => decide (a.priority.rank ≤ b.priority.rank)

end AgentConfig
