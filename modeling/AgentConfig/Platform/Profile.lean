import AgentConfig.Platform.Budget
import AgentConfig.Platform.Field

namespace AgentConfig

/-- A path with places for a name, given as the texts around those places. -/
structure Template where
  pieces : List Text
  deriving DecidableEq, Repr

namespace Template

def fill (t : Template) (name : Text) : Text := Text.intercalate name t.pieces

def around (before after : Text) : Template := ⟨[before, after]⟩

def place : Text := "\x7bname\x7d"

/-- Splits a text at the places for the name; `skip` counts the letters of a place already met,
and `piece` is the current piece, last letter first. -/
def piecesFrom (skip : Nat) (piece : Text) : Text → List Text
  | [] => [piece.reverse]
  | l :: rest =>
    match skip with
    | skip + 1 => piecesFrom skip piece rest
    | 0 =>
      if (Text.stripPrefix? place (l :: rest)).isSome then
        piece.reverse :: piecesFrom (place.length - 1) [] rest
      else piecesFrom 0 (l :: piece) rest

def ofText (text : Text) : Template := ⟨piecesFrom 0 [] text⟩

end Template

/-- How a degraded feature is described when nothing else is said. -/
def foldedIntoInstructions : Text := "folded into instructions"

/-- How the rules of one scope land: in files of their own, or as sections of a page. -/
structure RuleTreatment where
  support : Support
  path : Option Template := none
  fields : List (Field Rule) := []
  detail : Text := ""

inductive Treatment (α : Type) where
  | native (path : Template) (fields : List (Field α))
  | folded (detail : Text)
  | omitted

inductive HookTreatment where
  /-- In a settings document shared with the user, if the platform has one. -/
  | native (settings : Option Text)
  | folded (detail : Text)
  | omitted

inductive Naming where
  | plain
  /-- With a number in front, counted from `start` and padded with zeros to `width`. -/
  | numbered (start : Int) (width : Nat)
  deriving DecidableEq, Repr

def Naming.fileName (naming : Naming) (name : Text) (position : Nat) : Text :=
  match naming with
  | .plain => name
  | .numbered start width => Text.padded width (position + start) ++ "-" ++ name

structure Profile where
  name : Text
  rules : RuleScope → RuleTreatment
  hooks : HookTreatment
  commands : Treatment Command
  skills : Treatment Skill
  agents : Treatment Agent
  /-- The page of the rules that have no files of their own, and of folded guidance. -/
  instructionsPath : Option Text := none
  /-- A page for folded guidance apart from the rules. -/
  conventionsPath : Option Text := none
  conventionsHeader : Text := ""
  /-- The directories whose stale generated files may be removed. -/
  managedDirs : List Text := []
  naming : Naming := .plain
  budget : Option Budget := none

def Treatment.support {α : Type} : Treatment α → Support
  | .native _ _ => .native
  | .folded _ => .degraded
  | .omitted => .omitted

def Treatment.detail {α : Type} : Treatment α → Text
  | .folded detail => detail
  | _ => ""

def HookTreatment.support : HookTreatment → Support
  | .native _ => .native
  | .folded _ => .degraded
  | .omitted => .omitted

def HookTreatment.detail : HookTreatment → Text
  | .folded detail => detail
  | _ => ""

def Profile.omitted (p : Profile) : List Feature :=
  [(Feature.hooks, p.hooks.support), (.commands, p.commands.support), (.skills, p.skills.support),
    (.agents, p.agents.support)].filterMap fun (feature, support) =>
      if support = .omitted then some feature else none

end AgentConfig
