import AgentConfig.Platform.Page
import AgentConfig.Platform.Profile

namespace AgentConfig.Profile

def nativeRules (path : Option Template) (fields : List (Field Rule)) : RuleTreatment :=
  { support := .native, path, fields }

def degradedRules (detail : Text) (path : Option Template) : RuleTreatment :=
  { support := .degraded, path, detail }

def alwaysOn : Text := "converted to always-on rules"

def foldedIntoConventions : Text := "folded into conventions file"

def pagedRules (globDetail : Text) : RuleScope → RuleTreatment
  | .always => nativeRules none []
  | .glob => degradedRules globDetail none
  | .description => degradedRules foldedIntoInstructions none
  | .manual => degradedRules foldedIntoInstructions none

def fileMatchAnnotations : Text := "folded into instructions with file-match annotations"

/-- A platform that reads a single page; `globDetail` says how rules for some files land there. -/
def singlePage (name path globDetail : Text) : Profile :=
  { name
    rules := pagedRules globDetail
    hooks := .folded "folded into behavioral instructions"
    commands := .folded "folded into workflows section"
    skills := .folded "folded into skills section"
    agents := .folded "folded into agents section"
    instructionsPath := some path }

def claude : Profile :=
  let path := some (Template.around ".claude/rules/" ".md")
  { name := "claude"
    rules := fun
      | .always => nativeRules path []
      | .glob => nativeRules path [.globList "paths"]
      | .description => degradedRules alwaysOn path
      | .manual => degradedRules alwaysOn path
    hooks := .native (some ".claude/settings.json")
    commands := .native (.around ".claude/commands/" ".md") [.description "description"]
    skills := .native (.around ".claude/skills/" "") []
    agents := .native (.around ".claude/agents/" ".md")
      [.name "name", .descriptionOrName "description", .model "model", .toolText "tools"]
    managedDirs := [".claude/rules", ".claude/commands", ".claude/skills", ".claude/agents"] }

def cursor : Profile :=
  let path := some (Template.around ".cursor/rules/" ".mdc")
  let applies (b : Bool) : Field Rule := .constant "alwaysApply" (.bool b)
  { name := "cursor"
    rules := fun
      | .always => nativeRules path [applies true]
      | .glob => nativeRules path [.globText "globs", applies false]
      | .description => nativeRules path [.descriptionOrName "description", applies false]
      | .manual => nativeRules path [applies false]
    hooks := .omitted
    commands := .native (.around ".cursor/commands/" ".md") []
    skills := .native (.around ".cursor/skills/" "") []
    agents := .native (.around ".cursor/agents/" ".md")
      [.name "name", .description "description", .model "model"]
    managedDirs := [".cursor/rules", ".cursor/commands", ".cursor/skills", ".cursor/agents"] }

def copilot : Profile :=
  { singlePage "copilot" ".github/copilot-instructions.md" fileMatchAnnotations with
    rules := fun
      | .always => nativeRules none []
      | .glob =>
        nativeRules (some (.around ".github/instructions/" ".instructions.md"))
          [.globText "applyTo"]
      | .description => degradedRules foldedIntoInstructions none
      | .manual => degradedRules foldedIntoInstructions none
    hooks := .omitted
    managedDirs := [".github/instructions"] }

def windsurf : Profile :=
  let path := some (Template.around ".windsurf/rules/" ".md")
  let trigger (word : Text) : Field Rule := .constant "trigger" (.str word)
  { name := "windsurf"
    rules := fun
      | .always => nativeRules path [trigger "always_on"]
      | .glob => nativeRules path [trigger "glob", .globText "globs"]
      | .description => nativeRules path [trigger "model", .descriptionOrName "description"]
      | .manual => nativeRules path [trigger "manual"]
    hooks := .folded foldedIntoConventions
    commands := .native (.around ".windsurf/workflows/" ".md") [.description "description"]
    skills := .folded foldedIntoConventions
    agents := .folded foldedIntoConventions
    conventionsPath := some ".windsurf/rules/agentrc-conventions.md"
    conventionsHeader := Page.header [("trigger", .str "always_on")]
    managedDirs := [".windsurf/rules", ".windsurf/workflows"]
    budget := some { target := "windsurf" } }

def cline : Profile :=
  let path := some (Template.around ".clinerules/" ".md")
  { name := "cline"
    rules := fun
      | .always => nativeRules path []
      | .glob => nativeRules path [.globList "paths"]
      | .description => degradedRules alwaysOn path
      | .manual => degradedRules alwaysOn path
    hooks := .folded foldedIntoConventions
    commands := .folded foldedIntoConventions
    skills := .folded foldedIntoConventions
    agents := .folded foldedIntoConventions
    conventionsPath := some ".clinerules/00-agentrc-conventions.md"
    managedDirs := [".clinerules"]
    naming := .numbered 1 2 }

def gemini : Profile :=
  { singlePage "gemini" "GEMINI.md" "folded into instructions with file-match prefix" with
    hooks := .omitted
    commands := .native (.around ".gemini/commands/" ".toml") []
    skills := .native (.around ".gemini/skills/" "") []
    managedDirs := [".gemini/commands", ".gemini/skills"] }

def codex : Profile :=
  { singlePage "codex" "AGENTS.md" "folded into instructions with file-path annotations" with
    skills := .native (.around ".agents/skills/" "") []
    managedDirs := [".agents/skills"] }

def defaults : List Profile :=
  [claude, cursor, copilot, windsurf, cline, gemini, codex,
    singlePage "generic-markdown" "AGENTS.md" fileMatchAnnotations,
    singlePage "aider" "CONVENTIONS.md" fileMatchAnnotations,
    singlePage "junie" ".junie/guidelines.md" fileMatchAnnotations,
    singlePage "amazonq" ".amazonq/rules/agentrc.md" fileMatchAnnotations,
    singlePage "amp" "AGENTS.md" fileMatchAnnotations,
    singlePage "roo" "AGENTS.md" fileMatchAnnotations]

def defaultNames : List Text := defaults.map (·.name)

end AgentConfig.Profile
