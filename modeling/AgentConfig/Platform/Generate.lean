import AgentConfig.Hook.Command
import AgentConfig.Platform.Page
import AgentConfig.Platform.Profile
import AgentConfig.Platform.Section
import AgentConfig.Platform.Toml

namespace AgentConfig

def RuleScope.feature : RuleScope → Feature
  | .always => .instructions
  | .glob => .scopedRules
  | .description => .descriptionRules
  | .manual => .manualRules

structure Tag where
  feature : Feature
  support : Support
  detail : Text
  deriving DecidableEq, Repr

def Tag.nativeText? (t : Tag) : Option Text :=
  if t.support = .native then some t.feature.text else none

def Tag.degradedText? (t : Tag) : Option Text :=
  if t.support = .degraded then
    some (t.feature.text ++ " (" ++
      (if t.detail.isEmpty then foldedIntoInstructions else t.detail) ++ ")")
  else none

namespace Profile

/-- The file of a rule that is the `position`-th of those with files of their own. -/
def ruleFile (p : Profile) (r : Rule) (path : Template) (position : Nat) : RuleFile :=
  { rule := r
    file :=
      { path := path.fill (p.naming.fileName r.name position)
        content := Page.document (Field.resolve (p.rules r.scope).fields r) r.content } }

/-- What has become of the rules that were met: files of their own, sections of the instructions
page in three parts, and a tag for each rule. -/
structure RulePass where
  files : List RuleFile := []
  plain : List Text := []
  globbed : List Text := []
  described : List Text := []
  tags : List Tag := []

/-- Meets one more rule. It gets a file where its scope has a path, numbered by the files there are,
and else a section in the part of its scope. -/
def meetRule (p : Profile) (seen : RulePass) (r : Rule) : RulePass :=
  let treatment := p.rules r.scope
  let tag : Tag := ⟨r.scope.feature, treatment.support, treatment.detail⟩
  let seen := { seen with tags := seen.tags ++ [tag] }
  match treatment.path, r.scope with
  | some path, _ => { seen with files := seen.files ++ [p.ruleFile r path seen.files.length] }
  | none, .glob => { seen with globbed := seen.globbed ++ [r.globSection] }
  | none, .description => { seen with described := seen.described ++ [r.describedSection] }
  | none, _ => { seen with plain := seen.plain ++ [r.plainSection] }

def meetRules (p : Profile) (rules : List Rule) : RulePass := rules.foldl p.meetRule {}

def ruleFiles (p : Profile) (rules : List Rule) : List RuleFile := (p.meetRules rules).files

/-- The sections of the rules without files of their own: those that apply always or on request,
then those for some files, then those with a description. -/
def ruleSections (p : Profile) (rules : List Rule) : List Text :=
  let seen := p.meetRules rules
  seen.plain ++ seen.globbed ++ seen.described

def ruleTags (p : Profile) (rules : List Rule) : List Tag := (p.meetRules rules).tags

def hookFiles (p : Profile) (hooks : List Hook) : List OutputFile :=
  match p.hooks with
  | .native (some path) =>
    if hooks.isEmpty then []
    else [⟨path, Json.write (.obj (Hook.settings hooks)), .sharedKeys⟩]
  | _ => []

def isToml (path : Text) : Bool := Text.endsWith path ".toml"

def commandFile (path : Template) (fields : List (Field Command)) (c : Command) : OutputFile :=
  let path := path.fill c.name
  if isToml path then { path, content := Toml.command c }
  else { path, content := Page.document (Field.resolve fields c) c.content }

def skillFields (fields : List (Field Skill)) (s : Skill) : Json.Members :=
  Field.resolveInto
    (("name", .str s.name) ::
      if s.description.isEmpty then [] else [("description", .str s.description)]) fields s

def skillFiles (path : Template) (fields : List (Field Skill)) (s : Skill) : List OutputFile :=
  let directory := path.fill s.name
  { path := directory ++ "/SKILL.md", content := Page.document (skillFields fields s) s.content } ::
    s.sortedFiles.map fun (file, content) => ⟨directory ++ "/" ++ file, content, .unmarked⟩

def agentFile (path : Template) (fields : List (Field Agent)) (a : Agent) : OutputFile :=
  { path := path.fill a.name, content := Page.document (Field.resolve fields a) a.content }

def nativeFiles {α : Type} (treatment : Treatment α)
    (files : Template → List (Field α) → List α → List OutputFile) (xs : List α) :
    List OutputFile :=
  match treatment with
  | .native path fields => files path fields xs
  | _ => []

/-- What has become of the guidance besides the rules: files, sections of a page, and tags. -/
structure FeaturePass where
  files : List OutputFile := []
  sections : List Text := []
  tags : List Tag := []

/-- Meets the guidance of one more kind, if there is any: it is tagged, and gets files where the
platform takes it natively, or one section where it is degraded. -/
def FeaturePass.meet {α : Type} (seen : FeaturePass) (tag : Tag) (xs : List α)
    (files : List α → List OutputFile) (render : List α → Text) : FeaturePass :=
  if xs.isEmpty then seen
  else
    let seen := { seen with tags := seen.tags ++ [tag] }
    match tag.support with
    | .native => { seen with files := seen.files ++ files xs }
    | .degraded => { seen with sections := seen.sections ++ [render xs] }
    | .omitted => seen

def meetFeatures (p : Profile) (g : Guidance) : FeaturePass :=
  ({} : FeaturePass)
    |>.meet ⟨.hooks, p.hooks.support, p.hooks.detail⟩ g.hooks p.hookFiles Section.hooks
    |>.meet ⟨.commands, p.commands.support, p.commands.detail⟩ g.commands
      (nativeFiles p.commands fun path fields => List.map (commandFile path fields))
      Section.commands
    |>.meet ⟨.skills, p.skills.support, p.skills.detail⟩ g.skills
      (nativeFiles p.skills fun path fields => List.flatMap (skillFiles path fields)) Section.skills
    |>.meet ⟨.agents, p.agents.support, p.agents.detail⟩ g.agents
      (nativeFiles p.agents fun path fields => List.map (agentFile path fields)) Section.agents

def featureFiles (p : Profile) (g : Guidance) : List OutputFile := (p.meetFeatures g).files

def featureSections (p : Profile) (g : Guidance) : List Text := (p.meetFeatures g).sections

def featureTags (p : Profile) (g : Guidance) : List Tag := (p.meetFeatures g).tags

/-- The sections of the instructions page. Folded guidance stands there when there is no page of its
own for it. -/
def instructionsSections (p : Profile) (g : Guidance) : List Text :=
  p.ruleSections g.rules ++ if p.conventionsPath.isNone then p.featureSections g else []

def instructionsFile (p : Profile) (g : Guidance) : Option OutputFile :=
  let content := Page.joinSections (p.instructionsSections g)
  match p.instructionsPath with
  | some path => if path.isEmpty || content.isEmpty then none else some { path, content }
  | none => none

def conventionsFile (p : Profile) (g : Guidance) : Option OutputFile :=
  match p.conventionsPath with
  | some path =>
    let body := Page.joinSections (p.featureSections g)
    if body.isEmpty then none else some { path, content := Page.under p.conventionsHeader body }
  | none => none

def allocate (p : Profile) (files : List RuleFile) (aggregate : Option OutputFile) : Allocation :=
  match p.budget with
  | some budget => budget.allocate files aggregate
  | none => allocateAll files aggregate

/-- What the platform receives: the rule files it has room for, its pages, and the files of the
other guidance. -/
def generate (p : Profile) (g : Guidance) : Generated :=
  let tags := p.ruleTags g.rules ++ p.featureTags g
  let allocation := p.allocate (p.ruleFiles g.rules) (p.conventionsFile g)
  { files := allocation.files ++ (p.instructionsFile g).toList ++ p.featureFiles g
    warnings := allocation.warnings
    native := (Feature.instructions.text :: tags.filterMap Tag.nativeText?).eraseDups
    degraded := (tags.filterMap Tag.degradedText?).eraseDups }

end Profile

end AgentConfig
