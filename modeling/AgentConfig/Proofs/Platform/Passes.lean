import AgentConfig.Platform.Generate
import Mathlib.Data.List.Induction

namespace AgentConfig.Profile

open List

variable {α : Type} {p : Profile} {rules : List Rule} {text : Text} {support : Support}
  {seen : FeaturePass} {tag : Tag} {xs : List α}
  {files : List α → List OutputFile} {render : List α → Text}

/-- The rules that have files of their own, each with the template of its path. -/
def filed (p : Profile) (rules : List Rule) : List (Rule × Template) :=
  rules.filterMap fun r => (p.rules r.scope).path.map (r, ·)

def paged (p : Profile) (rules : List Rule) : List Rule :=
  rules.filter fun r => (p.rules r.scope).path.isNone

/-- The pass over the rules is a stable partition of them: what each part of the page and the list
of files hold is found by one search through all rules, and no rule is met twice or left out. -/
theorem meetRules_eq (p : Profile) (rules : List Rule) : p.meetRules rules =
    { files := (p.filed rules).zipIdx.map fun ((r, path), position) => p.ruleFile r path position
      plain := ((p.paged rules).filter fun r => r.scope == .always || r.scope == .manual).map
        Rule.plainSection
      globbed := ((p.paged rules).filter fun r => r.scope == .glob).map Rule.globSection
      described := ((p.paged rules).filter fun r => r.scope == .description).map
        Rule.describedSection
      tags := rules.map fun r =>
        ⟨r.scope.feature, (p.rules r.scope).support, (p.rules r.scope).detail⟩ } := by
  induction rules using reverseRecOn with
  | nil => rfl
  | append_singleton rules r ih =>
    have hstep : p.meetRules (rules ++ [r]) = p.meetRule (p.meetRules rules) r := by
      simp [meetRules]
    rw [hstep, ih, meetRule]
    cases hpath : (p.rules r.scope).path with
    | some path => simp [filed, paged, hpath, zipIdx_append]
    | none =>
      cases hscope : r.scope <;> rw [hscope] at hpath <;> simp [filed, paged, hpath, hscope]

theorem ruleFiles_eq (p : Profile) (rules : List Rule) : p.ruleFiles rules =
    (p.filed rules).zipIdx.map fun ((r, path), position) => p.ruleFile r path position := by
  rw [ruleFiles, meetRules_eq]

theorem mem_ruleFiles {file : RuleFile} (h : file ∈ p.ruleFiles rules) :
    ∃ r ∈ rules, ∃ path position, (p.rules r.scope).path = some path ∧
      file = p.ruleFile r path position := by
  rw [ruleFiles_eq, mem_map] at h
  obtain ⟨⟨⟨r, path⟩, position⟩, hmem, rfl⟩ := h
  obtain ⟨other, hr, hpath⟩ := mem_filterMap.mp (fst_mem_of_mem_zipIdx hmem)
  obtain ⟨_, hscope, heq⟩ := Option.map_eq_some_iff.mp hpath
  cases heq
  exact ⟨r, hr, path, position, hscope, rfl⟩

theorem ruleSections_eq (p : Profile) (rules : List Rule) : p.ruleSections rules =
    ((p.paged rules).filter fun r => r.scope == .always || r.scope == .manual).map
        Rule.plainSection ++
      ((p.paged rules).filter fun r => r.scope == .glob).map Rule.globSection ++
      ((p.paged rules).filter fun r => r.scope == .description).map Rule.describedSection := by
  rw [ruleSections, meetRules_eq]

theorem mem_ruleTags : tag ∈ p.ruleTags rules ↔
    ∃ r ∈ rules, ⟨r.scope.feature, (p.rules r.scope).support, (p.rules r.scope).detail⟩ = tag := by
  rw [ruleTags, meetRules_eq, mem_map]

/-- The section of guidance of one kind, which is there if the guidance is and is degraded. -/
def foldedSection (support : Support) (render : List α → Text) (xs : List α) : List Text :=
  if support = .degraded ∧ xs ≠ [] then [render xs] else []

theorem mem_foldedSection :
    text ∈ foldedSection support render xs ↔ support = .degraded ∧ xs ≠ [] ∧ text = render xs := by
  unfold foldedSection
  split
  next h => simp [h.1, h.2]
  next h => simpa using fun hsupport hne => absurd hne (by simpa using fun h' => h ⟨hsupport, h'⟩)

theorem foldedSection_eq_nil :
    foldedSection support render xs = [] ↔ (support = .degraded → xs = []) := by
  simp [foldedSection]

/-- What meeting guidance of one kind adds to the files, the sections and the tags. Files are added
by a platform that takes the guidance natively, and by no other. -/
theorem meet_eq (hnone : files [] = []) (hnative : tag.support ≠ .native → files xs = []) :
    seen.meet tag xs files render =
      { files := seen.files ++ files xs
        sections := seen.sections ++ foldedSection tag.support render xs
        tags := seen.tags ++ if xs = [] then [] else [tag] } := by
  unfold FeaturePass.meet foldedSection
  cases xs with
  | nil => simp [hnone]
  | cons x rest => cases hsupport : tag.support <;> simp_all

theorem nativeFiles_eq_nil {treatment : Treatment α}
    {files : Template → List (Field α) → List α → List OutputFile}
    (h : treatment.support ≠ .native) : nativeFiles treatment files xs = [] := by
  cases treatment with
  | native path fields => exact absurd rfl h
  | _ => rfl

theorem nativeFiles_nil {treatment : Treatment α}
    {files : Template → List (Field α) → List α → List OutputFile}
    (h : ∀ path fields, files path fields [] = []) : nativeFiles treatment files [] = [] := by
  cases treatment with
  | native path fields => exact h path fields
  | _ => rfl

/-- The files of the guidance that is neither rules nor hooks. -/
def otherFiles (p : Profile) (g : Guidance) : List OutputFile :=
  nativeFiles p.commands (fun path fields => map (commandFile path fields)) g.commands ++
    nativeFiles p.skills (fun path fields => flatMap (skillFiles path fields)) g.skills ++
    nativeFiles p.agents (fun path fields => map (agentFile path fields)) g.agents

theorem meetFeatures_eq (p : Profile) (g : Guidance) : p.meetFeatures g =
    { files := p.hookFiles g.hooks ++ p.otherFiles g
      sections := foldedSection p.hooks.support Section.hooks g.hooks ++
        foldedSection p.commands.support Section.commands g.commands ++
        foldedSection p.skills.support Section.skills g.skills ++
        foldedSection p.agents.support Section.agents g.agents
      tags := (if g.hooks = [] then [] else [⟨.hooks, p.hooks.support, p.hooks.detail⟩]) ++
        (if g.commands = [] then [] else [⟨.commands, p.commands.support, p.commands.detail⟩]) ++
        (if g.skills = [] then [] else [⟨.skills, p.skills.support, p.skills.detail⟩]) ++
        (if g.agents = [] then [] else [⟨.agents, p.agents.support, p.agents.detail⟩]) } := by
  have hhooks : p.hooks.support ≠ .native → p.hookFiles g.hooks = [] := by
    unfold hookFiles
    cases p.hooks with
    | native settings => exact fun h => absurd rfl h
    | _ => exact fun _ => rfl
  have hnone : p.hookFiles [] = [] := by
    unfold hookFiles
    split <;> rfl
  rw [meetFeatures, meet_eq hnone hhooks,
    meet_eq (nativeFiles_nil fun _ _ => rfl) nativeFiles_eq_nil,
    meet_eq (nativeFiles_nil fun _ _ => rfl) nativeFiles_eq_nil,
    meet_eq (nativeFiles_nil fun _ _ => rfl) nativeFiles_eq_nil]
  simp [otherFiles]

theorem featureFiles_eq (p : Profile) (g : Guidance) :
    p.featureFiles g = p.hookFiles g.hooks ++ p.otherFiles g := by
  rw [featureFiles, meetFeatures_eq]

theorem featureSections_eq (p : Profile) (g : Guidance) : p.featureSections g =
    foldedSection p.hooks.support Section.hooks g.hooks ++
      foldedSection p.commands.support Section.commands g.commands ++
      foldedSection p.skills.support Section.skills g.skills ++
      foldedSection p.agents.support Section.agents g.agents := by
  rw [featureSections, meetFeatures_eq]

end AgentConfig.Profile
