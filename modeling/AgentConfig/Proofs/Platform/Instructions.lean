import AgentConfig.Proofs.Platform.Zones

namespace AgentConfig

open List

namespace Shown

/-- A text between two others, or nothing where the text is empty. -/
def note (before text after : Text) : Text := if text = [] then [] else before ++ text ++ after

/-- A section as a reader sees it: its title, and its entries with empty lines between them. -/
def titled (title : Text) (entries : List Text) : Text :=
  Text.trimEnd (Text.intercalate "\n\n" (("## " ++ title) :: entries))

/-- A hook under its event: what it is for and the command, or the command alone. -/
def hook (h : Hook) : Text :=
  let files := note " on files matching `" (h.glob.getD []) "`"
  let text : Text := if h.description = [] then "Run: `" ++ h.run ++ "`"
    else h.description ++ note "\n\nCommand: `" h.run "`"
  "### " ++ h.event.text ++ files ++ "\n\n" ++ text

def command (c : Command) : Text :=
  let aliases := c.aliases.getD []
  let others : Text :=
    if aliases = [] then [] else " (aliases: " ++ Text.intercalate ", " aliases ++ ")"
  "### " ++ c.name ++ others ++ "\n\n" ++ note [] c.description "\n\n" ++ c.content

/-- A file of a skill under its path, between two fences. -/
def file (path content : Text) : Text :=
  let fence := Section.fence content
  let inside := Text.dropEndWhile (· == .char '\n') content
  "\n\n#### " ++ path ++ "\n\n" ++ fence ++ "\n" ++ inside ++ "\n" ++ fence

/-- A skill with its files by path. -/
def skill (s : Skill) : Text :=
  let files := s.files.mergeSort fun a b => Text.le a.1 b.1
  "### " ++ s.name ++ "\n\n" ++ note [] s.description "\n\n" ++ s.content ++
    files.flatMap fun (path, content) => file path content

/-- The model and the tools of an agent, those of the two that are given. -/
def details (a : Agent) : Text :=
  let model := note "Model: `" (a.model.getD []) "`"
  let tools : Text :=
    if a.tools.getD [] = [] then [] else "Tools: " ++ Text.intercalate ", " (a.tools.getD [])
  Text.intercalate "; " ([model, tools].filter (· ≠ []))

def agent (a : Agent) : Text :=
  "### " ++ a.name ++ "\n\n" ++ note [] a.description "\n\n" ++
    note [] (details a) "\n\n" ++ a.content

end Shown

namespace Section

variable {α : Type}

/-- Entries that hold the lines of the blocks make the same section: the blocks end with an empty
line more, which is trimmed. -/
theorem titled_map (title : Text) {block : α → List Text} {entry : α → Text}
    (h : ∀ x, (block x).flatMap (("\n" : Text) ++ ·) = "\n" ++ entry x) (xs : List α) :
    titled title (xs.map block) = Shown.titled title (xs.map entry) := by
  have hbreak : ∀ l ∈ ("\n" : Text), Text.isBlank l = true := by decide
  have hempty : ("\n" : Text) ++ "" = "\n" := rfl
  have hentries : ("\n" : Text) ++
      ((xs.map block).flatMap (· ++ ([""] : List Text))).flatMap (("\n" : Text) ++ ·) =
        (xs.map entry).flatMap (("\n\n" : Text) ++ ·) ++ "\n" := by
    induction xs with
    | nil => rfl
    | cons x rest ih =>
      simp only [map_cons, flatMap_cons, flatMap_append, h, append_assoc, ← ih]
      simp [Text.ofString, Text.ofChars]
  unfold titled Shown.titled
  dsimp only
  rw [cons_append, Text.intercalate_cons, Text.intercalate_cons, cons_append, nil_append,
    flatMap_cons, hempty, hentries, ← append_assoc, Text.trimEnd_append_blanks _ hbreak]

example : titled "A" [["b", "c"]] = Shown.titled "A" ["b\nc"] := by decide +kernel

theorem flatMap_paragraph_append (text below : Text) :
    (paragraph text).flatMap (("\n" : Text) ++ ·) ++ ("\n" ++ below) =
      "\n" ++ (Shown.note [] text "\n\n" ++ below) := by
  unfold paragraph Shown.note
  by_cases h : text = [] <;> simp [h, Text.ofString, Text.ofChars]

theorem hooks_eq (hs : List Hook) : hooks hs = Shown.titled "Hooks" (hs.map Shown.hook) := by
  refine titled_map "Hooks" (fun h => ?_) hs
  unfold hookBlock Shown.hook Shown.note
  by_cases hrun : h.run = [] <;> by_cases hnote : h.description = [] <;>
    simp [hrun, hnote, Text.ofString, Text.ofChars]

theorem commands_eq (cs : List Command) :
    commands cs = Shown.titled "Workflows" (cs.map Shown.command) := by
  refine titled_map "Workflows" (fun c => ?_) cs
  simp only [commandBlock, Shown.command, flatMap_append, flatMap_cons, flatMap_nil, append_nil,
    append_assoc, flatMap_paragraph_append]
  simp [Text.ofString, Text.ofChars]

theorem flatMap_fileBlock (path content : Text) :
    (fileBlock path content).flatMap (("\n" : Text) ++ ·) = Shown.file path content := by
  simp [fileBlock, Shown.file, Text.ofString, Text.ofChars]

theorem skills_eq (ss : List Skill) : skills ss = Shown.titled "Skills" (ss.map Shown.skill) := by
  refine titled_map "Skills" (fun s => ?_) ss
  simp only [skillBlock, Skill.sortedFiles, Shown.skill, flatMap_append, flatMap_cons, flatMap_nil,
    append_nil, append_assoc, flatMap_paragraph_append, flatMap_assoc, flatMap_fileBlock]
  simp [Text.ofString, Text.ofChars]

theorem agentDetails_eq (a : Agent) : agentDetails a = Shown.details a := by
  unfold agentDetails Shown.details Shown.note
  by_cases hmodel : a.model.getD [] = [] <;> by_cases htools : a.tools.getD [] = [] <;>
    simp [hmodel, htools, Text.ofString, Text.ofChars]

theorem agents_eq (as : List Agent) : agents as = Shown.titled "Agents" (as.map Shown.agent) := by
  refine titled_map "Agents" (fun a => ?_) as
  simp only [agentBlock, agentDetails_eq, Shown.agent, flatMap_append, flatMap_cons, flatMap_nil,
    append_nil, append_assoc, flatMap_paragraph_append]
  simp [Text.ofString, Text.ofChars]

end Section

theorem Rule.describedSection_eq (r : Rule) : r.describedSection =
    "### " ++ r.name ++ Shown.note " (" (r.description.getD []) ")" ++ "\n\n" ++ r.content := by
  unfold Rule.describedSection Shown.note
  by_cases h : r.description.getD [] = [] <;> simp [h, Text.ofString, Text.ofChars]

theorem Page.joinSections_eq {sections : List Text} {text : Text}
    (h : Text.trim (Text.intercalate "\n\n" (sections.filter (· ≠ []))) = text) :
    joinSections sections = if text = [] then [] else text ++ ("\n" : Text) := by
  have hkept : sections.filter (!·.isEmpty) = sections.filter (· ≠ []) :=
    filter_congr fun text _ => by cases text <;> rfl
  rw [joinSections, hkept, h]
  by_cases hempty : text = []
  · simp [hempty, Text.ofString, Text.ofChars]
  · simp [hempty]

namespace Profile

variable {p : Profile} {g : Guidance} {path : Text}

/-- Whether nothing but the instructions page can lie at its path, and the rules all stand on it,
but for those for some files on one platform. -/
def isPaged (p : Profile) : Bool :=
  p.instructionsPath.all fun path => !path.isEmpty && p.conventionsPath.isNone &&
    p.settings? != some path &&
    p.templates.all (fun t => !(Path.relative t.dirs ++ "/").isPrefixOf path) &&
    RuleScope.all.all fun scope =>
      (p.rules scope).path.isNone == !(scope == .glob && p.name == copilot.name)

theorem isPaged_of_mem_defaults (h : p ∈ defaults) : p.isPaged = true := by
  have hall : defaults.all isPaged = true := by decide +kernel
  exact all_eq_true.mp hall p h

theorem exists_files (p : Profile) (g : Guidance) : ∃ before after,
    (p.generate g).files = before ++ (p.instructionsFile g).toList ++ after ∧
      ({ p with instructionsPath := none }.generate g).files = before ++ after :=
  ⟨_, _, rfl, by simp [generate, instructionsFile]; rfl⟩

theorem filter_files (hp : p ∈ defaults) (hpath : p.instructionsPath = some path) :
    (p.generate g).files.filter (·.path == path) = (p.instructionsFile g).toList := by
  have hpaged := isPaged_of_mem_defaults hp
  simp only [isPaged, hpath, Option.all_some, Bool.and_eq_true, all_eq_true, Bool.not_eq_true',
    bne_iff_ne] at hpaged
  obtain ⟨⟨⟨⟨-, hconventions⟩, hsettings⟩, htemplates⟩, -⟩ := hpaged
  obtain ⟨before, after, hfiles, hothers⟩ := exists_files p g
  have hplaced : { p with instructionsPath := none }.isPlaced = true := by
    have h := isPlaced_of_mem_defaults hp
    simp only [isPlaced, Bool.and_eq_true] at h ⊢
    simp [h]
  have hne : ∀ f ∈ before ++ after, ¬ (f.path == path) = true := by
    intro f hf heq
    rw [← hothers] at hf
    rcases mem_generate hf with hhook | hyields
    · exact hsettings ((settings?_of_hookFiles hhook).trans (congrArg some (beq_iff_eq.mp heq)))
    rcases hyields.below_template hplaced with ⟨t, ht, rest, hbelow⟩ | hpage
    · have hno := htemplates t ht
      rw [← beq_iff_eq.mp heq, hbelow, ← Bool.not_eq_true, isPrefixOf_iff_prefix] at hno
      exact hno (prefix_append _ _)
    · simp [pages, Option.isNone_iff_eq_none.mp hconventions] at hpage
  have hkeep : ∀ f ∈ (p.instructionsFile g).toList, (f.path == path) = true := by
    intro f hf
    simp only [instructionsFile, hpath, Option.mem_toList] at hf
    split at hf
    · cases hf
    · cases hf
      exact beq_self_eq_true _
  rw [hfiles, filter_append, filter_append,
    filter_eq_nil_iff.mpr fun f hf => hne f (mem_append_left _ hf),
    filter_eq_nil_iff.mpr fun f hf => hne f (mem_append_right _ hf),
    filter_eq_self.mpr hkeep, nil_append, append_nil]

/-- The rules of some scopes, in their order. -/
def ofScopes (scopes : List RuleScope) (rules : List Rule) : List Rule :=
  rules.filter fun r => r.scope ∈ scopes

theorem perm_ofScopes (rules : List Rule) :
    (ofScopes [.always, .manual] rules ++ ofScopes [.glob] rules ++
      ofScopes [.description] rules).Perm rules := by
  induction rules with
  | nil => exact .nil
  | cons r rest ih =>
    refine Perm.trans ?_ (ih.cons r)
    cases hscope : r.scope
    · simp [ofScopes, hscope]
    · simp [ofScopes, hscope]
    · simp only [ofScopes, filter_cons, hscope, mem_cons, not_mem_nil, reduceCtorEq,
        or_false, decide_false, decide_true, if_true, Bool.false_eq_true, if_false]
      exact perm_middle
    · simp [ofScopes, hscope]

theorem map_ruleFiles (p : Profile) (rules : List Rule) :
    (p.ruleFiles rules).map (·.rule) = rules.filter fun r => !(p.rules r.scope).path.isNone := by
  have hrules : (p.ruleFiles rules).map (·.rule) = (p.filed rules).map (·.1) := by
    rw [ruleFiles_eq, map_map]
    conv => rhs; rw [← zipIdx_map_fst 0 (p.filed rules), map_map]
    rfl
  rw [hrules]
  clear hrules
  induction rules with
  | nil => rfl
  | cons r rest ih =>
    rw [filed] at ih ⊢
    rw [filterMap_cons, filter_cons]
    cases (p.rules r.scope).path <;> simp [ih]

theorem isNone_path (hp : p ∈ defaults) (hpath : p.instructionsPath = some path)
    (scope : RuleScope) :
    (p.rules scope).path.isNone = !(scope == .glob && p.name == copilot.name) := by
  have hpaged := isPaged_of_mem_defaults hp
  simp only [isPaged, hpath, Option.all_some, Bool.and_eq_true, all_eq_true, beq_iff_eq] at hpaged
  exact hpaged.2 scope (by cases scope <;> decide)

theorem filter_paged (hp : p ∈ defaults) (hpath : p.instructionsPath = some path)
    (scopes : List RuleScope) {keep : Rule → Bool} (hscopes : .glob ∉ scopes)
    (hkeep : ∀ r, keep r = true ↔ r.scope ∈ scopes) (rules : List Rule) :
    (p.paged rules).filter keep = ofScopes scopes rules := by
  rw [paged, ofScopes, filter_filter]
  refine filter_congr fun r _ => ?_
  rw [isNone_path hp hpath, Bool.eq_iff_iff, Bool.and_eq_true, hkeep, decide_eq_true_iff]
  refine and_iff_left_of_imp fun hmem => ?_
  have hscope : r.scope ≠ .glob := fun h => hscopes (h ▸ hmem)
  simp [hscope]

theorem filter_paged_glob (hp : p ∈ defaults) (hpath : p.instructionsPath = some path)
    (rules : List Rule) :
    let globs := if p.name = copilot.name then [] else ofScopes [.glob] rules
    (p.paged rules).filter (fun r => r.scope == .glob) = globs ∧
      globs ++ (p.ruleFiles rules).map (·.rule) = ofScopes [.glob] rules := by
  have hthere (r : Rule) : (r.scope == .glob) = decide (r.scope ∈ [.glob]) := by
    rw [Bool.eq_iff_iff]
    simp
  by_cases h : p.name = copilot.name
  · simp [h, paged, map_ruleFiles, isNone_path hp hpath, ofScopes, hthere]
  · simp [h, beq_eq_false_iff_ne.mpr h, paged, map_ruleFiles, isNone_path hp hpath, ofScopes,
      hthere]

/-- At the path of the instructions page there is no file but this one, and it is there exactly if
it has a text: the rules that apply always or on request, each under its name, those for some files
with their patterns, those with a description under it, then the sections of the hooks, workflows,
skills and agents of which there are any and which the platform takes on the page only. Each rule
has one place on the page or one file. -/
theorem instructions_lay_out_rules (hp : p ∈ defaults) (hpath : p.instructionsPath = some path)
    (g : Guidance) :
    let always := ofScopes [.always, .manual] g.rules
    let globs := if p.name = copilot.name then [] else ofScopes [.glob] g.rules
    let described := ofScopes [.description] g.rules
    let rules : List Text :=
      always.map (fun r => ("### " ++ r.name ++ "\n\n" ++ r.content : Text)) ++
      globs.map (fun r => ("### " ++ r.name ++ "\n\nWhen working on files matching `" ++
        Text.intercalate ", " (r.globs.getD []) ++ "`:\n\n" ++ r.content : Text)) ++
      described.map (fun r => ("### " ++ r.name ++
        Shown.note " (" (r.description.getD []) ")" ++ "\n\n" ++ r.content : Text))
    let others : List Text :=
      (if p.hooks.support = .degraded ∧ g.hooks ≠ [] then
        [Shown.titled "Hooks" (g.hooks.map Shown.hook)] else []) ++
      (if p.commands.support = .degraded ∧ g.commands ≠ [] then
        [Shown.titled "Workflows" (g.commands.map Shown.command)] else []) ++
      (if p.skills.support = .degraded ∧ g.skills ≠ [] then
        [Shown.titled "Skills" (g.skills.map Shown.skill)] else []) ++
      (if p.agents.support = .degraded ∧ g.agents ≠ [] then
        [Shown.titled "Agents" (g.agents.map Shown.agent)] else [])
    let text := Text.trim (Text.intercalate "\n\n" ((rules ++ others).filter (· ≠ [])))
    (p.generate g).files.filter (·.path == path) =
      (if text = [] then [] else [{ path, content := text ++ "\n" }]) ∧
    (always ++ globs ++ described ++ (p.ruleFiles g.rules).map (·.rule)).Perm g.rules := by
  intro always globs described rules others text
  have hpaged := isPaged_of_mem_defaults hp
  simp only [isPaged, hpath, Option.all_some, Bool.and_eq_true, Bool.not_eq_true'] at hpaged
  obtain ⟨⟨⟨⟨hne, hconventions⟩, -⟩, -⟩, -⟩ := hpaged
  obtain ⟨hglobs, hfiles⟩ := filter_paged_glob hp hpath g.rules
  have hsections : p.instructionsSections g = rules ++ others := by
    rw [instructionsSections, if_pos hconventions, ruleSections_eq, featureSections_eq, hglobs,
      filter_paged hp hpath [.always, .manual] (by decide) (by simp),
      filter_paged hp hpath [.description] (by decide) (by simp),
      funext Rule.describedSection_eq, funext Section.hooks_eq, funext Section.commands_eq,
      funext Section.skills_eq, funext Section.agents_eq]
    rfl
  have hjoin : Page.joinSections (rules ++ others) =
      if text = [] then [] else text ++ ("\n" : Text) := Page.joinSections_eq rfl
  constructor
  · rw [filter_files hp hpath, instructionsFile, hpath, hsections, hjoin]
    by_cases htext : text = []
    · simp [htext]
    · simp [hne, htext]
  · refine List.Perm.trans ?_ (perm_ofScopes g.rules)
    rw [← hfiles, List.append_assoc, List.append_assoc, List.append_assoc, List.append_assoc]
    exact ((List.perm_append_comm).append_left _).append_left _

theorem instructions_lay_out_every_kind :
    let g : Guidance :=
      { rules := [
          { name := "d", scope := .description, description := some "on d", content := "D" },
          { name := "g", scope := .glob, globs := some ["*.py", "*.pyi"], content := "G" },
          { name := "a", content := "A" }, { name := "m", scope := .manual, content := "M" }]
        hooks := [⟨.preCommit, "lint", "", none⟩, ⟨.postEdit, "fmt", "tidy", some "*.py"⟩]
        commands := [{ name := "c", aliases := some ["x", "y"], content := "C" }]
        skills := [{ name := "s", description := "on s", content := "S", files := [("f", "F\n")] }]
        agents := [{ name := "b", content := "B", model := some "w", tools := some ["t"] }] }
    ((singlePage "amp" "AGENTS.md" fileMatchAnnotations).generate g).files.filter
      (·.path == ("AGENTS.md" : Text)) = [{ path := "AGENTS.md", content :=
        "### a\n\nA\n\n### m\n\nM\n\n" ++
        "### g\n\nWhen working on files matching `*.py, *.pyi`:\n\nG\n\n" ++
        "### d (on d)\n\nD\n\n## Hooks\n\n### pre-commit\n\nRun: `lint`\n\n" ++
        "### post-edit on files matching `*.py`\n\ntidy\n\nCommand: `fmt`\n\n" ++
        "## Workflows\n\n### c (aliases: x, y)\n\nC\n\n" ++
        "## Skills\n\n### s\n\non s\n\nS\n\n#### f\n\n```\nF\n```\n\n" ++
        "## Agents\n\n### b\n\nModel: `w`; Tools: t\n\nB\n" }] := by
  have hp : singlePage "amp" "AGENTS.md" fileMatchAnnotations ∈ defaults := by simp [defaults]
  refine (instructions_lay_out_rules hp rfl _).1.trans ?_
  decide +kernel

end Profile

end AgentConfig
