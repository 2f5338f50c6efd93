import AgentConfig.Proofs.Hook.Settings
import AgentConfig.Proofs.Platform.Distinct

namespace AgentConfig

open List Page Template

variable {a b feature : Feature} {file : RuleFile} {path t : Template} {detail other : Text}

theorem Feature.text_injective (h : a.text = b.text) : a = b := by
  revert h
  cases a <;> cases b <;> decide

theorem Feature.of_degradedText
    (h : a.text ++ " (" ++ detail = b.text ++ " (" ++ other) : a = b := by
  have hname (feature : Feature) (rest : Text) :
      (feature.text ++ " (" ++ rest).takeWhile (· != .char '(') = feature.text ++ " " := by
    cases feature <;> rfl
  have htake := congrArg (List.takeWhile (· != .char '(')) h
  rw [hname, hname, append_cancel_right_eq] at htake
  exact text_injective htake

/-- Whether some guidance is of the kind of a feature. -/
def Guidance.Has (g : Guidance) : Feature → Prop
  | .instructions => ∃ r ∈ g.rules, r.scope = .always
  | .scopedRules => ∃ r ∈ g.rules, r.scope = .glob
  | .descriptionRules => ∃ r ∈ g.rules, r.scope = .description
  | .manualRules => ∃ r ∈ g.rules, r.scope = .manual
  | .hooks => g.hooks ≠ []
  | .commands => g.commands ≠ []
  | .skills => g.skills ≠ []
  | .agents => g.agents ≠ []

theorem Guidance.has_feature_iff {g : Guidance} {scope : RuleScope} :
    g.Has scope.feature ↔ ∃ r ∈ g.rules, r.scope = scope := by
  cases scope <;> rfl

/-- Guidance whose names have no blanks around them. -/
structure Guidance.IsTrimmed (g : Guidance) : Prop where
  rules : ∀ r ∈ g.rules, Text.trim r.name = r.name
  commands : ∀ c ∈ g.commands, Text.trim c.name = c.name
  skills : ∀ s ∈ g.skills, Text.trim s.name = s.name
  agents : ∀ a ∈ g.agents, Text.trim a.name = a.name

namespace Profile

variable {p : Profile} {g : Guidance} {feature : Feature} {t : Tag}

/-- The support that a platform has for a feature, and a word on it. -/
def treatment (p : Profile) : Feature → Support × Text
  | .instructions => ((p.rules .always).support, (p.rules .always).detail)
  | .scopedRules => ((p.rules .glob).support, (p.rules .glob).detail)
  | .descriptionRules => ((p.rules .description).support, (p.rules .description).detail)
  | .manualRules => ((p.rules .manual).support, (p.rules .manual).detail)
  | .hooks => (p.hooks.support, p.hooks.detail)
  | .commands => (p.commands.support, p.commands.detail)
  | .skills => (p.skills.support, p.skills.detail)
  | .agents => (p.agents.support, p.agents.detail)

theorem treatment_feature (p : Profile) (scope : RuleScope) :
    p.treatment scope.feature = ((p.rules scope).support, (p.rules scope).detail) := by
  cases scope <;> rfl

/-- The features that were met, each with the support it got. -/
def tags (p : Profile) (g : Guidance) : List Tag := p.ruleTags g.rules ++ p.featureTags g

/-- The features that are tagged are those there is guidance for, each with its one treatment. -/
theorem mem_tags_iff :
    t ∈ p.tags g ↔ g.Has t.feature ∧ p.treatment t.feature = (t.support, t.detail) := by
  have htag {absent : Prop} [Decidable absent] {other : Tag} :
      t ∈ (if absent then [] else [other]) ↔ ¬ absent ∧ t = other := by
    split <;> simp [*]
  simp only [tags, mem_append, mem_ruleTags, featureTags, meetFeatures_eq, htag]
  constructor
  · rintro (⟨r, hr, rfl⟩ | ((⟨hne, rfl⟩ | ⟨hne, rfl⟩) | ⟨hne, rfl⟩) | ⟨hne, rfl⟩)
    · exact ⟨Guidance.has_feature_iff.mpr ⟨r, hr, rfl⟩, treatment_feature p r.scope⟩
    all_goals exact ⟨hne, rfl⟩
  · obtain ⟨feature, support, detail⟩ := t
    rintro ⟨hhas, htreatment⟩
    cases feature with
    | hooks =>
      cases htreatment
      exact .inr (.inl (.inl (.inl ⟨hhas, rfl⟩)))
    | commands =>
      cases htreatment
      exact .inr (.inl (.inl (.inr ⟨hhas, rfl⟩)))
    | skills =>
      cases htreatment
      exact .inr (.inl (.inr ⟨hhas, rfl⟩))
    | agents =>
      cases htreatment
      exact .inr (.inr ⟨hhas, rfl⟩)
    | _ =>
      obtain ⟨r, hr, hscope⟩ := hhas
      cases htreatment
      exact .inl ⟨r, hr, by rw [hscope]; rfl⟩

/-- A feature is named among those the platform supports as such. -/
def TagsNative (p : Profile) (g : Guidance) (feature : Feature) : Prop :=
  feature.text ∈ (p.generate g).native

/-- A feature is named, with a word on how, among those that landed in another form. -/
def TagsDegraded (p : Profile) (g : Guidance) (feature : Feature) : Prop :=
  ∃ detail : Text, feature.text ++ " (" ++ detail ++ ")" ∈ (p.generate g).degraded

theorem tagsNative_iff : p.TagsNative g feature ↔ feature = .instructions ∨
      (g.Has feature ∧ (p.treatment feature).1 = .native) := by
  simp only [TagsNative, generate, mem_eraseDups, mem_cons, mem_filterMap]
  refine or_congr ⟨Feature.text_injective, congrArg _⟩ ⟨?_, ?_⟩
  · rintro ⟨t, ht, htext⟩
    obtain ⟨hhas, htreatment⟩ := mem_tags_iff.mp ht
    unfold Tag.nativeText? at htext
    split at htext
    · rename_i hnative
      obtain rfl := Feature.text_injective (Option.some.inj htext)
      exact ⟨hhas, by rw [htreatment, hnative]⟩
    · cases htext
  · rintro ⟨hhas, hnative⟩
    refine ⟨⟨feature, (p.treatment feature).1, (p.treatment feature).2⟩,
      mem_tags_iff.mpr ⟨hhas, rfl⟩, ?_⟩
    simp [Tag.nativeText?, hnative]

theorem tagsDegraded_iff :
    p.TagsDegraded g feature ↔ g.Has feature ∧ (p.treatment feature).1 = .degraded := by
  simp only [TagsDegraded, generate, mem_eraseDups, mem_filterMap]
  constructor
  · rintro ⟨detail, t, ht, htext⟩
    obtain ⟨hhas, htreatment⟩ := mem_tags_iff.mp ht
    unfold Tag.degradedText? at htext
    split at htext
    · rename_i hdegraded
      obtain rfl : t.feature = feature := by
        have htext := Option.some.inj htext
        rw [append_assoc _ _ (")" : Text), append_assoc _ _ (")" : Text)] at htext
        exact Feature.of_degradedText htext
      exact ⟨hhas, by rw [htreatment, hdegraded]⟩
    · cases htext
  · rintro ⟨hhas, hdegraded⟩
    refine ⟨if (p.treatment feature).2.isEmpty then foldedIntoInstructions
      else (p.treatment feature).2, ⟨feature, (p.treatment feature).1, (p.treatment feature).2⟩,
      mem_tags_iff.mpr ⟨hhas, rfl⟩, ?_⟩
    simp only [Tag.degradedText?, hdegraded, if_true]

end Profile

/-- A text occurs in the path or in the content of a generated file. -/
def Generated.Mentions (result : Generated) (text : Text) : Prop :=
  ∃ f ∈ result.files, text <:+: f.path ∨ text <:+: f.content

theorem Template.infix_fill (ht : t.isPlaced = true) (name : Text) : name <:+: t.fill name := by
  rw [fill_eq ht, ← append_assoc]
  exact ⟨_, _, rfl⟩

theorem Budget.subset_take (b : Budget) (a : Allocation) (file : RuleFile) :
    a.files ⊆ (b.take a file).files ∧ a.warnings ⊆ (b.take a file).warnings := by
  unfold take
  dsimp only
  split
  · exact ⟨subset_append_left _ _, subset_append_left _ _⟩
  · exact ⟨Subset.refl _, Subset.trans (subset_append_left _ _) (subset_append_left _ _)⟩

theorem Budget.subset_foldl_take (b : Budget) (files : List RuleFile) (a : Allocation) :
    a.files ⊆ (files.foldl b.take a).files ∧ a.warnings ⊆ (files.foldl b.take a).warnings := by
  induction files generalizing a with
  | nil => exact ⟨Subset.refl _, Subset.refl _⟩
  | cons file rest ih =>
    obtain ⟨hfiles, hwarnings⟩ := b.subset_take a file
    obtain ⟨hfiles', hwarnings'⟩ := ih (b.take a file)
    exact ⟨Subset.trans hfiles hfiles', Subset.trans hwarnings hwarnings'⟩

theorem Budget.kept_or_dropped (b : Budget) {files : List RuleFile} (h : file ∈ files)
    (a : Allocation) :
    file.file ∈ (files.foldl b.take a).files ∨
      ∃ total, b.droppingWarning file total ∈ (files.foldl b.take a).warnings := by
  induction files generalizing a with
  | nil => cases h
  | cons first rest ih =>
    rcases mem_cons.mp h with rfl | hrest
    · obtain ⟨hfiles, hwarnings⟩ := b.subset_foldl_take rest (b.take a file)
      by_cases hfits : b.fits a.total file.file.size = true
      · exact .inl (hfiles (by simp [take, hfits]))
      · exact .inr ⟨a.total, hwarnings (by simp [take, hfits])⟩
    · exact ih hrest (b.take a first)

namespace Profile

variable {p : Profile} {g : Guidance} {name text : Text} {r : Rule}

/-- Whether guidance without files of its own has a page to stand on, rules are always supported, as
such if they always apply, and nothing but hooks is left out. -/
def isTraceable (p : Profile) : Bool :=
  let hasPage := p.instructionsPath.any (!·.isEmpty)
  RuleScope.all.all (fun scope =>
      ((p.rules scope).path.isSome || hasPage) && (p.rules scope).support != .omitted) &&
    (p.rules .always).support == .native &&
    [p.commands.support, p.skills.support, p.agents.support].all (fun support =>
      support == .native || (support == .degraded && (p.conventionsPath.isSome || hasPage))) &&
    (p.budget.isNone || p.name == windsurf.name)

theorem isTraceable_of_mem_defaults (h : p ∈ defaults) : p.isTraceable = true := by
  have hall : defaults.all isTraceable = true := by decide +kernel
  exact all_eq_true.mp hall p h

section

variable (hname : Text.trim name = name)
include hname

theorem mentions_of_instructions (hpage : p.instructionsPath.any (!·.isEmpty) = true)
    (hmem : text ∈ p.instructionsSections g) (hmark : ("#" : Text) <:+: text) (h : name <:+: text) :
    (p.generate g).Mentions name := by
  have hcontent := joinSections_ne_nil hmem hmark
  cases hpath : p.instructionsPath with
  | none => simp [hpath] at hpage
  | some path =>
    have hne : path ≠ [] := by simpa [hpath] using hpage
    have hfile : p.instructionsFile g =
        some ⟨path, joinSections (p.instructionsSections g), .full⟩ := by
      simp [instructionsFile, hpath, hne, hcontent]
    refine ⟨⟨path, joinSections (p.instructionsSections g), .full⟩, ?_,
      .inr (infix_joinSections hname hmem h)⟩
    simp [generate, hfile]

theorem mentions_of_conventions (hpath : p.conventionsPath.isSome = true)
    (hmem : text ∈ p.featureSections g) (h : name <:+: text) : (p.generate g).Mentions name := by
  obtain ⟨path, hpath⟩ := Option.isSome_iff_exists.mp hpath
  have hbody := joinSections_ne_nil hmem (mark_infix_of_mem_featureSections hmem)
  let content := Page.under p.conventionsHeader (joinSections (p.featureSections g))
  have hfile : p.conventionsFile g = some ⟨path, content, .full⟩ := by
    simp [conventionsFile, hpath, hbody, content]
  obtain ⟨kept, -, hfiles⟩ := p.exists_kept (p.ruleFiles g.rules)
  refine ⟨⟨path, content, .full⟩, ?_, .inr (infix_under hname _ (infix_joinSections hname hmem h))⟩
  simp [generate, hfile, hfiles]

theorem mentions_of_folded
    (hpage : (p.conventionsPath.isSome || p.instructionsPath.any (!·.isEmpty)) = true)
    (hmem : text ∈ p.featureSections g) (h : name <:+: text) : (p.generate g).Mentions name := by
  by_cases hconventions : p.conventionsPath.isSome = true
  · exact mentions_of_conventions hname hconventions hmem h
  rw [Bool.or_eq_true] at hpage
  refine mentions_of_instructions hname (hpage.resolve_left hconventions) ?_
    (mark_infix_of_mem_featureSections hmem) h
  rw [Option.not_isSome_iff_eq_none] at hconventions
  simp [instructionsSections, hconventions, hmem]

theorem mentions_of_treatment {α : Type} {treatment : Treatment α}
    (hplaced : ∀ path fields, treatment = .native path fields → path.isPlaced = true)
    (hsupport : (treatment.support == .native || (treatment.support == .degraded &&
      (p.conventionsPath.isSome || p.instructionsPath.any (!·.isEmpty)))) = true)
    (hnative : ∀ path fields, treatment = .native path fields →
      ∃ f ∈ (p.generate g).files, path.fill name <+: f.path)
    (hfolded : treatment.support = .degraded → ∃ text ∈ p.featureSections g, name <:+: text) :
    (p.generate g).Mentions name := by
  cases treatment with
  | native path fields =>
    obtain ⟨f, hf, hpath⟩ := hnative path fields rfl
    exact ⟨f, hf, .inl ((infix_fill (hplaced path fields rfl) name).trans hpath.isInfix)⟩
  | folded detail =>
    obtain ⟨text, hmem, h⟩ := hfolded rfl
    exact mentions_of_folded hname (by simpa [Treatment.support] using hsupport) hmem h
  | omitted => simp [Treatment.support] at hsupport

end

theorem mem_generate_of_otherFiles {f : OutputFile} (h : f ∈ p.otherFiles g) :
    f ∈ (p.generate g).files := by
  simp [generate, featureFiles_eq, h]

theorem exists_ruleFile (hr : r ∈ g.rules) (hpath : (p.rules r.scope).path = some path) :
    ∃ position, p.ruleFile r path position ∈ p.ruleFiles g.rules := by
  have hmem : (r, path) ∈ p.filed g.rules := mem_filterMap.mpr ⟨r, hr, by rw [hpath]; rfl⟩
  obtain ⟨position, hget⟩ := getElem?_of_mem hmem
  rw [ruleFiles_eq]
  exact ⟨position, mem_map.mpr ⟨((r, path), position), mk_mem_zipIdx_iff_getElem?.mpr hget, rfl⟩⟩

theorem exists_ruleSection (hr : r ∈ g.rules) (hpath : (p.rules r.scope).path = none) :
    ∃ text ∈ p.ruleSections g.rules, ("### " : Text) ++ r.name <+: text := by
  have hpaged : r ∈ p.paged g.rules := mem_filter.mpr ⟨hr, by rw [hpath]; rfl⟩
  have hscope : (r.scope == .always || r.scope == .manual) = true ∨ (r.scope == .glob) = true ∨
      (r.scope == .description) = true := by
    cases r.scope <;> decide
  have hmem {select : Rule → Bool} (render : Rule → Text) (h : select r = true) :
      render r ∈ ((p.paged g.rules).filter select).map render :=
    mem_map_of_mem (mem_filter.mpr ⟨hpaged, h⟩)
  simp only [ruleSections_eq, mem_append]
  rcases hscope with h | h | h
  · exact ⟨_, .inl (.inl (hmem _ h)), _, (append_assoc _ _ _).symm⟩
  · refine ⟨_, .inl (.inr (hmem _ h)), ?_⟩
    simp only [Rule.globSection, append_assoc]
    exact ⟨_, append_assoc _ _ _⟩
  · refine ⟨_, .inr (hmem _ h), ?_⟩
    simp only [Rule.describedSection, append_assoc]
    exact ⟨_, append_assoc _ _ _⟩

theorem allocate_grows (b : Budget) (files : List RuleFile) (aggregate : Option OutputFile) :
    ((Budget.byPriority files).foldl b.take {}).files ⊆ (b.allocate files aggregate).files ∧
      ((Budget.byPriority files).foldl b.take {}).warnings ⊆
        (b.allocate files aggregate).warnings := by
  cases aggregate with
  | none => exact ⟨Subset.refl _, Subset.refl _⟩
  | some f => exact ⟨subset_append_left _ _, subset_append_left _ _⟩

theorem kept_or_dropped (hbudget : p.budget.isNone = true ∨ p.name = windsurf.name)
    (h : file ∈ p.ruleFiles g.rules) :
    file.file ∈ (p.generate g).files ∨ (p.name = windsurf.name ∧
      ∃ b total, Budget.droppingWarning b file total ∈ (p.generate g).warnings) := by
  have hfiles : (p.allocate (p.ruleFiles g.rules) (p.conventionsFile g)).files ⊆
      (p.generate g).files := by
    simp only [generate, append_assoc]
    exact subset_append_left _ _
  cases hsome : p.budget with
  | none =>
    refine .inl (hfiles ?_)
    simp only [allocate, hsome, allocateAll]
    exact mem_append_left _ (mem_map_of_mem h)
  | some b =>
    have hname : p.name = windsurf.name := hbudget.resolve_left (by simp [hsome])
    obtain ⟨hgrows, hwarnings⟩ := allocate_grows b (p.ruleFiles g.rules) (p.conventionsFile g)
    rcases b.kept_or_dropped (mem_mergeSort.mpr h) {} with hkept | ⟨total, hdropped⟩
    · refine .inl (hfiles ?_)
      simp only [allocate, hsome]
      exact hgrows hkept
    · refine .inr ⟨hname, b, total, ?_⟩
      simp only [generate, allocate, hsome]
      exact hwarnings hdropped

section Kinds

variable (hplaced : p.isPlaced = true) (htraceable : p.isTraceable = true)
include hplaced htraceable

theorem mentions_command {c : Command} (hc : c ∈ g.commands) (hname : Text.trim c.name = c.name) :
    (p.generate g).Mentions c.name := by
  simp only [isPlaced, Bool.and_eq_true] at hplaced
  simp only [isTraceable, all_cons, Bool.and_eq_true] at htraceable
  have hcommands := hplaced.1.1.1.1.1.1.2
  refine mentions_of_treatment hname ?_ htraceable.1.2.1 ?_ ?_
  · intro path fields hnative
    rw [hnative] at hcommands
    exact isPlaced_of_isDocument hcommands
  · intro path fields hnative
    refine ⟨commandFile path fields c, mem_generate_of_otherFiles ?_, ?_⟩
    · simp only [otherFiles, hnative, nativeFiles, mem_append]
      exact .inl (.inl (mem_map_of_mem hc))
    · rw [path_commandFile]
  · intro hfolded
    refine ⟨Section.commands g.commands, ?_, ?_⟩
    · simp only [featureSections_eq, mem_append, mem_foldedSection]
      exact .inl (.inl (.inr ⟨hfolded, ne_nil_of_mem hc, trivial⟩))
    · refine Section.infix_titled hname _ (mem_map_of_mem hc) mem_cons_self ?_
      exact ⟨"### ", _, rfl⟩

theorem mentions_skill {s : Skill} (hs : s ∈ g.skills) (hname : Text.trim s.name = s.name) :
    (p.generate g).Mentions s.name := by
  simp only [isPlaced, Bool.and_eq_true] at hplaced
  simp only [isTraceable, all_cons, Bool.and_eq_true] at htraceable
  have hskills := hplaced.1.1.1.1.2
  refine mentions_of_treatment hname ?_ htraceable.1.2.2.1 ?_ ?_
  · intro path fields hnative
    rw [hnative] at hskills
    exact isPlaced_of_isDirectory hskills
  · intro path fields hnative
    refine ⟨⟨path.fill s.name ++ "/SKILL.md",
      Page.document (skillFields fields s) s.content, .full⟩,
      mem_generate_of_otherFiles ?_, prefix_append _ _⟩
    simp only [otherFiles, hnative, nativeFiles, mem_append]
    exact .inl (.inr (mem_flatMap.mpr ⟨s, hs, mem_cons_self⟩))
  · intro hfolded
    refine ⟨Section.skills g.skills, ?_, ?_⟩
    · simp only [featureSections_eq, mem_append, mem_foldedSection]
      exact .inl (.inr ⟨hfolded, ne_nil_of_mem hs, trivial⟩)
    · refine Section.infix_titled hname _ (mem_map_of_mem hs) mem_cons_self ?_
      exact ⟨"### ", [], append_nil _⟩

theorem mentions_agent {a : Agent} (ha : a ∈ g.agents) (hname : Text.trim a.name = a.name) :
    (p.generate g).Mentions a.name := by
  simp only [isPlaced, Bool.and_eq_true] at hplaced
  simp only [isTraceable, all_cons, Bool.and_eq_true] at htraceable
  have hagents := hplaced.1.1.1.1.1.2
  refine mentions_of_treatment hname ?_ htraceable.1.2.2.2.1 ?_ ?_
  · intro path fields hnative
    rw [hnative] at hagents
    exact isPlaced_of_isDocument hagents
  · intro path fields hnative
    refine ⟨agentFile path fields a, mem_generate_of_otherFiles ?_, prefix_rfl⟩
    simp only [otherFiles, hnative, nativeFiles, mem_append]
    exact .inr (mem_map_of_mem ha)
  · intro hfolded
    refine ⟨Section.agents g.agents, ?_, ?_⟩
    · simp only [featureSections_eq, mem_append, mem_foldedSection]
      exact .inr ⟨hfolded, ne_nil_of_mem ha, trivial⟩
    · refine Section.infix_titled hname _ (mem_map_of_mem ha) mem_cons_self ?_
      exact ⟨"### ", [], append_nil _⟩

/-- A rule is named by its file or on the instructions page. Where a budget drops its file, the
complaint about that names it. -/
theorem mentions_rule (hr : r ∈ g.rules) (hname : Text.trim r.name = r.name) :
    (p.generate g).Mentions r.name ∨ (p.name = windsurf.name ∧ ∃ warning ∈ (p.generate g).warnings,
        ("Dropping rule" : Text) <+: warning ∧ r.name <:+: warning) := by
  have hscope : r.scope ∈ RuleScope.all := by cases r.scope <;> decide
  simp only [isPlaced, Bool.and_eq_true, all_eq_true] at hplaced
  simp only [isTraceable, Bool.and_eq_true, all_eq_true] at htraceable
  cases hpath : (p.rules r.scope).path with
  | none =>
    have hpage := (htraceable.1.1.1 r.scope hscope).1
    rw [hpath, Option.isSome_none, Bool.false_or] at hpage
    obtain ⟨text, hmem, htext⟩ := exists_ruleSection hr hpath
    have hmark : ("#" : Text) <:+: ("### " : Text) ++ r.name := ⟨[], "## " ++ r.name, rfl⟩
    exact .inl (mentions_of_instructions hname hpage (mem_append_left _ hmem)
      (hmark.trans htext.isInfix) ((suffix_append _ _).isInfix.trans htext.isInfix))
  | some path =>
    have hdocument := hplaced.1.1.1.1.1.1.1 r.scope hscope
    rw [hpath] at hdocument
    obtain ⟨position, hfile⟩ := exists_ruleFile hr hpath
    obtain ⟨before, hbefore, -⟩ := p.naming.exists_fileName r.name position
    have hbudget : p.budget.isNone = true ∨ p.name = windsurf.name := by simpa using htraceable.2
    rcases kept_or_dropped hbudget hfile with hkept | ⟨hwindsurf, b, total, hdropped⟩
    · refine .inl ⟨_, hkept, .inl (List.IsInfix.trans ?_ (infix_fill
        (isPlaced_of_isDocument hdocument) _))⟩
      rw [hbefore]
      exact (suffix_append _ _).isInfix
    · refine .inr ⟨hwindsurf, _, hdropped, ?_, ?_⟩
      · exact ⟨_, rfl⟩
      · simp only [Budget.droppingWarning, append_assoc]
        exact ⟨_, _, append_assoc _ _ _⟩

end Kinds

theorem mem_omitted_iff (htraceable : p.isTraceable = true) :
    feature ∈ p.omitted ↔ (p.treatment feature).1 = .omitted := by
  have homitted : feature ∈ p.omitted ↔ (p.hooks.support = .omitted ∧ .hooks = feature) ∨
      (p.commands.support = .omitted ∧ .commands = feature) ∨
      (p.skills.support = .omitted ∧ .skills = feature) ∨
      (p.agents.support = .omitted ∧ .agents = feature) := by
    simp [omitted]
  have hrules (scope : RuleScope) : (p.rules scope).support ≠ .omitted := by
    simp only [isTraceable, Bool.and_eq_true, all_eq_true, bne_iff_ne] at htraceable
    exact (htraceable.1.1.1 scope (by cases scope <;> decide)).2
  rw [homitted]
  cases feature <;> simp [treatment, hrules]

/-- What is generated for a platform accounts for all guidance. -/
structure Traces (p : Profile) (g : Guidance) : Prop where
  rules : ∀ r ∈ g.rules, (p.generate g).Mentions r.name ∨ (p.name = windsurf.name ∧
    ∃ warning ∈ (p.generate g).warnings,
      ("Dropping rule" : Text) <+: warning ∧ r.name <:+: warning)
  commands : ∀ c ∈ g.commands, (p.generate g).Mentions c.name
  skills : ∀ s ∈ g.skills, (p.generate g).Mentions s.name
  agents : ∀ a ∈ g.agents, (p.generate g).Mentions a.name
  /-- Rules that always apply are the instructions, a feature that every platform has. -/
  tags : ∀ feature, feature ≠ .instructions →
    (p.TagsNative g feature ∨ p.TagsDegraded g feature ↔ g.Has feature ∧ feature ∉ p.omitted)
  one_tag : ∀ feature, ¬ (p.TagsNative g feature ∧ p.TagsDegraded g feature)
  omits : ∀ feature ∈ p.omitted, feature = .hooks
  nodup_native : (p.generate g).native.Nodup
  nodup_degraded : (p.generate g).degraded.Nodup

/-- Every piece of guidance whose name has no blanks around it is traceable on every supported
platform: it is named in what is generated, or in the complaint that it is dropped. -/
theorem every_feature_is_traceable (hp : p ∈ defaults) (hg : g.IsTrimmed) : p.Traces g := by
  have hplaced := isPlaced_of_mem_defaults hp
  have htraceable := isTraceable_of_mem_defaults hp
  refine ⟨fun r hr => mentions_rule hplaced htraceable hr (hg.rules r hr),
    fun c hc => mentions_command hplaced htraceable hc (hg.commands c hc),
    fun s hs => mentions_skill hplaced htraceable hs (hg.skills s hs),
    fun a ha => mentions_agent hplaced htraceable ha (hg.agents a ha), ?_, ?_, ?_,
    Hook.nodup_eraseDups _, Hook.nodup_eraseDups _⟩
  · intro feature hfeature
    rw [tagsNative_iff, tagsDegraded_iff, mem_omitted_iff htraceable]
    cases (p.treatment feature).1 <;> simp [hfeature]
  · intro feature
    rw [tagsNative_iff, tagsDegraded_iff]
    rintro ⟨rfl | ⟨-, hnative⟩, -, hdegraded⟩
    · simp only [isTraceable, Bool.and_eq_true, beq_iff_eq] at htraceable
      exact absurd (htraceable.1.1.2.symm.trans hdegraded) (by decide)
    · exact absurd (hnative.symm.trans hdegraded) (by decide)
  · have hall : (defaults.all fun p => p.omitted.all (· == .hooks)) = true := by decide +kernel
    intro feature hfeature
    exact beq_iff_eq.mp (List.all_eq_true.mp (List.all_eq_true.mp hall p hp) feature hfeature)

/-- Guidance of every kind, with a rule that has no name. -/
def mixedGuidance : Guidance where
  rules := [{ name := "a b", scope := .glob, globs := some ["*.x"] },
    { name := "", scope := .manual }]
  hooks := [{ event := .preCommit, run := "x" }]
  commands := [{ name := "c" }]
  skills := [{ name := "s" }]
  agents := [{ name := "d" }]

theorem every_feature_is_traceable_of_mixed :
    mixedGuidance.IsTrimmed ∧ ∀ p ∈ defaults, p.Traces mixedGuidance := by
  have htrimmed : mixedGuidance.IsTrimmed :=
    ⟨by decide +kernel, by decide +kernel, by decide +kernel, by decide +kernel⟩
  exact ⟨htrimmed, fun p hp => every_feature_is_traceable hp htrimmed⟩

end Profile

end AgentConfig
