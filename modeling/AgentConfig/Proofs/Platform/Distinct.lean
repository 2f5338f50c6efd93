import AgentConfig.Proofs.Number.Numeral
import AgentConfig.Proofs.Platform.Zones

namespace AgentConfig

open List Text

variable {part body line text : Text} {block sections : List Text}

namespace Page

theorem infix_joinSections (hpart : Text.trim part = part) (hmem : text ∈ sections)
    (h : part <:+: text) : part <:+: joinSections sections := by
  by_cases hempty : text = []
  · rw [hempty, infix_nil] at h
    exact h ▸ nil_infix
  have hkept : text ∈ sections.filter (!·.isEmpty) := by simp [hmem, hempty]
  have hinside := infix_trim hpart (h.trans (infix_intercalate "\n\n" hkept))
  unfold joinSections
  dsimp only
  split
  · rename_i hnone
    rw [isEmpty_iff.mp hnone] at hinside
    exact hinside
  · exact hinside.trans (prefix_append _ _).isInfix

theorem infix_under (hpart : Text.trim part = part) (header : Text)
    (h : part <:+: body) : part <:+: under header body := by
  have hinside := infix_trim hpart h
  unfold under
  dsimp only
  split
  · exact hinside.trans (prefix_append _ _).isInfix
  split
  · rename_i hnone
    rw [isEmpty_iff.mp hnone, infix_nil] at hinside
    exact hinside ▸ nil_infix
  · exact hinside.trans ⟨header ++ "\n\n", "\n", rfl⟩

end Page

namespace Section

theorem infix_titled (hpart : Text.trim part = part) (title : Text) {blocks : List (List Text)}
    (hblock : block ∈ blocks) (hline : line ∈ block)
    (h : part <:+: line) : part <:+: titled title blocks := by
  refine infix_trimEnd hpart (h.trans (infix_intercalate "\n" ?_))
  refine mem_append_right _ (mem_flatMap.mpr ⟨block, hblock, ?_⟩)
  exact mem_append_left _ hline

theorem mark_infix_titled (title : Text) (blocks : List (List Text)) :
    ("#" : Text) <:+: titled title blocks := by
  refine infix_trimEnd (by decide) (List.IsInfix.trans ?_
    (infix_intercalate "\n" mem_cons_self))
  exact ⟨[], "# " ++ title, by simp [ofString, ofChars]⟩

end Section

theorem Page.joinSections_ne_nil (hmem : text ∈ sections)
    (h : ("#" : Text) <:+: text) : joinSections sections ≠ [] := by
  intro hnil
  have hinside := infix_joinSections (by decide) hmem h
  rw [hnil, infix_nil] at hinside
  exact absurd hinside (by decide)

namespace Profile

variable {α : Type} {support : Support} {text : Text} {p : Profile} {g : Guidance}

theorem mark_infix_of_mem_featureSections
    (h : text ∈ p.featureSections g) : ("#" : Text) <:+: text := by
  simp only [featureSections_eq, mem_append, mem_foldedSection] at h
  rcases h with ((⟨-, -, rfl⟩ | ⟨-, -, rfl⟩) | ⟨-, -, rfl⟩) | ⟨-, -, rfl⟩ <;>
    exact Section.mark_infix_titled _ _

theorem isSome_conventionsFile : (p.conventionsFile g).isSome = true ↔
      p.conventionsPath.isSome = true ∧ p.featureSections g ≠ [] := by
  unfold conventionsFile
  cases p.conventionsPath with
  | none => simp
  | some path =>
    simp only [Option.isSome_some, true_and]
    constructor
    · intro hsome hnil
      have hempty : Page.joinSections [] = [] := by decide
      simp [hnil, hempty] at hsome
    · intro hne
      obtain ⟨text, hmem⟩ := exists_mem_of_ne_nil _ hne
      have hbody := Page.joinSections_ne_nil hmem (mark_infix_of_mem_featureSections hmem)
      simp [hbody]

end Profile

end AgentConfig

namespace AgentConfig

open List

variable {a area b : Area} {t : Template} {name other path : Text}

/-- Where the files of one kind can lie. -/
inductive Area where
  | nowhere
  | page (path : Text)
  /-- At the paths with one start. -/
  | below (start : Text)
  deriving DecidableEq

namespace Area

def Covers : Area → Text → Prop
  | .nowhere, _ => False
  | .page only, path => path = only
  | .below start, path => start <+: path

/-- Whether no path can lie in both of two areas. -/
def isApart : Area → Area → Bool
  | .page a, .page b => a != b
  | .page a, .below b => !b.isPrefixOf a
  | .below a, .page b => !a.isPrefixOf b
  | .below a, .below b => !a.isPrefixOf b && !b.isPrefixOf a
  | _, _ => true

theorem Covers.not_of_isApart (ha : a.Covers path)
    (hapart : a.isApart b = true) : ¬ b.Covers path := by
  intro hb
  cases a with
  | nowhere => exact ha
  | page only =>
    cases b with
    | nowhere => exact hb
    | page other => simp_all [Covers, isApart]
    | below start =>
      obtain rfl : path = only := ha
      simp only [isApart, Bool.not_eq_true', ← Bool.not_eq_true, isPrefixOf_iff_prefix] at hapart
      exact hapart hb
  | below start =>
    cases b with
    | nowhere => exact hb
    | page only =>
      obtain rfl : path = only := hb
      simp only [isApart, Bool.not_eq_true', ← Bool.not_eq_true, isPrefixOf_iff_prefix] at hapart
      exact hapart ha
    | below other =>
      simp only [isApart, Bool.and_eq_true, Bool.not_eq_true', ← Bool.not_eq_true,
        isPrefixOf_iff_prefix] at hapart
      obtain hle | hle := prefix_or_prefix_of_prefix ha hb
      · exact hapart.1 hle
      · exact hapart.2 hle

def ofPage (path : Option Text) : Area := path.elim .nowhere .page

def ofTemplate (t : Option Template) : Area :=
  t.elim .nowhere fun t => .below (Path.relative t.dirs ++ "/")

/-- Different paths in an area. -/
def Spreads (area : Area) (paths : List Text) : Prop :=
  paths.Nodup ∧ ∀ path ∈ paths, area.Covers path

theorem spreads_nil (area : Area) : area.Spreads [] := ⟨.nil, by simp⟩

theorem spreads_singleton (h : area.Covers path) :
    area.Spreads [path] := ⟨nodup_singleton _, by simpa using h⟩

theorem nodup_flatten {areas : List Area} {paths : List (List Text)}
    (hapart : areas.Pairwise fun a b => a.isApart b = true)
    (h : Forall₂ Spreads areas paths) : paths.flatten.Nodup := by
  refine List.nodup_flatten.mpr ⟨?_, ?_⟩
  · intro l hl
    obtain ⟨area, -, hnodup, -⟩ := Outcome.exists_of_forall₂ h hl
    exact hnodup
  induction h with
  | nil => exact .nil
  | cons hfirst hrest ih =>
    rw [pairwise_cons] at hapart
    refine .cons ?_ (ih hapart.2)
    intro other hother path hpath hpath'
    obtain ⟨area, harea, -, hcovers⟩ := Outcome.exists_of_forall₂ hrest hother
    exact (hfirst.2 path hpath).not_of_isApart (hapart.1 area harea) (hcovers path hpath')

end Area

theorem Template.fill_injective (ht : t.isPlaced = true)
    (h : t.fill name = t.fill other) : name = other := by
  rw [fill_eq ht, fill_eq ht, append_cancel_left_eq, append_cancel_right_eq] at h
  exact h

theorem Template.covers_fill (ht : t.isPlaced = true) (name : Text) :
    (Area.ofTemplate (some t)).Covers (t.fill name) := by
  rw [fill_eq ht]
  exact prefix_append _ _

theorem Text.not_mem_padded (width : Nat) {n : Int} (hn : 0 ≤ n) :
    Letter.char '-' ∉ Text.padded width n := by
  intro hmem
  have hdigit : ∀ c ∈ (Nat.repr n.natAbs).toList, c ≠ '-' := by
    intro c hc
    rw [Nat.toList_repr] at hc
    rintro rfl
    exact absurd (isDigit_toDigits _ _ hc) (by decide)
  unfold Text.padded at hmem
  rw [if_neg (by omega), leftpad, mem_append] at hmem
  rcases hmem with hmem | hmem
  · exact absurd (eq_of_mem_replicate hmem) (by decide)
  · obtain ⟨c, hc, heq⟩ := mem_map.mp hmem
    exact hdigit c hc (Letter.char.inj heq)

theorem Text.padded_ne_zeros (width : Nat) {n : Nat} (hn : 0 < n) (zeros : Nat) :
    Text.padded width n ≠ replicate zeros (.char '0') := by
  intro heq
  have hne : Nat.toDigits 10 n ≠ [] := Nat.toDigits_ne_nil
  obtain ⟨first, rest, hdigits⟩ := exists_cons_of_ne_nil hne
  have hfirst : first ≠ '0' := by
    have hhead := head?_toDigits_ne hn
    rw [hdigits] at hhead
    simpa using hhead
  have hmem : Letter.char first ∈ Text.padded width n := by
    unfold Text.padded
    rw [if_neg (by omega), leftpad, mem_append]
    refine .inr (mem_map_of_mem ?_)
    rw [Nat.toList_repr, Int.natAbs_natCast, hdigits]
    exact mem_cons_self
  rw [heq] at hmem
  exact hfirst (Letter.char.inj (eq_of_mem_replicate hmem))

/-- Whether no file name gets a number below one. -/
def Naming.isPositive : Naming → Bool
  | .plain => true
  | .numbered start _ => decide (0 < start)

theorem Naming.name_of_fileName {naming : Naming} (hpositive : naming.isPositive = true) {i j : Nat}
    (h : naming.fileName name i = naming.fileName other j) : name = other := by
  cases naming with
  | plain => exact h
  | numbered start width =>
    have hstart : 0 < start := by simpa [isPositive] using hpositive
    have hdash (k : Nat) (rest : Text) :
        (Text.padded width (k + start) ++ "-" ++ rest).dropWhile (· != .char '-') =
          .char '-' :: rest := by
      rw [append_assoc, dropWhile_append_of_pos]
      · rfl
      intro l hl
      rw [bne_iff_ne]
      rintro rfl
      exact Text.not_mem_padded width (by omega) hl
    have hrest := congrArg (List.dropWhile (· != .char '-')) h
    rw [fileName, fileName, hdash, hdash] at hrest
    exact (List.cons.inj hrest).2

theorem Budget.exists_kept (b : Budget) (files : List RuleFile) (a : Allocation) :
    ∃ kept : List RuleFile, kept.Sublist files ∧
      (files.foldl b.take a).files = a.files ++ kept.map (·.file) := by
  induction files generalizing a with
  | nil => exact ⟨[], .slnil, by simp⟩
  | cons file rest ih =>
    obtain ⟨kept, hsub, hfiles⟩ := ih (b.take a file)
    rw [foldl_cons, hfiles]
    unfold take
    dsimp only
    split
    · exact ⟨file :: kept, hsub.cons_cons _, by simp⟩
    · exact ⟨kept, hsub.cons _, rfl⟩

namespace Profile

variable {p : Profile} {g : Guidance} {rules : List Rule} {file : RuleFile} {t : Template}

theorem exists_kept (p : Profile) (files : List RuleFile) :
    ∃ kept : List RuleFile, kept.Subperm files ∧ ∀ aggregate, (p.allocate files aggregate).files =
        kept.map (·.file) ++ aggregate.toList := by
  unfold allocate
  cases p.budget with
  | none => exact ⟨files, .refl _, fun _ => rfl⟩
  | some budget =>
    obtain ⟨kept, hsub, hfiles⟩ := budget.exists_kept (Budget.byPriority files) {}
    refine ⟨kept, hsub.subperm.trans (mergeSort_perm _ _).subperm, ?_⟩
    intro aggregate
    cases aggregate with
    | none => simpa [Budget.allocate] using hfiles
    | some f => simpa [Budget.allocate, Budget.takeAggregate] using hfiles

theorem map_name_ruleFiles (p : Profile) (rules : List Rule) :
    ((p.ruleFiles rules).map (·.rule.name)).Sublist (rules.map (·.name)) := by
  have hnames : (p.ruleFiles rules).map (·.rule.name) = (p.filed rules).map (·.1.name) := by
    have hfiled := congrArg (List.map fun e : Rule × Template => e.1.name)
      (zipIdx_map_fst 0 (p.filed rules))
    rw [map_map] at hfiled
    rw [ruleFiles_eq, map_map]
    exact hfiled
  rw [hnames]
  clear hnames
  unfold filed
  induction rules with
  | nil => exact .slnil
  | cons r rest ih =>
    rw [filterMap_cons]
    cases (p.rules r.scope).path with
    | none => exact ih.cons _
    | some path => exact ih.cons_cons _

/-- The template of the files of rules. -/
def ruleTemplate? (p : Profile) : Option Template :=
  (RuleScope.all.filterMap fun scope => (p.rules scope).path).head?

/-- The areas of the files that are neither of rules nor the page of folded guidance. -/
def otherAreas (p : Profile) : List Area :=
  [.ofPage p.instructionsPath, .ofPage p.settings?, .ofTemplate p.commands.path?,
    .ofTemplate p.skills.path?, .ofTemplate p.agents.path?]

/-- Whether the files of each kind have an area of their own, but for those of rules and the page of
folded guidance. -/
def isOrderly (p : Profile) : Bool :=
  RuleScope.all.all (fun scope => (p.rules scope).path.all fun t => p.ruleTemplate? == some t) &&
    p.naming.isPositive && decide (p.otherAreas.Pairwise fun a b => a.isApart b = true) &&
    p.otherAreas.all fun area =>
      (Area.ofTemplate p.ruleTemplate?).isApart area && (Area.ofPage p.conventionsPath).isApart area

theorem isOrderly_of_mem_defaults (h : p ∈ defaults) : p.isOrderly = true := by
  have hall : defaults.all isOrderly = true := by decide +kernel
  exact all_eq_true.mp hall p h

theorem path_ruleFile (hp : p.isOrderly = true) (h : file ∈ p.ruleFiles rules) :
    ∃ t position, p.ruleTemplate? = some t ∧
      file.file.path = t.fill (p.naming.fileName file.rule.name position) := by
  simp only [isOrderly, Bool.and_eq_true, all_eq_true] at hp
  obtain ⟨r, -, path, position, hpath, rfl⟩ := mem_ruleFiles h
  have htemplate := hp.1.1.1 r.scope (by cases r.scope <;> decide)
  rw [hpath, Option.all_some, beq_iff_eq] at htemplate
  exact ⟨path, position, htemplate, rfl⟩

theorem isPlaced_ruleTemplate? (hp : p.isPlaced = true) (h : p.ruleTemplate? = some t) :
    t.isPlaced = true := by
  simp only [isPlaced, Bool.and_eq_true, all_eq_true] at hp
  obtain ⟨scope, hscope, hpath⟩ := mem_filterMap.mp (mem_of_head? h)
  have hdocument := hp.1.1.1.1.1.1.1 scope hscope
  rw [hpath] at hdocument
  exact Template.isPlaced_of_isDocument hdocument

theorem nodup_ruleFiles (hp : p.isOrderly = true) (hplaced : p.isPlaced = true)
    (hg : (g.rules.map (·.name)).Nodup) :
    ((p.ruleFiles g.rules).map (·.file.path)).Nodup := by
  have hpositive : p.naming.isPositive = true := by
    simp only [isOrderly, Bool.and_eq_true] at hp
    exact hp.1.1.2
  have hnames := hg.sublist (p.map_name_ruleFiles g.rules)
  rw [Nodup, pairwise_map] at hnames ⊢
  refine hnames.imp_of_mem ?_
  intro file other hfile hother hne heq
  obtain ⟨t, i, ht, hpath⟩ := path_ruleFile hp hfile
  obtain ⟨t', j, ht', hpath'⟩ := path_ruleFile hp hother
  obtain rfl : t = t' := Option.some.inj (ht.symm.trans ht')
  rw [hpath, hpath'] at heq
  exact hne (Naming.name_of_fileName hpositive
    (Template.fill_injective (isPlaced_ruleTemplate? hplaced ht) heq))

theorem spreads_map {α : Type} (ht : t.isPlaced = true) {xs : List α} {name : α → Text}
    (hnames : (xs.map name).Nodup) {file : α → OutputFile}
    (hpath : ∀ x, (file x).path = t.fill (name x)) :
    (Area.ofTemplate (some t)).Spreads ((xs.map file).map (·.path)) := by
  have hpaths : (xs.map file).map (·.path) = (xs.map name).map t.fill := by
    rw [map_map, map_map]
    exact map_congr_left fun x _ => hpath x
  rw [hpaths]
  refine ⟨hnames.map fun _ _ => Template.fill_injective ht, ?_⟩
  intro path hmem
  obtain ⟨name, -, rfl⟩ := mem_map.mp hmem
  exact Template.covers_fill ht name

theorem map_path_skillFiles (t : Template) (fields : List (Field Skill)) (s : Skill) :
    (skillFiles t fields s).map (·.path) =
      (Source.skillFileName :: s.sortedFiles.map (·.1)).map (t.fill s.name ++ "/" ++ ·) := by
  rw [skillFiles, map_cons, map_cons, map_map, map_map]
  simp [Source.skillFileName, Text.ofString, Text.ofChars]

/-- The files of skills are apart, since a skill has a directory of its name. -/
theorem spreads_skills (ht : t.isDirectory = true) (fields : List (Field Skill)) (hg : g.IsNamed)
    (hdistinct : g.IsDistinct) :
    (Area.ofTemplate (some t)).Spreads ((g.skills.flatMap (skillFiles t fields)).map (·.path)) := by
  have hplaced := Template.isPlaced_of_isDirectory ht
  rw [map_flatMap]
  simp only [map_path_skillFiles]
  constructor
  · refine nodup_flatMap.mpr ⟨?_, ?_⟩
    · intro s hs
      obtain ⟨hfiles, hmain⟩ := hdistinct.files s hs
      have hsorted : (s.sortedFiles.map (·.1)).Perm (s.files.map (·.1)) :=
        (mergeSort_perm _ _).map _
      refine Nodup.map (fun _ _ => append_cancel_left) (nodup_cons.mpr ⟨?_, ?_⟩)
      · rwa [hsorted.mem_iff]
      · rwa [hsorted.nodup_iff]
    · have hnames := hdistinct.skills
      rw [Nodup, pairwise_map] at hnames
      refine hnames.imp_of_mem ?_
      intro s s' hs hs' hne path hpath hpath'
      obtain ⟨file, -, rfl⟩ := mem_map.mp hpath
      obtain ⟨file', -, heq⟩ := mem_map.mp hpath'
      rw [Template.fill_directory ht, Template.fill_directory ht] at heq
      simp only [append_assoc, append_cancel_left_eq] at heq
      have htop := congrArg Path.top heq
      rw [← append_assoc, ← append_assoc, Path.top_append, Path.top_append,
        Path.top_of_no_slash (hg.skills s hs).no_slash,
        Path.top_of_no_slash (hg.skills s' hs').no_slash] at htop
      exact hne htop.symm
  · intro path hmem
    obtain ⟨s, -, hmem⟩ := mem_flatMap.mp hmem
    obtain ⟨file, -, rfl⟩ := mem_map.mp hmem
    rw [append_assoc]
    exact (Template.covers_fill hplaced s.name).trans (prefix_append _ _)

theorem spreads_nativeFiles {α : Type} {treatment : Treatment α}
    {files : Template → List (Field α) → List α → List OutputFile} {xs : List α}
    (h : ∀ path fields, treatment = .native path fields →
      (Area.ofTemplate (some path)).Spreads ((files path fields xs).map (·.path))) :
    (Area.ofTemplate treatment.path?).Spreads ((nativeFiles treatment files xs).map (·.path)) := by
  cases treatment with
  | native path fields => exact h path fields rfl
  | folded detail => exact Area.spreads_nil _
  | omitted => exact Area.spreads_nil _

theorem spreads_instructionsFile (p : Profile) (g : Guidance) :
    (Area.ofPage p.instructionsPath).Spreads ((p.instructionsFile g).toList.map (·.path)) := by
  unfold instructionsFile
  cases hpath : p.instructionsPath with
  | none => exact Area.spreads_nil _
  | some path =>
    dsimp only
    split
    · exact Area.spreads_nil _
    · exact Area.spreads_singleton rfl

theorem spreads_hookFiles (p : Profile) (hooks : List Hook) :
    (Area.ofPage p.settings?).Spreads ((p.hookFiles hooks).map (·.path)) := by
  unfold hookFiles settings?
  cases p.hooks with
  | native settings =>
    cases settings with
    | none => exact Area.spreads_nil _
    | some path =>
      dsimp only
      split
      · exact Area.spreads_nil _
      · exact Area.spreads_singleton rfl
  | folded detail => exact Area.spreads_nil _
  | omitted => exact Area.spreads_nil _

def keptPaths (p : Profile) (g : Guidance) : List Text :=
  (p.allocate (p.ruleFiles g.rules) none).files.map (·.path)

theorem keptPaths_subperm (p : Profile) (g : Guidance) :
    (p.keptPaths g).Subperm ((p.ruleFiles g.rules).map (·.file.path)) := by
  obtain ⟨kept, hsub, hfiles⟩ := p.exists_kept (p.ruleFiles g.rules)
  have hpaths : p.keptPaths g = kept.map (·.file.path) := by
    rw [keptPaths, hfiles, Option.toList_none, append_nil, map_map]
    rfl
  rw [hpaths]
  obtain ⟨l, hperm, hsub⟩ := hsub
  exact ⟨l.map _, hperm.map _, hsub.map _⟩

theorem map_path_generate (p : Profile) (g : Guidance) : (p.generate g).files.map (·.path) =
      p.keptPaths g ++ (p.conventionsFile g).toList.map (·.path) ++
        ((p.instructionsFile g).toList ++ p.hookFiles g.hooks ++ p.otherFiles g).map (·.path) := by
  obtain ⟨kept, -, hfiles⟩ := p.exists_kept (p.ruleFiles g.rules)
  simp only [keptPaths, generate, featureFiles_eq, hfiles, Option.toList_none, append_nil,
    map_append, append_assoc]

theorem covers_conventionsFile {page : OutputFile} (h : p.conventionsFile g = some page) :
    (Area.ofPage p.conventionsPath).Covers page.path := by
  unfold conventionsFile at h
  cases hpath : p.conventionsPath with
  | none => simp [hpath] at h
  | some path =>
    simp only [hpath] at h
    split at h
    · cases h
    · cases h
      rfl

/-- The files that are neither of rules nor the page of folded guidance are spread over the other
areas. -/
theorem exists_blocks (hplaced : p.isPlaced = true) (hg : g.IsNamed) (hdistinct : g.IsDistinct) :
    ∃ blocks : List (List Text),
      ((p.instructionsFile g).toList ++ p.hookFiles g.hooks ++ p.otherFiles g).map (·.path) =
        blocks.flatten ∧
      Forall₂ Area.Spreads p.otherAreas blocks := by
  simp only [isPlaced, Bool.and_eq_true] at hplaced
  obtain ⟨⟨⟨⟨⟨⟨⟨-, hcommands⟩, hagents⟩, hskills⟩, -⟩, -⟩, -⟩, -⟩ := hplaced
  have hcommands : (Area.ofTemplate p.commands.path?).Spreads ((nativeFiles p.commands
      (fun path fields => map (commandFile path fields)) g.commands).map (·.path)) := by
    refine spreads_nativeFiles fun path fields hpath => ?_
    rw [hpath] at hcommands
    exact spreads_map (Template.isPlaced_of_isDocument hcommands) hdistinct.commands
      (path_commandFile path fields)
  have hskills : (Area.ofTemplate p.skills.path?).Spreads ((nativeFiles p.skills
      (fun path fields => flatMap (skillFiles path fields)) g.skills).map (·.path)) := by
    refine spreads_nativeFiles fun path fields hpath => ?_
    rw [hpath] at hskills
    exact spreads_skills hskills fields hg hdistinct
  have hagents : (Area.ofTemplate p.agents.path?).Spreads ((nativeFiles p.agents
      (fun path fields => map (agentFile path fields)) g.agents).map (·.path)) := by
    refine spreads_nativeFiles fun path fields hpath => ?_
    rw [hpath] at hagents
    exact spreads_map (Template.isPlaced_of_isDocument hagents) hdistinct.agents fun _ => rfl
  refine ⟨[_, _, _, _, _], ?_, .cons (spreads_instructionsFile p g) (.cons
    (spreads_hookFiles p g.hooks) (.cons hcommands (.cons hskills (.cons hagents .nil))))⟩
  simp only [otherFiles, map_append, flatten_cons, flatten_nil, append_nil, append_assoc]

/-- A platform generates no path twice, unless the page of folded guidance takes the path of a rule
file that is kept. -/
theorem nodup_generate_iff (hp : p.isOrderly = true) (hplaced : p.isPlaced = true) (hg : g.IsNamed)
    (hdistinct : g.IsDistinct) :
    ((p.generate g).files.map (·.path)).Nodup ↔
      ∀ page, p.conventionsFile g = some page → page.path ∉ p.keptPaths g := by
  have hkept : (p.keptPaths g).Nodup := by
    obtain ⟨l, hperm, hsub⟩ := p.keptPaths_subperm g
    exact hperm.nodup_iff.mp ((nodup_ruleFiles hp hplaced hdistinct.rules).sublist hsub)
  have hrule : ∀ path ∈ p.keptPaths g, (Area.ofTemplate p.ruleTemplate?).Covers path := by
    intro path hmem
    obtain ⟨file, hfile, rfl⟩ := mem_map.mp ((p.keptPaths_subperm g).subset hmem)
    obtain ⟨t, position, ht, hpath⟩ := path_ruleFile hp hfile
    rw [hpath, ht]
    exact Template.covers_fill (isPlaced_ruleTemplate? hplaced ht) _
  obtain ⟨blocks, hblocks, hspread⟩ := exists_blocks hplaced hg hdistinct
  simp only [isOrderly, Bool.and_eq_true, decide_eq_true_eq, all_eq_true] at hp
  have hapart {path : Text} (hmem : path ∈ blocks.flatten) :
      ∃ area ∈ p.otherAreas, area.Covers path := by
    obtain ⟨paths, hpaths, hmem⟩ := mem_flatten.mp hmem
    obtain ⟨area, harea, -, hcovers⟩ := Outcome.exists_of_forall₂ hspread hpaths
    exact ⟨area, harea, hcovers path hmem⟩
  have hrules : ∀ path ∈ p.keptPaths g, path ∉ blocks.flatten := by
    intro path hmem hmem'
    obtain ⟨area, harea, hcovers⟩ := hapart hmem'
    exact (hrule path hmem).not_of_isApart (hp.2 area harea).1 hcovers
  have hothers : blocks.flatten.Nodup := Area.nodup_flatten hp.1.2 hspread
  rw [map_path_generate, hblocks]
  cases hpage : p.conventionsFile g with
  | none =>
    simp only [Option.toList_none, map_nil, append_nil, reduceCtorEq, false_implies,
      implies_true, iff_true]
    exact hkept.append hothers hrules
  | some page =>
    have hconventions : page.path ∉ blocks.flatten := by
      intro hmem
      obtain ⟨area, harea, hcovers⟩ := hapart hmem
      exact (covers_conventionsFile hpage).not_of_isApart (hp.2 area harea).2 hcovers
    simp only [Option.toList_some, map_cons, map_nil, Option.some.injEq, forall_eq',
      nodup_append', nodup_singleton, disjoint_append_left,
      disjoint_singleton, singleton_disjoint, true_and]
    exact ⟨fun h => h.1.2, fun h => ⟨⟨hkept, h⟩, hothers, hrules, hconventions⟩⟩

/-- Whether the file of a rule is among those that are kept. -/
def Keeps (p : Profile) (g : Guidance) (r : Rule) : Prop :=
  ∃ file ∈ p.ruleFiles g.rules, file.rule = r ∧ file.file.path ∈ p.keptPaths g

/-- The name that a rule shares with the page of folded guidance. -/
def conventionsName : Text := "agentrc-conventions"

theorem isSome_conventionsFile_windsurf (g : Guidance) :
    (windsurf.conventionsFile g).isSome = true ↔ g.hooks ≠ [] ∨ g.skills ≠ [] ∨ g.agents ≠ [] := by
  have hpath : windsurf.conventionsPath.isSome = true := rfl
  have hhooks : windsurf.hooks.support = .degraded := rfl
  have hcommands : windsurf.commands.support = .native := rfl
  have hskills : windsurf.skills.support = .degraded := rfl
  have hagents : windsurf.agents.support = .degraded := rfl
  simp only [isSome_conventionsFile, hpath, featureSections_eq, ne_eq, List.append_eq_nil_iff,
    foldedSection_eq_nil, hhooks, hcommands, hskills, hagents, reduceCtorEq, forall_const,
    false_implies, and_true, true_and, not_and_or, or_assoc]

theorem path_windsurf (h : file ∈ windsurf.ruleFiles rules) :
    file.file.path = ".windsurf/rules/" ++ file.rule.name ++ ".md" := by
  obtain ⟨t, position, ht, hpath⟩ :=
    path_ruleFile (isOrderly_of_mem_defaults (by simp [defaults])) h
  obtain rfl : Template.around ".windsurf/rules/" ".md" = t := Option.some.inj ht
  rw [hpath]
  simp [Template.fill, Template.around, Text.intercalate, List.intercalate, windsurf,
    Naming.fileName]

theorem mem_keptPaths_conventions_windsurf (g : Guidance) :
    (".windsurf/rules/agentrc-conventions.md" : Text) ∈ windsurf.keptPaths g ↔
      ∃ r ∈ g.rules, r.name = conventionsName ∧ windsurf.Keeps g r := by
  have hpath : (".windsurf/rules/agentrc-conventions.md" : Text) =
      ".windsurf/rules/" ++ conventionsName ++ ".md" := by decide
  constructor
  · intro hmem
    obtain ⟨file, hfile, heq⟩ := mem_map.mp ((windsurf.keptPaths_subperm g).subset hmem)
    obtain ⟨r, hr, t, position, -, rfl⟩ := mem_ruleFiles hfile
    refine ⟨r, hr, ?_, _, hfile, rfl, heq ▸ hmem⟩
    rw [path_windsurf hfile, hpath, append_cancel_right_eq, append_cancel_left_eq] at heq
    exact heq
  · rintro ⟨r, -, hname, file, hfile, rfl, hmem⟩
    rwa [path_windsurf hfile, hname, ← hpath] at hmem

theorem not_mem_keptPaths_conventions_cline (g : Guidance) :
    (".clinerules/00-agentrc-conventions.md" : Text) ∉ cline.keptPaths g := by
  intro hmem
  obtain ⟨file, hfile, heq⟩ := mem_map.mp ((cline.keptPaths_subperm g).subset hmem)
  obtain ⟨t, position, ht, hpath⟩ := path_ruleFile (isOrderly_of_mem_defaults (by simp [defaults]))
    hfile
  obtain rfl : Template.around ".clinerules/" ".md" = t := Option.some.inj ht
  have hpage : (".clinerules/00-agentrc-conventions.md" : Text) =
      (Template.around ".clinerules/" ".md").fill
        (replicate 2 (Letter.char '0') ++ ("-agentrc-conventions" : Text)) := by decide
  rw [hpath, hpage] at heq
  have hnumber := congrArg (List.takeWhile (· != .char '-'))
    (Template.fill_injective (by decide +kernel) heq)
  have hdash : ∀ l ∈ Text.padded 2 (position + 1 : Nat), (l != Letter.char '-') = true := by
    intro l hl
    rw [bne_iff_ne]
    rintro rfl
    exact Text.not_mem_padded 2 (by omega) hl
  have hfile : cline.naming.fileName file.rule.name position =
      Text.padded 2 (position + 1 : Nat) ++ ("-" ++ file.rule.name) := by
    simp [cline, Naming.fileName]
  rw [hfile, takeWhile_append_of_pos hdash] at hnumber
  refine Text.padded_ne_zeros 2 (Nat.succ_pos position) 2 ?_
  simpa [Text.ofString, Text.ofChars] using hnumber

theorem mem_defaults_cases (h : p ∈ defaults) :
    p = windsurf ∨ p = cline ∨ (p.conventionsPath = none ∧ p.name ≠ windsurf.name) := by
  simp only [defaults, mem_cons, not_mem_nil, or_false] at h
  rcases h with rfl | rfl | rfl | rfl | rfl | rfl | rfl | rfl | rfl | rfl | rfl | rfl | rfl
  · exact .inr (.inr (by decide))
  · exact .inr (.inr (by decide))
  · exact .inr (.inr (by decide))
  · exact .inl rfl
  · exact .inr (.inl rfl)
  all_goals exact .inr (.inr (by decide))

/-- Of the supported platforms only one has a page that a rule can be named like, and the two meet
only if the file of the rule is kept. -/
theorem conventions_clash_iff (hp : p ∈ defaults) (g : Guidance) :
    (∃ page, p.conventionsFile g = some page ∧ page.path ∈ p.keptPaths g) ↔
      p.name = windsurf.name ∧ (g.hooks ≠ [] ∨ g.skills ≠ [] ∨ g.agents ≠ []) ∧
        ∃ r ∈ g.rules, r.name = conventionsName ∧ p.Keeps g r := by
  rcases mem_defaults_cases hp with rfl | rfl | ⟨hnone, hname⟩
  · rw [← isSome_conventionsFile_windsurf, ← mem_keptPaths_conventions_windsurf,
      Option.isSome_iff_exists]
    constructor
    · rintro ⟨page, hpage, hmem⟩
      exact ⟨rfl, ⟨page, hpage⟩, covers_conventionsFile hpage ▸ hmem⟩
    · rintro ⟨-, ⟨page, hpage⟩, hmem⟩
      exact ⟨page, hpage, (covers_conventionsFile hpage).symm ▸ hmem⟩
  · refine iff_of_false ?_ fun h => absurd h.1 (by decide)
    rintro ⟨page, hpage, hmem⟩
    exact not_mem_keptPaths_conventions_cline g (covers_conventionsFile hpage ▸ hmem)
  · refine iff_of_false ?_ fun h => hname h.1
    rintro ⟨page, hpage, -⟩
    have hcovers := covers_conventionsFile hpage
    rw [hnone] at hcovers
    exact hcovers

/-- One platform never generates an absolute path or a double dot, and no path twice, unless
windsurf gets a page of folded guidance besides a rule that is named like the page. -/
theorem paths_distinct_unless_rule_is_named_like_page {t : FileTree} (ht : t.WellFormed)
    {root : List Text} {s : Source} (hload : Source.load t root = .ok s) (hp : p ∈ defaults) :
    (∀ f ∈ (p.generate s.guidance).files,
      Path.isAbsolute f.path = false ∧ (".." : Text) ∉ Path.names f.path) ∧
    (((p.generate s.guidance).files.map (·.path)).Nodup ↔
      ¬ (p.name = windsurf.name ∧
        (s.guidance.hooks ≠ [] ∨ s.guidance.skills ≠ [] ∨ s.guidance.agents ≠ []) ∧
        ∃ r ∈ s.guidance.rules, r.name = conventionsName ∧ p.Keeps s.guidance r)) := by
  have hplaced := isPlaced_of_mem_defaults hp
  have hnamed := Source.load_isNamed ht hload
  constructor
  · intro f hf
    obtain ⟨names, hleads, -⟩ := generate_isPlaced hplaced hnamed f hf
    refine ⟨hleads.not_isAbsolute, ?_⟩
    rw [hleads.names_eq]
    exact fun hup => (hleads.proper _ hup).ne_up rfl
  · rw [nodup_generate_iff (isOrderly_of_mem_defaults hp) hplaced hnamed
      (Source.load_isDistinct ht hload), ← conventions_clash_iff hp]
    simp only [not_exists, not_and]

/-- A project with a hook, and a rule that is named like a page. -/
def clashingTree : FileTree :=
  ⟨[(["p", ".agentrc", "rules", "agentrc-conventions.md"], .ofText "x"),
    (["p", ".agentrc", "config.yaml"], .ofText
      "version: \"1\"\nhooks:\n- event: pre-commit\n  run: x\n  description: d\n"),
    (["p", ".agentrc", "rules"], .dir), (["p", ".agentrc"], .dir), (["p"], .dir)]⟩

theorem paths_distinct_of_clashing_rule :
    ∃ s, Source.load clashingTree ["p"] = .ok s ∧ ∀ p ∈ defaults, p.name ≠ windsurf.name →
      (∀ f ∈ (p.generate s.guidance).files,
        Path.isAbsolute f.path = false ∧ (".." : Text) ∉ Path.names f.path) ∧
      ((p.generate s.guidance).files.map (·.path)).Nodup := by
  have ht : clashingTree.WellFormed := FileTree.wellFormed_of_isPlain (by decide +kernel)
  have hloads : Outcome.checks (fun _ => true) (Source.load clashingTree ["p"]) = true := by
    decide +kernel
  obtain ⟨s, hload, -⟩ := Outcome.exists_of_checks hloads
  refine ⟨s, hload, fun p hp hname => ?_⟩
  have h := paths_distinct_unless_rule_is_named_like_page ht hload hp
  exact ⟨h.1, h.2.mpr fun hclash => hname hclash.1⟩

/-- The page for the hook and the rule are generated at one path. -/
theorem rule_and_page_share_a_path :
    ∃ s, clashingTree.WellFormed ∧ Source.load clashingTree ["p"] = .ok s ∧
      (windsurf.generate s.guidance).files.map (·.path) =
        [".windsurf/rules/agentrc-conventions.md", ".windsurf/rules/agentrc-conventions.md"] := by
  have h : ∃ s, Source.load clashingTree ["p"] = .ok s ∧
      ((windsurf.generate s.guidance).files.map (·.path) ==
        [(".windsurf/rules/agentrc-conventions.md" : Text),
          ".windsurf/rules/agentrc-conventions.md"]) = true :=
    Outcome.exists_of_checks (by decide +kernel)
  obtain ⟨s, hload, hpaths⟩ := h
  exact ⟨s, FileTree.wellFormed_of_isPlain (by decide +kernel), hload, beq_iff_eq.mp hpaths⟩

end Profile

end AgentConfig
