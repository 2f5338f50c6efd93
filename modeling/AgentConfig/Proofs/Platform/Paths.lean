import AgentConfig.Build
import AgentConfig.Proofs.Output.Sound
import AgentConfig.Proofs.Platform.Passes
import AgentConfig.Proofs.Source
import AgentConfig.Proofs.Text.Find

namespace AgentConfig

open List AgentConfig.Path Profile Template Text

open Workplace (IsOutside)

theorem Path.relative_append {dirs names : List Text} (hdirs : dirs ≠ []) (hnames : names ≠ []) :
    relative (dirs ++ names) = relative dirs ++ "/" ++ relative names := by
  simp only [relative, List.isEmpty_iff, List.append_eq_nil_iff, hdirs, hnames, false_and, if_false]
  obtain ⟨name, more, rfl⟩ := exists_cons_of_ne_nil hnames
  simp [intercalate_append _ hdirs, intercalate_cons]

/-- Whether a letter stands for itself in any name. -/
def Letter.isSimple (l : Letter) : Bool := l.is (·.toNat < 128) && l != .char '/'

theorem Text.isAscii_of_isSimple {text : Text} (h : text.all Letter.isSimple = true) :
    IsAscii text ∧ .char '/' ∉ text := by
  simp only [Letter.isSimple, all_eq_true, Bool.and_eq_true, bne_iff_ne] at h
  exact ⟨isAscii_of_all (all_eq_true.mpr fun l hl => (h l hl).1), fun hslash => (h _ hslash).2 rfl⟩

theorem Text.all_isSimple_repr (n : Nat) : (ofString (Nat.repr n)).all Letter.isSimple = true := by
  rw [all_eq_true]
  intro l hl
  obtain ⟨c, hc, rfl⟩ := mem_map.mp hl
  have hdigit : c.isDigit = true := by
    rw [Nat.repr, String.toList_ofList] at hc
    exact Nat.isDigit_of_mem_toDigits (by decide) (by decide) hc
  simp only [Char.isDigit, Bool.and_eq_true, decide_eq_true_eq] at hdigit
  have hlow : 48 ≤ c.toNat := UInt32.le_iff_toNat_le.mp hdigit.1
  have hhigh : c.toNat ≤ 57 := UInt32.le_iff_toNat_le.mp hdigit.2
  have hslash : c ≠ '/' := fun h => absurd (h ▸ hlow) (by decide)
  simp only [Letter.isSimple, Letter.is, Bool.and_eq_true, decide_eq_true_eq, bne_iff_ne, ne_eq,
    Letter.char.injEq]
  exact ⟨by omega, hslash⟩

theorem Text.all_isSimple_padded (width : Nat) (n : Int) :
    (Text.padded width n).all Letter.isSimple = true := by
  have hdigits (width : Nat) :
      ((ofString (Nat.repr n.natAbs)).leftpad width (.char '0')).all Letter.isSimple = true := by
    rw [leftpad, all_append, all_isSimple_repr, Bool.and_true, all_eq_true]
    intro l hl
    rw [eq_of_mem_replicate hl]
    decide
  unfold Text.padded
  split
  · rw [all_cons, hdigits]
    decide
  · exact hdigits width

theorem Naming.exists_fileName (naming : Naming) (name : Text) (position : Nat) :
    ∃ before : Text, naming.fileName name position = before ++ name ∧
      before.all Letter.isSimple = true := by
  cases naming with
  | plain => exact ⟨[], rfl, rfl⟩
  | numbered start width =>
    refine ⟨Text.padded width (position + start) ++ "-", rfl, ?_⟩
    rw [all_append, all_isSimple_padded]
    decide

/-- Where the settings document that is shared with the user lies. -/
def Profile.settingsNames : List Text := [".claude", "settings.json"]

theorem Profile.areProper_settingsNames : AreProper settingsNames :=
  areProper_of_isPlain (by decide +kernel)

/-- A generated file has a path in normal form outside the source directory, and only the settings
document is shared with the user. -/
def OutputFile.IsPlaced (f : OutputFile) : Prop :=
  ∃ names, Path.Leads f.path names ∧ IsOutside names ∧
    (f.ownership = .sharedKeys ↔ names = settingsNames)

namespace Template

def dirs (t : Template) : List Text := Path.names (t.pieces.headD [])

def ending (t : Template) : Text := t.pieces.getLastD []

/-- Whether a template names something in a directory that is neither in the source directory nor
on the way to the shared settings. -/
def isPlaced (t : Template) : Bool :=
  t == .around (relative t.dirs ++ "/") t.ending && t.dirs.all isPlain &&
    decide (IsOutside t.dirs) && !t.dirs.isPrefixOf settingsNames

/-- Whether a template names documents, with a suffix of simple letters. -/
def isDocument (t : Template) : Bool :=
  t.isPlaced && t.ending.all Letter.isSimple && decide (2 < t.ending.length)

def isDirectory (t : Template) : Bool := t.isPlaced && t.ending.isEmpty

variable {t : Template}

theorem isPlaced_of_isDocument (h : t.isDocument = true) : t.isPlaced = true := by
  simp only [isDocument, Bool.and_eq_true] at h
  exact h.1.1

theorem isPlaced_of_isDirectory (h : t.isDirectory = true) : t.isPlaced = true := by
  simp only [isDirectory, Bool.and_eq_true] at h
  exact h.1

theorem dirs_ne_nil (h : t.isPlaced = true) : t.dirs ≠ [] := by
  intro hnil
  simp [isPlaced, hnil] at h

theorem fill_eq (h : t.isPlaced = true) (name : Text) :
    t.fill name = relative t.dirs ++ "/" ++ (name ++ t.ending) := by
  simp only [isPlaced, Bool.and_eq_true, beq_iff_eq] at h
  have hpieces : t.pieces = [relative t.dirs ++ "/", t.ending] := congrArg pieces h.1.1.1
  rw [fill, hpieces]
  simp [Text.intercalate, List.intercalate]

theorem isPlaced_below (h : t.isPlaced = true) {names : List Text} (hnames : names ≠ [])
    (hproper : AreProper names) {f : OutputFile} (hown : f.ownership ≠ .sharedKeys)
    (hpath : f.path = relative t.dirs ++ "/" ++ relative names) : f.IsPlaced := by
  have hne := dirs_ne_nil h
  simp only [isPlaced, Bool.and_eq_true, decide_eq_true_eq, Bool.not_eq_true',
    ← Bool.not_eq_true, isPrefixOf_iff_prefix] at h
  obtain ⟨⟨⟨-, hplain⟩, hout⟩, hsettings⟩ := h
  refine ⟨t.dirs ++ names, ⟨by simp [hne], (areProper_of_isPlain hplain).append hproper, ?_⟩,
    ?_, ?_⟩
  · rw [hpath, relative_append hne hnames]
  · rwa [IsOutside, head?_append_of_ne_nil _ hne]
  · exact iff_of_false hown fun heq => hsettings (heq ▸ prefix_append _ _)

theorem isPlaced_document (h : t.isDocument = true) (before : Text) {name : Text}
    (hbefore : before.all Letter.isSimple = true) (hname : IsStem name) {f : OutputFile}
    (hown : f.ownership ≠ .sharedKeys) (hpath : f.path = t.fill (before ++ name)) :
    f.IsPlaced := by
  simp only [isDocument, Bool.and_eq_true, decide_eq_true_eq] at h
  obtain ⟨⟨hplaced, hending⟩, hlength⟩ := h
  obtain ⟨hbeforeAscii, hbeforeSlash⟩ := isAscii_of_isSimple hbefore
  obtain ⟨hendingAscii, hendingSlash⟩ := isAscii_of_isSimple hending
  have hproper : IsProper (before ++ name ++ t.ending) :=
    hname.isProper hbeforeAscii hendingAscii (by simp [hbeforeSlash, hendingSlash]) hlength
  refine isPlaced_below hplaced (by simp) (AreProper.singleton hproper) hown ?_
  rw [hpath, fill_eq hplaced]
  simp [relative, Text.intercalate]

theorem fill_directory (h : t.isDirectory = true) (name : Text) :
    t.fill name = relative t.dirs ++ "/" ++ name := by
  simp only [isDirectory, Bool.and_eq_true, List.isEmpty_iff] at h
  rw [fill_eq h.1, h.2, List.append_nil]

theorem isPlaced_inside (h : t.isDirectory = true) {name file : Text} {names : List Text}
    (hname : IsProper name) (hfile : Path.Leads file names) {f : OutputFile}
    (hown : f.ownership ≠ .sharedKeys) (hpath : f.path = t.fill name ++ "/" ++ file) :
    f.IsPlaced := by
  have hplaced := isPlaced_of_isDirectory h
  have hinside : AreProper ([name] ++ names) :=
    (AreProper.singleton hname).append hfile.proper
  refine isPlaced_below hplaced (by simp) hinside hown ?_
  rw [relative_append (by simp) hfile.ne_nil, hpath, fill_directory h, hfile.path_eq]
  simp [relative, Text.intercalate]

end Template

/-- Whether a path text is in normal form, of plain names outside the source directory. -/
def Path.isPlaced (path : Text) : Bool :=
  !(names path).isEmpty && (names path).all isPlain && path == relative (names path) &&
    decide (IsOutside (names path))

/-- Whether a path is that of a page: not the one of the shared settings. -/
def Path.isPage (path : Text) : Bool := isPlaced path && names path != settingsNames

theorem Path.leads_of_isPlaced {path : Text} (h : isPlaced path = true) :
    Leads path (names path) ∧ IsOutside (names path) := by
  simp only [isPlaced, Bool.and_eq_true, decide_eq_true_eq] at h
  exact ⟨leads_of_isPlain (by simpa using h.1), h.2⟩

theorem OutputFile.isPlaced_page {f : OutputFile} (h : isPage f.path = true)
    (hown : f.ownership ≠ .sharedKeys) : f.IsPlaced := by
  simp only [isPage, Bool.and_eq_true, bne_iff_ne] at h
  obtain ⟨hleads, hout⟩ := leads_of_isPlaced h.1
  exact ⟨_, hleads, hout, iff_of_false hown h.2⟩

def Treatment.path? {α : Type} : Treatment α → Option Template
  | .native path _ => some path
  | _ => none

/-- Whether all texts of a profile name files that are in their places. -/
def Profile.isPlaced (p : Profile) : Bool :=
  RuleScope.all.all (fun scope => (p.rules scope).path.all isDocument) &&
    p.commands.path?.all isDocument && p.agents.path?.all isDocument &&
    p.skills.path?.all isDirectory && p.instructionsPath.all isPage &&
    p.conventionsPath.all isPage && p.managedDirs.all Path.isPlaced &&
    match p.hooks with
    | .native (some path) => path == relative settingsNames
    | _ => true

theorem Profile.isPlaced_of_mem_defaults {p : Profile} (h : p ∈ Profile.defaults) :
    p.isPlaced = true := by
  have hall : Profile.defaults.all Profile.isPlaced = true := by decide +kernel
  exact all_eq_true.mp hall p h

private theorem Budget.mem_take {b : Budget} {a : Allocation} {file : RuleFile} {f : OutputFile}
    (h : f ∈ (b.take a file).files) : f ∈ a.files ∨ f = file.file := by
  unfold Budget.take at h
  dsimp only at h
  split at h
  · simpa using h
  · exact .inl h

private theorem Budget.mem_foldl_take {b : Budget} {files : List RuleFile} {a : Allocation}
    {f : OutputFile} (h : f ∈ (files.foldl b.take a).files) :
    f ∈ a.files ∨ ∃ file ∈ files, f = file.file := by
  induction files generalizing a with
  | nil => exact .inl h
  | cons file rest ih =>
    rcases ih h with hmem | ⟨other, hother, heq⟩
    · rcases Budget.mem_take hmem with hmem | heq
      · exact .inl hmem
      · exact .inr ⟨file, by simp, heq⟩
    · exact .inr ⟨other, by simp [hother], heq⟩

theorem Profile.mem_allocate {p : Profile} {files : List RuleFile} {aggregate : Option OutputFile}
    {f : OutputFile} (h : f ∈ (p.allocate files aggregate).files) :
    (∃ file ∈ files, f = file.file) ∨ aggregate = some f := by
  have hfold {b : Budget} (h : f ∈ ((Budget.byPriority files).foldl b.take {}).files) :
      ∃ file ∈ files, f = file.file := by
    rcases Budget.mem_foldl_take h with hmem | ⟨file, hmem, heq⟩
    · cases hmem
    · exact ⟨file, mem_mergeSort.mp hmem, heq⟩
  unfold Profile.allocate at h
  split at h
  · unfold Budget.allocate at h
    split at h
    · simp only [Budget.takeAggregate, mem_append, mem_singleton] at h
      rcases h with h | rfl
      · exact .inl (hfold h)
      · exact .inr rfl
    · exact .inl (hfold h)
  · simp only [allocateAll, mem_append, mem_map, Option.mem_toList] at h
    rcases h with ⟨file, hmem, rfl⟩ | h
    · exact .inl ⟨file, hmem, rfl⟩
    · exact .inr h

/-- Where a generated file comes from that is not shared with the user. -/
inductive Profile.Yields (p : Profile) (g : Guidance) : OutputFile → Prop
  | rule {r : Rule} {path : Template} (hr : r ∈ g.rules)
    (hpath : (p.rules r.scope).path = some path) (position : Nat) :
    p.Yields g (p.ruleFile r path position).file
  | page {path : Text} (content : Text)
    (hpath : p.instructionsPath = some path ∨ p.conventionsPath = some path) :
    p.Yields g { path, content }
  | command {path : Template} {fields : List (Field Command)} {c : Command}
    (hpath : p.commands = .native path fields) (hc : c ∈ g.commands) :
    p.Yields g (commandFile path fields c)
  | skill {path : Template} {fields : List (Field Skill)} {s : Skill} {f : OutputFile}
    (hpath : p.skills = .native path fields) (hs : s ∈ g.skills)
    (hf : f ∈ skillFiles path fields s) : p.Yields g f
  | agent {path : Template} {fields : List (Field Agent)} {a : Agent}
    (hpath : p.agents = .native path fields) (ha : a ∈ g.agents) :
    p.Yields g (agentFile path fields a)

namespace Profile

variable {p : Profile} {g : Guidance} {f : OutputFile}

theorem yields_of_mem_allocate
    (h : f ∈ (p.allocate (p.ruleFiles g.rules) (p.conventionsFile g)).files) : p.Yields g f := by
  rcases mem_allocate h with ⟨file, hmem, rfl⟩ | hpage
  · obtain ⟨r, hr, path, position, hpath, rfl⟩ := mem_ruleFiles hmem
    exact .rule hr hpath position
  · unfold conventionsFile at hpage
    split at hpage
    · rename_i path hpath
      dsimp only at hpage
      split at hpage
      · cases hpage
      · cases hpage
        exact .page _ (.inr hpath)
    · cases hpage

theorem yields_of_instructionsFile (h : p.instructionsFile g = some f) : p.Yields g f := by
  unfold instructionsFile at h
  dsimp only at h
  split at h
  · rename_i path hpath
    split at h
    · cases h
    · cases h
      exact .page _ (.inl hpath)
  · cases h

theorem yields_of_mem_otherFiles (h : f ∈ p.otherFiles g) : p.Yields g f := by
  simp only [otherFiles, nativeFiles, mem_append] at h
  rcases h with (h | h) | h
  · split at h
    · rename_i path fields hpath
      obtain ⟨c, hc, rfl⟩ := mem_map.mp h
      exact .command hpath hc
    · cases h
  · split at h
    · rename_i path fields hpath
      obtain ⟨s, hs, hf⟩ := mem_flatMap.mp h
      exact .skill hpath hs hf
    · cases h
  · split at h
    · rename_i path fields hpath
      obtain ⟨a, ha, rfl⟩ := mem_map.mp h
      exact .agent hpath ha
    · cases h

theorem exists_generate_files (p : Profile) (g : Guidance) :
    ∃ before after, (p.generate g).files = before ++ p.hookFiles g.hooks ++ after ∧
      ∀ f ∈ before ++ after, p.Yields g f := by
  refine ⟨(p.allocate (p.ruleFiles g.rules) (p.conventionsFile g)).files ++
      (p.instructionsFile g).toList, p.otherFiles g,
    by simp only [generate, featureFiles_eq, append_assoc], ?_⟩
  intro f hf
  simp only [mem_append, Option.mem_toList] at hf
  rcases hf with (hf | hf) | hf
  · exact yields_of_mem_allocate hf
  · exact yields_of_instructionsFile hf
  · exact yields_of_mem_otherFiles hf

theorem mem_generate (h : f ∈ (p.generate g).files) : f ∈ p.hookFiles g.hooks ∨ p.Yields g f := by
  obtain ⟨before, after, hfiles, hyields⟩ := exists_generate_files p g
  rw [hfiles, append_assoc, mem_append, mem_append] at h
  rcases h with h | h | h
  · exact .inr (hyields f (mem_append_left _ h))
  · exact .inl h
  · exact .inr (hyields f (mem_append_right _ h))

theorem Yields.ownership_ne (h : p.Yields g f) : f.ownership ≠ .sharedKeys := by
  cases h with
  | rule => simp [ruleFile]
  | page => simp
  | command =>
    unfold commandFile
    dsimp only
    split <;> simp
  | skill _ _ hf =>
    rcases mem_cons.mp hf with rfl | hf
    · simp
    · obtain ⟨_, -, rfl⟩ := mem_map.mp hf
      simp
  | agent => simp [agentFile]

theorem path_commandFile (path : Template) (fields : List (Field Command)) (c : Command) :
    (commandFile path fields c).path = path.fill c.name := by
  unfold commandFile
  dsimp only
  split <;> rfl

theorem skillFiles_isPlaced {path : Template} (hpath : path.isDirectory = true)
    (fields : List (Field Skill)) {s : Skill} (hs : IsProper s.name)
    (hfiles : ∀ file ∈ s.files, ∃ names, Path.Leads file.1 names) :
    ∀ f ∈ skillFiles path fields s, f.IsPlaced := by
  intro f hf
  simp only [skillFiles, mem_cons, mem_map] at hf
  rcases hf with rfl | ⟨⟨file, content⟩, hmem, rfl⟩
  · have hmain : Path.Leads "SKILL.md" ["SKILL.md"] := leads_of_isPlain (by decide)
    exact isPlaced_inside hpath hs hmain (by simp) (by simp [ofString, ofChars])
  · obtain ⟨names, hnames⟩ := hfiles _ (mem_mergeSort.mp hmem)
    exact isPlaced_inside hpath hs hnames (by simp) rfl

theorem Yields.isPlaced (hp : p.isPlaced = true) (hg : g.IsNamed) (h : p.Yields g f) :
    f.IsPlaced := by
  have hown := h.ownership_ne
  simp only [Profile.isPlaced, Bool.and_eq_true, all_eq_true] at hp
  obtain ⟨⟨⟨⟨⟨⟨⟨hrules, hcommands⟩, hagents⟩, hskills⟩, hinstructions⟩, hconventions⟩, -⟩, -⟩ := hp
  cases h with
  | @rule r path hr hpath position =>
    have hdocument := hrules r.scope (by cases r.scope <;> decide)
    rw [hpath] at hdocument
    obtain ⟨before, hname, hsimple⟩ := p.naming.exists_fileName r.name position
    exact isPlaced_document hdocument before hsimple (hg.rules r hr) hown (congrArg path.fill hname)
  | page content hpath =>
    refine OutputFile.isPlaced_page ?_ hown
    rcases hpath with hpath | hpath
    · rwa [hpath] at hinstructions
    · rwa [hpath] at hconventions
  | command hpath hc =>
    rw [hpath] at hcommands
    exact isPlaced_document hcommands [] rfl (hg.commands _ hc) hown (path_commandFile _ _ _)
  | skill hpath hs hf =>
    rw [hpath] at hskills
    exact skillFiles_isPlaced hskills _ (hg.skills _ hs) (hg.files _ hs) f hf
  | agent hpath ha =>
    rw [hpath] at hagents
    exact isPlaced_document hagents [] rfl (hg.agents _ ha) hown rfl

theorem hookFiles_isPlaced (hp : p.isPlaced = true) (hooks : List Hook) :
    ∀ f ∈ p.hookFiles hooks, f.IsPlaced := by
  simp only [isPlaced, Bool.and_eq_true] at hp
  have hhooks := hp.2
  intro f hf
  unfold hookFiles at hf
  split at hf
  · rename_i path hnative
    rw [hnative] at hhooks
    split at hf
    · cases hf
    rw [mem_singleton.mp hf]
    have hleads : Path.Leads path settingsNames :=
      leads_of_isPlain (by simpa using ⟨by decide, beq_iff_eq.mp hhooks⟩)
    exact ⟨settingsNames, hleads, by decide, by simp⟩
  · cases hf

theorem generate_isPlaced (hp : p.isPlaced = true) (hg : g.IsNamed) :
    ∀ f ∈ (p.generate g).files, f.IsPlaced := by
  intro f hf
  rcases mem_generate hf with hhook | hyields
  · exact hookFiles_isPlaced hp g.hooks f hhook
  · exact hyields.isPlaced hp hg

end Profile

theorem Registry.mem_resolve {names : List Text} {platforms : List Platform}
    (h : Registry.default.resolve names = .ok platforms) :
    ∀ platform ∈ platforms, ∃ p ∈ Profile.defaults, platform = p.toPlatform := by
  intro platform hmem
  obtain ⟨name, -, hget⟩ := (Outcome.mem_of_mapM_eq_ok h).mp hmem
  unfold Registry.get at hget
  split at hget
  · rename_i found hfound
    cases hget
    obtain ⟨p, hp, rfl⟩ := mem_map.mp (mem_of_find?_eq_some hfound)
    exact ⟨p, hp, rfl⟩
  · cases hget

/-- Some of the supported platforms, each once, and the sources of a project. -/
structure Targets where
  source : Source
  platforms : List Platform
  loaded : ∃ t root, FileTree.WellFormed t ∧ Source.load t root = .ok source
  resolved : ∃ names, names.Nodup ∧ Registry.default.resolve names = .ok platforms

namespace Targets

def single (profile : Profile)
    (hresolve : Registry.default.resolve [profile.name] = .ok [profile.toPlatform]) {s : Source}
    (loaded : ∃ t root, FileTree.WellFormed t ∧ Source.load t root = .ok s) : Targets :=
  ⟨s, [profile.toPlatform], loaded, [profile.name], by simp, hresolve⟩

variable (targets : Targets)

def reports : List TargetReport := targets.platforms.map (Project.generate targets.source.guidance)

def managed : ManagedDirs :=
  targets.platforms.map fun platform => (platform.name, platform.managedDirs)

theorem exists_profile {platform : Platform} (h : platform ∈ targets.platforms) :
    ∃ p : Profile, p.isPlaced = true ∧ platform = p.toPlatform := by
  obtain ⟨names, -, hresolve⟩ := targets.resolved
  obtain ⟨p, hp, heq⟩ := Registry.mem_resolve hresolve platform h
  exact ⟨p, isPlaced_of_mem_defaults hp, heq⟩

theorem files_isPlaced {report : TargetReport} (h : report ∈ targets.reports) {result : Generated}
    (hresult : report.result = some result) : ∀ f ∈ result.files, f.IsPlaced := by
  obtain ⟨platform, hplatform, rfl⟩ := mem_map.mp h
  obtain ⟨p, hp, rfl⟩ := targets.exists_profile hplatform
  obtain ⟨t, root, ht, hload⟩ := targets.loaded
  cases hresult
  exact generate_isPlaced hp (Source.load_isNamed ht hload)

theorem spares_managed (root : List Text) : targets.managed.Spares root := by
  apply ManagedDirs.spares_of_forall
  intro e he directory hdirectory
  obtain ⟨platform, hplatform, rfl⟩ := mem_map.mp he
  obtain ⟨p, hp, rfl⟩ := targets.exists_profile hplatform
  simp only [Profile.isPlaced, Bool.and_eq_true, all_eq_true] at hp
  obtain ⟨hleads, hout⟩ := leads_of_isPlaced (hp.1.2 directory hdirectory)
  rw [hleads.join_eq, prefix_append_right_inj, prefix_append_right_inj]
  refine ⟨hleads.proper, ?_, ?_⟩
  · intro hprefix
    obtain ⟨first, more, hnames⟩ := exists_cons_of_ne_nil hleads.ne_nil
    rw [hnames, cons_prefix_cons] at hprefix
    exact hout (by rw [hnames, hprefix.1]; rfl)
  · rintro ⟨rest, hrest⟩
    exact hout (by rw [← hrest]; rfl)

theorem setting {w : Workplace} (hw : w.IsProper) : w.Setting targets.reports targets.managed := by
  refine ⟨hw, ?_, targets.spares_managed w.root⟩
  intro report hreport result hresult f hf
  obtain ⟨names, hleads, hout, -⟩ := targets.files_isPlaced hreport hresult f hf
  exact ⟨names, hleads, hout⟩

end Targets

end AgentConfig
