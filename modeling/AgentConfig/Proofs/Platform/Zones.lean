import AgentConfig.Proofs.Output.Independence
import AgentConfig.Proofs.Platform.Paths

namespace AgentConfig

open List Profile Template AgentConfig.Path

namespace Profile

def templates (p : Profile) : List Template :=
  RuleScope.all.filterMap (fun scope => (p.rules scope).path) ++ p.commands.path?.toList ++
    p.skills.path?.toList ++ p.agents.path?.toList

def settings? (p : Profile) : Option Text :=
  match p.hooks with
  | .native settings => settings
  | _ => none

def zone (p : Profile) : List Text :=
  (p.templates.map (fun t => top (relative t.dirs)) ++ p.managedDirs.map top ++
    p.settings?.toList.map top).eraseDups

def pages (p : Profile) : List Text := p.instructionsPath.toList ++ p.conventionsPath.toList

/-- Whether the zone of a profile is closed to another one, whose pages are the same or lie
elsewhere. -/
def isClosedTo (p q : Profile) : Bool :=
  p.zone.all (fun top => !q.zone.contains top && !(q.pages.map Path.top).contains top) &&
    p.pages.all fun page => q.pages.all fun other =>
      page == other || Path.top page != Path.top other

theorem isClosedTo_of_mem_defaults {p q : Profile} (hp : p ∈ defaults) (hq : q ∈ defaults)
    (hne : p.name ≠ q.name) : p.isClosedTo q = true := by
  have hall : (defaults.all fun p => defaults.all fun q =>
      p.name == q.name || p.isClosedTo q) = true := by decide +kernel
  have hpair := all_eq_true.mp (all_eq_true.mp hall p hp) q hq
  rw [Bool.or_eq_true, beq_iff_eq] at hpair
  exact hpair.resolve_left hne

example : claude.isClosedTo cursor = true := by decide +kernel

variable {p : Profile} {g : Guidance} {f : OutputFile}

/-- A file that is not shared with the user lies below a template or is a page. -/
theorem Yields.below_template (hp : p.isPlaced = true) (h : p.Yields g f) :
    (∃ t ∈ p.templates, ∃ rest, f.path = relative t.dirs ++ "/" ++ rest) ∨ f.path ∈ p.pages := by
  simp only [Profile.isPlaced, Bool.and_eq_true, all_eq_true] at hp
  obtain ⟨⟨⟨⟨⟨⟨⟨hrules, hcommands⟩, hagents⟩, hskills⟩, -⟩, -⟩, -⟩, -⟩ := hp
  cases h with
  | @rule r path hr hpath position =>
    have hscope : r.scope ∈ RuleScope.all := by cases r.scope <;> decide
    have hplaced := hrules r.scope hscope
    rw [hpath] at hplaced
    have hmem : path ∈ p.templates := by
      simp only [templates, mem_append, mem_filterMap]
      exact .inl (.inl (.inl ⟨r.scope, hscope, hpath⟩))
    exact .inl ⟨path, hmem, _, fill_eq (isPlaced_of_isDocument hplaced) _⟩
  | page content hpath =>
    refine .inr ?_
    simp only [pages, mem_append, Option.mem_toList]
    exact hpath
  | @command path fields c hpath _ =>
    rw [hpath] at hcommands
    have hmem : path ∈ p.templates := by simp [templates, hpath, Treatment.path?]
    rw [path_commandFile]
    exact .inl ⟨path, hmem, _, fill_eq (isPlaced_of_isDocument hcommands) _⟩
  | @skill path fields s _ hpath _ hf =>
    rw [hpath] at hskills
    have hmem : path ∈ p.templates := by simp [templates, hpath, Treatment.path?]
    have hfill := fill_eq (isPlaced_of_isDirectory hskills) s.name
    rcases mem_cons.mp hf with rfl | hf
    · exact .inl ⟨path, hmem, _, by rw [hfill, append_assoc]⟩
    obtain ⟨⟨file, content⟩, -, rfl⟩ := mem_map.mp hf
    dsimp only
    rw [hfill, append_assoc, append_assoc _ _ (("/" : Text) ++ file)]
    exact .inl ⟨path, hmem, _, rfl⟩
  | @agent path fields a hpath _ =>
    rw [hpath] at hagents
    have hmem : path ∈ p.templates := by simp [templates, hpath, Treatment.path?]
    exact .inl ⟨path, hmem, _, fill_eq (isPlaced_of_isDocument hagents) _⟩

theorem Yields.top_mem_zone (hp : p.isPlaced = true) (h : p.Yields g f) :
    top f.path ∈ p.zone ∨ f.path ∈ p.pages := by
  refine (h.below_template hp).imp_left ?_
  rintro ⟨t, ht, rest, hpath⟩
  rw [hpath, Path.top_append, zone, mem_eraseDups, append_assoc, mem_append]
  exact .inl (mem_map_of_mem ht)

theorem settings?_of_hookFiles {hooks : List Hook} (hf : f ∈ p.hookFiles hooks) :
    p.settings? = some f.path := by
  unfold hookFiles at hf
  split at hf
  · rename_i path hhooks
    split at hf
    · cases hf
    · rw [mem_singleton.mp hf, settings?, hhooks]
  · cases hf

theorem top_mem_zone_of_hookFiles {hooks : List Hook} (hf : f ∈ p.hookFiles hooks) :
    top f.path ∈ p.zone := by
  simp [zone, settings?_of_hookFiles hf]

theorem top_mem_zone_of_generate (hp : p.isPlaced = true) (hf : f ∈ (p.generate g).files) :
    top f.path ∈ p.zone ∨ (f.path ∈ p.pages ∧ f.ownership ≠ .sharedKeys) := by
  rcases mem_generate hf with hhook | hyields
  · exact .inl (top_mem_zone_of_hookFiles hhook)
  · exact (hyields.top_mem_zone hp).imp_right fun hpage => ⟨hpage, hyields.ownership_ne⟩

theorem top_mem_zone_of_managed {directory : Text} (h : directory ∈ p.managedDirs) :
    top directory ∈ p.zone := by
  simp only [zone, mem_eraseDups, mem_append, mem_map]
  exact .inl (.inr ⟨directory, h, rfl⟩)

section Pair

variable {q : Profile} (hpq : p.isClosedTo q = true)
include hpq

theorem not_mem_zone_of_mem_zone {top : Text} (h : top ∈ p.zone) : top ∉ q.zone := by
  simp only [isClosedTo, Bool.and_eq_true, all_eq_true] at hpq
  simpa using (hpq.1 top h).1

theorem not_mem_pages_of_mem_zone {top page : Text} (h : top ∈ p.zone) (hpage : page ∈ q.pages) :
    top ≠ Path.top page := by
  simp only [isClosedTo, Bool.and_eq_true, all_eq_true] at hpq
  rintro rfl
  have hnot := (hpq.1 _ h).2
  simp only [Bool.not_eq_true', contains_eq_mem, decide_eq_false_iff_not] at hnot
  exact hnot (mem_map_of_mem hpage)

theorem page_eq_or_top_ne {page other : Text} (hpage : page ∈ p.pages) (hother : other ∈ q.pages) :
    page = other ∨ top page ≠ top other := by
  simp only [isClosedTo, Bool.and_eq_true, all_eq_true] at hpq
  simpa using hpq.2 page hpage other hother

end Pair

end Profile

theorem Registry.map_name_of_resolve {names : List Text} {platforms : List Platform}
    (h : Registry.default.resolve names = .ok platforms) : platforms.map (·.name) = names := by
  have hnames : Forall₂ (fun name platform => platform.name = name) names platforms := by
    refine (Outcome.mapM_eq_ok.mp h).imp ?_
    intro name platform hget
    unfold Registry.get at hget
    split at hget
    · rename_i found hfound
      cases hget
      simpa using find?_some hfound
    · cases hget
  rw [← forall₂_eq_eq_eq, forall₂_map_left_iff]
  exact hnames.flip

namespace Targets

variable (targets : Targets)

theorem pairwise_name_ne : targets.platforms.Pairwise fun a b => a.name ≠ b.name := by
  obtain ⟨names, hnodup, hresolve⟩ := targets.resolved
  rw [← Registry.map_name_of_resolve hresolve, Nodup, pairwise_map] at hnodup
  exact hnodup

theorem exists_default {platform : Platform} (h : platform ∈ targets.platforms) :
    ∃ p ∈ Profile.defaults, platform = p.toPlatform := by
  obtain ⟨names, -, hresolve⟩ := targets.resolved
  exact Registry.mem_resolve hresolve platform h

theorem exists_managed {name directory : Text} (h : directory ∈ targets.managed.of name) :
    ∃ p ∈ Profile.defaults, p.name = name ∧ directory ∈ p.managedDirs := by
  unfold ManagedDirs.of at h
  cases hlookup : targets.managed.lookup name with
  | none => simp [hlookup] at h
  | some dirs =>
    rw [hlookup] at h
    obtain ⟨before, after, hmanaged, -⟩ := lookup_eq_some_iff.mp hlookup
    have hmem : (name, dirs) ∈ targets.managed := by simp [hmanaged]
    obtain ⟨platform, hplatform, heq⟩ := mem_map.mp hmem
    obtain ⟨p, hp, rfl⟩ := targets.exists_default hplatform
    cases heq
    exact ⟨p, hp, rfl, h⟩

theorem managed_stayOutside : targets.managed.StayOutside := by
  intro name directory hmem
  obtain ⟨p, hp, -, hdirectory⟩ := targets.exists_managed hmem
  have hplaced := isPlaced_of_mem_defaults hp
  simp only [Profile.isPlaced, Bool.and_eq_true, all_eq_true] at hplaced
  exact ⟨_, Path.leads_of_isPlaced (hplaced.1.2 directory hdirectory)⟩

/-- What is done for one of the targets does not show to the planning of another, since the first
names that a target keeps for itself are closed to the others. -/
theorem pairwise_spares : targets.reports.Pairwise (TargetReport.Spares targets.managed) := by
  refine pairwise_map.mpr (targets.pairwise_name_ne.imp_of_mem ?_)
  intro a b ha hb hne
  obtain ⟨p, hp, rfl⟩ := targets.exists_default ha
  obtain ⟨q, hq, rfl⟩ := targets.exists_default hb
  have hpPlaced := isPlaced_of_mem_defaults hp
  have hqPlaced := isPlaced_of_mem_defaults hq
  have hpq := isClosedTo_of_mem_defaults hp hq hne
  have hqp := isClosedTo_of_mem_defaults hq hp (Ne.symm hne)
  constructor
  · intro f hf g hg
    rcases top_mem_zone_of_generate hpPlaced hf with hf | ⟨hf, -⟩
    · refine .inr fun htop => ?_
      rcases top_mem_zone_of_generate hqPlaced hg with hg | ⟨hg, -⟩
      · exact not_mem_zone_of_mem_zone hpq hf (htop ▸ hg)
      · exact not_mem_pages_of_mem_zone hpq hf hg htop
    · rcases top_mem_zone_of_generate hqPlaced hg with hg | ⟨hg, hown⟩
      · exact .inr (not_mem_pages_of_mem_zone hqp hg hf).symm
      · exact (page_eq_or_top_ne hpq hf hg).imp_left fun heq => ⟨heq, hown⟩
  · intro directory hdirectory g hg
    obtain ⟨p', hp', hname, hdirectory⟩ := targets.exists_managed hdirectory
    have hzone := top_mem_zone_of_managed hdirectory
    have hclosed := isClosedTo_of_mem_defaults hp' hq (hname ▸ hne)
    rcases top_mem_zone_of_generate hqPlaced hg with hg | ⟨hg, -⟩
    · exact fun htop => not_mem_zone_of_mem_zone hclosed hzone (htop ▸ hg)
    · exact not_mem_pages_of_mem_zone hclosed hzone hg
  · intro f hf directory hdirectory
    obtain ⟨q', hq', hname, hdirectory⟩ := targets.exists_managed hdirectory
    have hzone := top_mem_zone_of_managed hdirectory
    have hclosed := isClosedTo_of_mem_defaults hq' hp (hname ▸ Ne.symm hne)
    rcases top_mem_zone_of_generate hpPlaced hf with hf | ⟨hf, -⟩
    · exact fun htop => not_mem_zone_of_mem_zone hclosed hzone (htop ▸ hf)
    · exact (not_mem_pages_of_mem_zone hclosed hzone hf).symm
  · intro directory hdirectory other hother
    obtain ⟨p', hp', hname, hdirectory⟩ := targets.exists_managed hdirectory
    obtain ⟨q', hq', hname', hother⟩ := targets.exists_managed hother
    have hclosed := isClosedTo_of_mem_defaults hp' hq' (by rw [hname, hname']; exact hne)
    intro htop
    exact not_mem_zone_of_mem_zone hclosed (top_mem_zone_of_managed hdirectory)
      (htop ▸ top_mem_zone_of_managed hother)

end Targets

end AgentConfig
