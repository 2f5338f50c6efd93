import AgentConfig.Proofs.Hook.Settings
import AgentConfig.Proofs.Output.Returns
import AgentConfig.Proofs.Platform.Paths

namespace AgentConfig

open List Outcome FileTree Json Profile AgentConfig.Path

variable {base doc overlay : Members} {f : OutputFile} {key : Text}

/-- The manifest lists a key that was generated in the document at a path. -/
def Manifest.ListsKey (m : Manifest) (path key : Text) : Prop :=
  ∃ e keys, m.get? path = some e ∧ e.ownedKeys = some keys ∧ .str key ∈ keys

namespace PlanContext

theorem mem_keyTexts {keys : List Json} {texts : List Text} (h : keyTexts keys = some texts)
    (hkey : .str key ∈ keys) : key ∈ texts := by
  unfold keyTexts at h
  induction keys generalizing texts with
  | nil => cases hkey
  | cons v keys ih =>
    simp only [mapM_cons, Option.bind_eq_bind, Option.bind_eq_some_iff, Option.pure_def,
      Option.some.injEq] at h
    obtain ⟨text, htext, rest, hrest, rfl⟩ := h
    rcases mem_cons.mp hkey with rfl | hkey
    · rw [← Option.some.inj htext]
      exact mem_cons_self
    · exact mem_cons_of_mem _ (ih hrest hkey)

theorem PlansSettings.hasPath_overlay {c : PlanContext} {a : Action} {stored : StoredJson}
    (h : c.PlansSettings f a overlay base stored) (hcontent : f.content.IsChars)
    (hkey : c.manifest.ListsKey f.path key)
    (hpath : HasPath (pathKeys key) (Json.merge base overlay)) :
    HasPath (pathKeys key) overlay := by
  obtain ⟨e, keys, hget, hkeys, hmem⟩ := hkey
  have howned : (c.manifest.get? f.path).bind (·.ownedKeys) = some keys := by
    rw [hget, Option.bind_some, hkeys]
  refine (hpath.of_merge (areReadable_overlayOf hcontent h.overlay_eq)).resolve_left fun hbase => ?_
  rcases withoutOwned_inv h.base_eq with ⟨hnone, -⟩ | ⟨keys', texts, hkeys', htexts, rfl⟩
  · cases howned.symm.trans hnone
  · cases howned.symm.trans hkeys'
    exact not_hasPath_removePaths (mem_keyTexts htexts hmem) _ hbase

end PlanContext

def Profile.settingsPath : Text := relative settingsNames

theorem Profile.leads_settingsPath : Path.Leads settingsPath settingsNames :=
  Path.leads_relative (by decide) areProper_settingsNames

example : settingsPath = ".claude/settings.json" := by decide +kernel

theorem OutputFile.IsPlaced.path_ne (h : f.IsPlaced)
    (hown : f.ownership ≠ .sharedKeys) : f.path ≠ settingsPath := by
  obtain ⟨names, hleads, -, hshared⟩ := h
  intro heq
  refine hown (hshared.mpr ?_)
  rw [← hleads.names_eq, heq, leads_settingsPath.names_eq]

/-- The platform whose settings are shared with the user, and the sources of a project. -/
def Targets.claude {s : Source}
    (hs : ∃ t root, WellFormed t ∧ Source.load t root = .ok s) : Targets :=
  .single Profile.claude rfl hs

theorem Targets.claude_isPlaced {s : Source}
    (hs : ∃ t root, WellFormed t ∧ Source.load t root = .ok s) :
    ∀ f ∈ (Profile.claude.generate s.guidance).files, f.IsPlaced :=
  (claude hs).files_isPlaced mem_cons_self rfl

namespace Workplace

variable {w : Workplace} {t : FileTree} {previous : Option Manifest} {p : Progress} {s : Source}
  (hs : ∃ t root, FileTree.WellFormed t ∧ Source.load t root = .ok s) {m : Manifest}

section Run

variable (hw : w.IsProper) (ht : t.WellFormed) (hnoFile : t.bytesAt w.root = none)
  (hrun : w.run previous t (Targets.claude hs).reports (Targets.claude hs).managed = .ok p)
include hw ht hnoFile hrun

/-- After a build with hooks the settings hold the events of the hooks, and no recorded key that is
not generated. -/
theorem run_claude_with_hooks (hok : ∀ r ∈ p.done, r.ok = true) (hhooks : s.guidance.hooks ≠ []) :
    ∃ bytes doc, p.tree.bytesAt (w.root ++ settingsNames) = some bytes ∧ IsStored bytes (.obj doc) ∧
      (∀ event ∈ Hook.events s.guidance.hooks, HasPath [hooksKey, event] doc) ∧
      ∀ key, (previous.getD {}).ListsKey settingsPath key → HasPath (pathKeys key) doc →
        HasPath (pathKeys key) (Hook.settings s.guidance.hooks) := by
  let f := Hook.settingsFile settingsPath s.guidance.hooks
  obtain ⟨before, after, hfiles, hothers⟩ := exists_generate_files Profile.claude s.guidance
  have hhookFiles : Profile.claude.hookFiles s.guidance.hooks = [f] :=
    if_neg (by simpa using hhooks)
  rw [hhookFiles, append_assoc, singleton_append] at hfiles
  have halone : ∀ g ∈ before ++ after, g.path ≠ f.path := by
    intro g hg
    refine (Targets.claude_isPlaced hs g ?_).path_ne (hothers g hg).ownership_ne
    rw [hfiles]
    rcases mem_append.mp hg with hg | hg
    · exact mem_append_left _ hg
    · exact mem_append_right _ (mem_cons_of_mem _ hg)
  have hchars : f.content.IsChars := (Hook.isPlain_settings s.guidance.hooks).isChars_write
  obtain ⟨a, overlay, base, stored, bytes, hplans, -, hbytes, hstored⟩ :=
    run_settings ((Targets.claude hs).setting hw) ht hnoFile hrun hok rfl hfiles halone rfl hchars
      leads_settingsPath (by decide)
  have hoverlay : overlay = joinedMembers (Hook.settings s.guidance.hooks) :=
    Except.ok.inj (hplans.overlay_eq.symm.trans (Hook.overlayOf_settings s.guidance.hooks))
  refine ⟨bytes, _, hbytes, hstored.isStored, fun event hevent => ?_, fun key hkey hpath => ?_⟩
  · rw [hoverlay]
    exact (Hook.isGenerated_settings hhooks).hasPath_merge base hevent
  · exact Hook.hasPath_of_joined hhooks (hoverlay ▸ hplans.hasPath_overlay hchars hkey hpath)

theorem run_claude_without_hooks (hhooks : s.guidance.hooks = []) :
    p.tree.bytesAt (w.root ++ settingsNames) = t.bytesAt (w.root ++ settingsNames) := by
  have hsetting := (Targets.claude hs).setting hw
  rw [run_content hsetting ht hnoFile hrun leads_settingsPath (by decide)]
  refine Action.content_of_forall_ne (fun a ha => ?_) _
  obtain ⟨report, q, plan, hplanned, ha⟩ := run_completed hrun a ha
  have hholds := hplanned.holds hsetting ht hnoFile
  obtain ⟨result, -, -, hresult, -, -, -, hall⟩ :=
    hsetting.plan_inv hplanned hholds.wellFormed hholds.root
  obtain ⟨names, -, hplans⟩ := hall a ha
  obtain rfl := mem_singleton.mp hplanned.mem
  cases hresult
  cases hplans with
  | @write f hf _ hplan =>
    rw [hplan.path_eq]
    change f ∈ (Profile.claude.generate s.guidance).files at hf
    refine (Targets.claude_isPlaced hs f hf).path_ne ?_
    obtain ⟨before, after, hfiles, hothers⟩ :=
      exists_generate_files Profile.claude s.guidance
    refine (hothers f ?_).ownership_ne
    rwa [hfiles, hhooks, show Profile.claude.hookFiles [] = [] from rfl, append_nil] at hf
  | removal hplan =>
    -- The settings lie beside the directories that the platform manages.
    obtain ⟨directory, hdirectory, rest, -, hlies⟩ := hplan.liesIn
    intro heq
    obtain rfl : names = settingsNames := by
      rw [← hplan.leads.names_eq, heq, leads_settingsPath.names_eq]
    have hbeside : ∀ directory ∈ Profile.claude.managedDirs,
        Path.isAbsolute directory = false ∧ ¬ Path.names directory <+: settingsNames := by
      decide +kernel
    obtain ⟨hrelative, hbeside⟩ := hbeside directory hdirectory
    rw [join, hrelative, if_neg Bool.false_ne_true, append_assoc] at hlies
    exact hbeside ⟨rest, (append_cancel_left hlies).symm⟩

end Run

/-- A key that the last build recorded and this one does not generate is gone after a build with
hooks; a build without hooks leaves the whole document as it was. -/
theorem recorded_keys_survive_only_without_hooks {root : List Text} {stamp stamp' : Text}
    (hroot : Path.AreProper root) (hstamp : Path.IsProper stamp) (hstamp' : Path.IsProper stamp')
    {s s' : Source} (hs : ∃ t root, FileTree.WellFormed t ∧ Source.load t root = .ok s)
    (hs' : ∃ t root, FileTree.WellFormed t ∧ Source.load t root = .ok s')
    {t t' u u' : FileTree} (ht : t.WellFormed) (hnoFile : t.bytesAt root = none)
    {build build' : BuildReport}
    (hfirst : write ⟨root, stamp⟩ t (Targets.claude hs).reports (Targets.claude hs).managed =
      .ok (build, t'))
    (hu : u.WellFormed)
    (hsame : u.bytesAt (root ++ Manifest.names) = t'.bytesAt (root ++ Manifest.names))
    (hsecond : write ⟨root, stamp'⟩ u (Targets.claude hs').reports (Targets.claude hs').managed =
      .ok (build', u'))
    (hok : build'.ok = true) :
    ∃ m, Manifest.load t' root = .ok (some m) ∧
      (s'.guidance.hooks ≠ [] →
        ∃ bytes doc, u'.bytesAt (root ++ Profile.settingsNames) = some bytes ∧
          Json.IsStored bytes (.obj doc) ∧
          ∀ key, m.ListsKey Profile.settingsPath key → Json.HasPath (Json.pathKeys key) doc →
            Json.HasPath (Json.pathKeys key) (Hook.settings s'.guidance.hooks)) ∧
      (s'.guidance.hooks = [] →
        u'.bytesAt (root ++ Profile.settingsNames) =
          u.bytesAt (root ++ Profile.settingsNames)) := by
  have hw : IsProper ⟨root, stamp⟩ := ⟨hroot, hstamp⟩
  have hw' : IsProper ⟨root, stamp'⟩ := ⟨hroot, hstamp'⟩
  have hsetting := (Targets.claude hs).setting hw
  have hsetting' := (Targets.claude hs').setting hw'
  obtain ⟨previous, p, manifest, hload, hrun, hmanifest, hsave, -⟩ := write_ok hfirst
  have hloaded := hsetting.load_of_save ht hnoFile hload hrun hmanifest hsave
  have ht' := (hsetting.changesAt_of_save ht hnoFile hrun hsave).wellFormed
  refine ⟨manifest.joined, hloaded, ?_⟩
  have hloaded' := Manifest.load_of_bytesAt_eq ht' hroot hu hsame hloaded
  have hnoFile' : u.bytesAt root = none := by
    obtain ⟨bytes, hbytes⟩ := Manifest.exists_of_load hu hroot hloaded'
    exact FileTree.bytesAt_of_dir
      (hu.get?_above (by decide) (FileTree.bytesAt_eq_some_iff.mp hbytes))
  obtain ⟨previous', p', manifest', hload', hrun', -, hsave', hdone⟩ := write_ok hsecond
  cases hloaded'.symm.trans hload'
  have hsettings : u'.bytesAt (root ++ Profile.settingsNames) =
      p'.tree.bytesAt (root ++ Profile.settingsNames) :=
    (hsetting'.changesAt_of_save hu hnoFile' hrun' hsave').elsewhere
      (IsOutside.ne_manifest (by decide) root)
  rw [hsettings]
  have hdone' : ∀ r ∈ p'.done, r.ok = true := by
    rw [BuildReport.ok, hdone, List.all_eq_true] at hok
    exact hok
  refine ⟨fun hhooks => ?_, run_claude_without_hooks hs' hw' hu hnoFile' hrun'⟩
  obtain ⟨bytes, doc, hbytes, hstored, -, hkeys⟩ :=
    run_claude_with_hooks hs' hw' hu hnoFile' hrun' hdone' hhooks
  exact ⟨bytes, doc, hbytes, hstored, hkeys⟩

section Nothing

variable {report : TargetReport} {result : Generated} {managed : ManagedDirs}

/-- A target with no files, whose directories are not there, leaves a project alone. -/
theorem run_of_nothing (hresult : report.result = some result) (hfiles : result.files = [])
    (hreport : report.error = none)
    (hdirs : ∀ directory ∈ managed.of report.target,
      t.isDir? (join w.root directory) = .ok false) :
    ∃ done, w.run previous t [report] managed = .ok { tree := t, done } ∧
      done.all (·.ok) = true := by
  have hplan : (PlanContext.mk w.root t (previous.getD {}) []).plan report.target result.files
      (managed.of report.target) = .ok {} := by
    have hstale : (managed.of report.target).mapM
        ((PlanContext.mk w.root t (previous.getD {}) []).planStaleIn report.target []) =
        .ok ((managed.of report.target).map fun _ => []) := by
      refine mapM_eq_ok.mpr (forall₂_map_right_iff.mpr (forall₂_same.mpr ?_))
      intro directory hdirectory
      simp only [PlanContext.planStaleIn, PlanContext.location, hdirs directory hdirectory]
      rfl
    rw [hfiles, PlanContext.plan]
    simp only [mapM_nil, map_nil, hstale]
    simp [bind, Except.bind, pure, Except.pure]
  unfold run
  simp only [foldlM_cons, foldlM_nil, Progress.writeTarget, hresult, hplan, execute]
  exact ⟨_, rfl, by simp [TargetReport.ok, hreport, Execution.failed]⟩

end Nothing

/-- A project with a configuration, and with a directory for settings. -/
def configuredTree (config : Text) : FileTree :=
  ⟨[(["p", ".agentrc", "config.yaml"], .ofText config),
    (["p", ".claude"], .dir), (["p", ".agentrc"], .dir), (["p"], .dir)]⟩

@[inherit_doc configuredTree]
def configuredPlace : Workplace := ⟨["p"], "S"⟩

/-- A configuration with a hook, and one without. -/
def hookConfig : Text :=
  "version: \"1\"\nhooks:\n- event: pre-commit\n  run: x\n  description: d\n"

@[inherit_doc hookConfig]
def plainConfig : Text := "version: \"1\"\n"

def hookKey : Text := "hooks.Notification"

/-- Whether the sources have the hook, and a run for them succeeds, with the key of the hook in the
manifest and nothing in the managed directories. -/
def isHookRun (s : Source) : Bool :=
  let root := configuredPlace.root
  (Hook.events s.guidance.hooks).contains "Notification" && checks
    (fun p => p.done.all (·.ok) && (p.tree.get? (root ++ [Source.directory]) == some .dir &&
      p.tree.get? (root ++ Manifest.names) == none) &&
      (Profile.claude.managedDirs.all fun directory =>
        p.tree.get? (join root directory) == none &&
        p.tree.get? (join root directory).dropLast == some .dir) &&
      checks (fun m => m.files.map (fun e => (e.path, e.ownedKeys.map (·.map Json.text?))) ==
        [(settingsPath, some [some hookKey])]) (p.manifest root none))
    (configuredPlace.run none (configuredTree hookConfig)
      [Project.generate s.guidance Profile.claude.toPlatform]
      [(Profile.claude.name, Profile.claude.managedDirs)])

private theorem exists_hookRun :
    ∃ s, Source.load (configuredTree hookConfig) configuredPlace.root = .ok s ∧
      isHookRun s = true :=
  exists_of_checks (by decide +kernel)

private theorem exists_plain :
    ∃ s, Source.load (configuredTree plainConfig) configuredPlace.root = .ok s ∧
      s.guidance.hooks = [] ∧ (Profile.claude.generate s.guidance).files = [] := by
  have h : checks (fun s => s.guidance.hooks.isEmpty &&
      (Profile.claude.generate s.guidance).files.isEmpty)
      (Source.load (configuredTree plainConfig) configuredPlace.root) = true := by decide +kernel
  obtain ⟨s, hload, h⟩ := exists_of_checks h
  obtain ⟨hhooks, hfiles⟩ := Bool.and_eq_true_iff.mp h
  exact ⟨s, hload, isEmpty_iff.mp hhooks, isEmpty_iff.mp hfiles⟩

private theorem listsKey_joined
    (h : m.files.map (fun e => (e.path, e.ownedKeys.map (·.map Json.text?))) =
      [(settingsPath, some [some hookKey])]) :
    m.joined.ListsKey settingsPath hookKey ∧ ∀ e ∈ m.joined.files, e.path = settingsPath := by
  obtain ⟨e, hfiles, he⟩ := map_eq_singleton_iff.mp h
  obtain ⟨path, checksum, owned⟩ := e
  obtain ⟨rfl, howned⟩ := Prod.mk.inj he
  obtain ⟨keys, rfl, hkeys⟩ := Option.map_eq_some_iff.mp howned
  obtain ⟨v, rfl, hv⟩ := map_eq_singleton_iff.mp hkeys
  cases v with
  | str s =>
    obtain rfl := Option.some.inj hv
    have hpath : joinHalves settingsPath = settingsPath := by decide +kernel
    have hkey : joinHalves hookKey = hookKey := by decide +kernel
    have hjoined : m.joined.files = [⟨settingsPath, joinHalves checksum, some [.str hookKey]⟩] := by
      rw [Manifest.joined, hfiles, Manifest.sorted, mergeSort_singleton, map_singleton,
        ManifestEntry.joined, hpath, Option.map_some, joinedItems, Json.joined, hkey,
        joinedItems]
    have hget : m.joined.get? settingsPath =
        some ⟨settingsPath, joinHalves checksum, some [.str hookKey]⟩ := by
      simp [Manifest.get?, hjoined]
    exact ⟨⟨_, _, hget, rfl, mem_cons_self⟩, by simp [hjoined]⟩
  | _ => cases hv

/-- The project after a build with the hook. -/
structure IsBuilt (t : FileTree) (m : Manifest) (doc : Members) : Prop where
  wellFormed : t.WellFormed
  loaded : Manifest.load t configuredPlace.root = .ok (some m)
  listed : m.ListsKey settingsPath hookKey
  paths : ∀ e ∈ m.files, e.path = settingsPath
  stored : ∃ bytes, t.bytesAt (configuredPlace.root ++ settingsNames) = some bytes ∧
    IsStored bytes (.obj doc)
  present : HasPath (pathKeys hookKey) doc
  free : ∀ directory ∈ Profile.claude.managedDirs,
    t.isDir? (join configuredPlace.root directory) = .ok false

private theorem exists_hookBuild : ∃ s, ∃ hs : ∃ t root, WellFormed t ∧
      Source.load t root = .ok s, ∃ build t' m doc,
    configuredPlace.write (configuredTree hookConfig) (Targets.claude hs).reports
      (Targets.claude hs).managed = .ok (build, t') ∧ IsBuilt t' m doc := by
  have ht : (configuredTree hookConfig).WellFormed :=
    wellFormed_of_isPlain (by decide +kernel)
  have hw : configuredPlace.IsProper := isProper_of_isPlain (by decide +kernel)
  have hnoFile : (configuredTree hookConfig).bytesAt configuredPlace.root = none := rfl
  have hload : Manifest.load (configuredTree hookConfig) configuredPlace.root = .ok none := rfl
  obtain ⟨s, hsource, h⟩ := exists_hookRun
  obtain ⟨hevent, h⟩ := Bool.and_eq_true_iff.mp h
  obtain ⟨p, hrun, h⟩ := exists_of_checks h
  simp only [Bool.and_eq_true, all_eq_true, beq_iff_eq] at h
  obtain ⟨⟨⟨hok, hdir, hfree⟩, hdirs⟩, hmanifest⟩ := h
  obtain ⟨manifest, hmanifest, hlisted⟩ := exists_of_checks hmanifest
  have hs : ∃ t root, WellFormed t ∧ Source.load t root = .ok s := ⟨_, _, ht, hsource⟩
  have hsetting := (Targets.claude hs).setting hw
  obtain ⟨bytes, hsave⟩ := Manifest.exists_save (holds_of_run hsetting ht hnoFile hrun).2.wellFormed
    (hsetting.isStorable_manifest ht hnoFile hload hrun hmanifest) hdir (by simp [hfree])
    (by decide +kernel)
  obtain ⟨build, hwrite, -⟩ := write_of_run hload hrun hmanifest hsave
  have hchange := hsetting.changesAt_of_save ht hnoFile hrun hsave
  obtain ⟨hlists, hpaths⟩ := listsKey_joined (eq_of_beq hlisted)
  have hhooks : s.guidance.hooks ≠ [] := by
    intro hnil
    rw [hnil] at hevent
    cases hevent
  obtain ⟨bytes, doc, hbytes, hstored, hevents, -⟩ :=
    run_claude_with_hooks hs hw ht hnoFile hrun hok hhooks
  have hsettings := hchange.elsewhere
    (IsOutside.ne_manifest (show IsOutside settingsNames by decide) configuredPlace.root)
  refine ⟨s, hs, build, _, _, doc, hwrite, hchange.wellFormed,
    hsetting.load_of_save ht hnoFile hload hrun hmanifest hsave, hlists, hpaths,
    ⟨bytes, hsettings.trans hbytes, hstored⟩, hevents _ (contains_iff_mem.mp hevent), ?_⟩
  intro directory hdirectory
  have hapart : ∀ directory ∈ Profile.claude.managedDirs,
      let path := join configuredPlace.root directory
      path ≠ configuredPlace.root ++ Manifest.names ∧
      path.dropLast ≠ configuredPlace.root ++ Manifest.names ∧
      path.all Path.isPlain = true ∧ ¬ IsTooLong path := by decide +kernel
  obtain ⟨hne, hneAbove, hnames, hshort⟩ := hapart directory hdirectory
  obtain ⟨hnone, habove⟩ := hdirs directory hdirectory
  refine hchange.wellFormed.isDir?_eq_false hshort
    (fun name hname => isFileName_of_isPlain (all_eq_true.mp hnames name hname)) ?_ ?_
  · rw [get?_put_ne _ _ hneAbove, habove]
  · rw [get?_put_ne _ _ hne, hnone]

private theorem IsBuilt.exists_rebuild (h : IsBuilt t m doc) : ∃ s, ∃ hs : ∃ t root, WellFormed t ∧
      Source.load t root = .ok s, ∃ build t', s.guidance.hooks = [] ∧
    configuredPlace.write t (Targets.claude hs).reports (Targets.claude hs).managed =
      .ok (build, t') ∧ build.ok = true := by
  have hw : configuredPlace.IsProper := isProper_of_isPlain (by decide +kernel)
  obtain ⟨s, hsource, hhooks, hfiles⟩ := exists_plain
  have hs : ∃ t root, WellFormed t ∧ Source.load t root = .ok s :=
    ⟨_, _, wellFormed_of_isPlain (by decide +kernel), hsource⟩
  have hsetting := (Targets.claude hs).setting hw
  have hpaths : ∀ e ∈ m.files, configuredPlace.IsListable e.path := by
    intro e he
    rw [h.paths e he]
    exact ⟨⟨_, leads_settingsPath⟩, by unfold IsShort; decide +kernel⟩
  obtain ⟨hsaves, hshort⟩ := CanSave.of_load hw.root h.wellFormed h.loaded
  have hrun : ∃ done, configuredPlace.run (some m) t (Targets.claude hs).reports
      (Targets.claude hs).managed = .ok { tree := t, done } ∧ done.all (·.ok) = true :=
    run_of_nothing rfl hfiles rfl h.free
  obtain ⟨done, hrun, hdone⟩ := hrun
  obtain ⟨build, t', -, hwrite, -, htargets, -⟩ :=
    hsetting.exists_write_of_run hsaves h.loaded hpaths hshort hrun
  exact ⟨s, hs, build, t', hhooks, hwrite, by rw [BuildReport.ok, htargets, hdone]⟩

theorem recorded_keys_survive_only_without_hooks_of_ended :
    ∃ (s s' : Source) (hs : ∃ t root, FileTree.WellFormed t ∧ Source.load t root = .ok s)
      (hs' : ∃ t root, FileTree.WellFormed t ∧ Source.load t root = .ok s')
      (build build' : BuildReport) (t' u' : FileTree),
      configuredPlace.write (configuredTree hookConfig) (Targets.claude hs).reports
        (Targets.claude hs).managed = .ok (build, t') ∧
      configuredPlace.write t' (Targets.claude hs').reports (Targets.claude hs').managed =
        .ok (build', u') ∧
      u'.bytesAt (configuredPlace.root ++ Profile.settingsNames) =
        t'.bytesAt (configuredPlace.root ++ Profile.settingsNames) := by
  obtain ⟨hroot, hstamp⟩ : configuredPlace.IsProper := isProper_of_isPlain (by decide +kernel)
  obtain ⟨s, hs, build, t', m, doc, hwrite, hbuilt⟩ := exists_hookBuild
  obtain ⟨s', hs', build', u', hhooks, hwrite', hok⟩ := hbuilt.exists_rebuild
  obtain ⟨-, -, -, hsame⟩ := recorded_keys_survive_only_without_hooks hroot hstamp hstamp hs hs'
    (FileTree.wellFormed_of_isPlain (by decide +kernel)) rfl hwrite hbuilt.wellFormed rfl
    hwrite' hok
  exact ⟨s, s', hs, hs', build, build', t', u', hwrite, hwrite', hsame hhooks⟩

/-- The key of a hook survives the build that no longer has the hook. -/
theorem hook_key_survives_the_end_of_hooks :
    ∃ (s s' : Source) (hs : ∃ t root, FileTree.WellFormed t ∧ Source.load t root = .ok s)
      (hs' : ∃ t root, FileTree.WellFormed t ∧ Source.load t root = .ok s')
      (build build' : BuildReport) (t' u' : FileTree) (m : Manifest) (bytes : ByteArray)
      (doc : Json.Members),
      configuredPlace.write (configuredTree hookConfig) (Targets.claude hs).reports
        (Targets.claude hs).managed = .ok (build, t') ∧
      configuredPlace.write t' (Targets.claude hs').reports (Targets.claude hs').managed =
        .ok (build', u') ∧
      build'.ok = true ∧ Manifest.load t' configuredPlace.root = .ok (some m) ∧
      m.ListsKey Profile.settingsPath hookKey ∧
      ¬ Json.HasPath (Json.pathKeys hookKey) (Hook.settings s'.guidance.hooks) ∧
      u'.bytesAt (configuredPlace.root ++ Profile.settingsNames) = some bytes ∧
      Json.IsStored bytes (.obj doc) ∧ Json.HasPath (Json.pathKeys hookKey) doc := by
  have hw : configuredPlace.IsProper := isProper_of_isPlain (by decide +kernel)
  obtain ⟨s, hs, build, t', m, doc, hwrite, hbuilt⟩ := exists_hookBuild
  obtain ⟨s', hs', build', u', hhooks, hwrite', hok⟩ := hbuilt.exists_rebuild
  obtain ⟨bytes, hbytes, hstored⟩ := hbuilt.stored
  have hnoFile : t'.bytesAt configuredPlace.root = none := FileTree.bytesAt_of_dir
    (hbuilt.wellFormed.get?_above (by decide) (FileTree.bytesAt_eq_some_iff.mp hbytes))
  obtain ⟨previous, p, manifest, -, hrun, -, hsave, -⟩ := write_ok hwrite'
  have hsame := run_claude_without_hooks hs' hw hbuilt.wellFormed hnoFile hrun hhooks
  have hsaved := (((Targets.claude hs').setting hw).changesAt_of_save hbuilt.wellFormed hnoFile hrun
    hsave).elsewhere
      (IsOutside.ne_manifest (show IsOutside Profile.settingsNames by decide) configuredPlace.root)
  refine ⟨s, s', hs, hs', build, build', t', u', m, bytes, doc, hwrite, hwrite', hok, hbuilt.loaded,
    hbuilt.listed, ?_, (hsaved.trans hsame).trans hbytes, hstored, hbuilt.present⟩
  rw [hhooks]
  rintro ⟨child, hchild, -⟩
  cases hchild

end Workplace

end AgentConfig
