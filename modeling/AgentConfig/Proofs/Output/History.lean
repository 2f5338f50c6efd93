import AgentConfig.Proofs.Output.Cleared
import AgentConfig.Proofs.Platform.Paths

namespace AgentConfig

open List Outcome AgentConfig.Action Manifest AgentConfig.Path Profile Workplace

variable {t t' : FileTree} {halt : Halt} {targets : Targets}

/-- A project between two steps, with the files that a build which returned has written and that
only builds have touched since, as the names that lead there from the root. -/
structure History where
  tree : FileTree
  built : List Text → Prop

/-- The run has given the file at a place its text. -/
def Progress.WroteText (p : Progress) (place : List Text) : Prop :=
  ∃ a ∈ p.completed, a.kind = .writeText ∧ a.status ≠ .noop ∧ a.path = relative place

theorem Progress.WroteText.wrote {p : Progress} {place : List Text} (h : p.WroteText place) :
    Wrote p.completed (relative place) := by
  obtain ⟨a, ha, hkind, -, hpath⟩ := h
  exact ⟨a, ha, by rw [hkind]; rfl, hpath⟩

namespace Workplace

variable {w : Workplace} {t : FileTree} {previous : Option Manifest} {p : Progress}

theorem Holds.isTidy_manifest (hw : w.IsProper) (hholds : w.Holds t p.tree p.completed)
    (htallies : p.Tallies p.completed) (hprevious : (previous.getD {}).IsTidy)
    {manifest : Manifest} (hmanifest : p.manifest w.root previous = .ok manifest) :
    manifest.IsTidy := by
  obtain ⟨hnodup, hmem, -⟩ := hholds.manifest_inv hw htallies hprevious.distinct hmanifest
  refine ⟨hnodup, ?_, ?_⟩
  · intro e he
    rcases (hmem e).mp he with ⟨hold, -⟩ | ⟨a, -, names, bytes, hleads, hout, hbytes, -⟩
    · exact hprevious.leads e hold
    · refine ⟨names, hleads, hout, fun name hname => ?_⟩
      exact hholds.wellFormed.isFileName (FileTree.bytesAt_eq_some_iff.mp hbytes) name
        (mem_append_right _ hname)
  · intro e he
    rcases (hmem e).mp he with ⟨hold, -⟩ | ⟨a, -, names, bytes, -, -, -, -, hkeys⟩
    · exact hprevious.texts e hold
    intro keys hsome v hv
    rw [hkeys] at hsome
    obtain ⟨texts, -, rfl⟩ := Option.map_eq_some_iff.mp hsome
    obtain ⟨text, -, rfl⟩ := mem_map.mp hv
    exact ⟨text, rfl⟩

theorem mergeJson_iff (hw : w.IsProper) (ht : t.WellFormed) (hroot : t.bytesAt w.root = none)
    (hrun : w.run previous t targets.reports targets.managed = .ok p) {a : Action}
    (ha : a ∈ p.completed) (hpersists : a.kind.persists = true) :
    a.kind = .mergeJson ↔ a.path = relative settingsNames := by
  have hsetting := targets.setting hw
  obtain ⟨report, q, plan, hplanned, ha⟩ := run_completed hrun a ha
  have hholds := hplanned.holds hsetting ht hroot
  obtain ⟨result, -, -, hresult, -, -, -, hall⟩ :=
    hsetting.plan_inv hplanned hholds.wellFormed hholds.root
  obtain ⟨names, -, hplans⟩ := hall a ha
  cases hplans with
  | removal hplan => simp [hplan.kind_eq, ActionKind.persists] at hpersists
  | write hmem hleads hplan =>
    obtain ⟨others, hothers, -, hshared⟩ := targets.files_isPlaced hplanned.mem hresult _ hmem
    have hpath : a.path = relative settingsNames ↔ others = settingsNames := by
      rw [hplan.path_eq, hothers.path_eq]
      exact ⟨relative_injective hothers.proper areProper_settingsNames,
        congrArg relative⟩
    rw [hpath, ← hshared, hplan.kind_eq]
    split <;> simp_all

end Workplace

namespace History

variable {root place : List Text} {s s' : History}

/-- A project without a manifest, of which no build has written anything. -/
def start (t : FileTree) : History := ⟨t, fun _ => False⟩

/-- What happens to a project: a build returns, a build ends early, or somebody changes any files
but the manifest. -/
inductive Step (root : List Text) : History → History → Prop
  | build {s : History} {stamp : Text} {targets : Targets} {previous : Option Manifest}
    {p : Progress} {report : BuildReport} {t' : FileTree} (hstamp : Path.IsProper stamp)
    (hload : Manifest.load s.tree root = .ok previous)
    (hrun : Workplace.run ⟨root, stamp⟩ previous s.tree targets.reports targets.managed = .ok p)
    (hwrite : Workplace.write ⟨root, stamp⟩ s.tree targets.reports targets.managed =
      .ok (report, t')) :
    Step root s ⟨t', fun place => t'.bytesAt (root ++ place) ≠ none ∧
      (s.built place ∨ p.WroteText place)⟩
  | halt {s : History} {stamp : Text} {targets : Targets} {halt : Halt}
    (hstamp : Path.IsProper stamp)
    (hwrite : Workplace.write ⟨root, stamp⟩ s.tree targets.reports targets.managed = .error halt) :
    Step root s ⟨halt.tree, fun place => halt.tree.bytesAt (root ++ place) ≠ none ∧ s.built place⟩
  | edit {s : History} {t' : FileTree} (htree : t'.WellFormed) (hroot : t'.bytesAt root = none)
    (hmanifest : t'.bytesAt (root ++ Manifest.names) = s.tree.bytesAt (root ++ Manifest.names)) :
    Step root s ⟨t', fun place => t'.bytesAt (root ++ place) = s.tree.bytesAt (root ++ place) ∧
      s.built place⟩

/-- The manifest of a project lists a file as a whole. -/
def Lists (root : List Text) (t : FileTree) (place : List Text) : Prop :=
  ∃ m e, Manifest.load t root = .ok (some m) ∧ e ∈ m.files ∧ e.path = relative place ∧
    e.ownedKeys = none

theorem Lists.of_bytesAt_eq (hroot : AreProper root) (ht : t.WellFormed) (ht' : t'.WellFormed)
    (hsame : t'.bytesAt (root ++ Manifest.names) = t.bytesAt (root ++ Manifest.names))
    (h : Lists root t place) : Lists root t' place := by
  obtain ⟨m, e, hload, he⟩ := h
  exact ⟨m, e, load_of_bytesAt_eq ht hroot ht' hsame hload, he⟩

/-- What every step keeps: the manifest is tidy and lists the files that are built, none of which is
that of the shared settings. -/
structure Tracks (root : List Text) (s : History) : Prop where
  wellFormed : s.tree.WellFormed
  noFile : s.tree.bytesAt root = none
  tidy : ∀ m, Manifest.load s.tree root = .ok (some m) → m.IsTidy
  present : ∀ place, s.built place → s.tree.bytesAt (root ++ place) ≠ none
  apart : ∀ place, s.built place → place ≠ settingsNames
  listed : ∀ place, s.built place → Lists root s.tree place

theorem tracks_start (hroot : AreProper root) (ht : t.WellFormed) (hdir : t.bytesAt root = none)
    (hnew : t.bytesAt (root ++ Manifest.names) = none) : Tracks root (start t) := by
  refine ⟨ht, hdir, ?_, nofun, nofun, nofun⟩
  intro m hload
  obtain ⟨bytes, hbytes⟩ := exists_of_load ht hroot hload
  cases hnew.symm.trans hbytes

namespace Tracks

variable (hs : Tracks root s) {place : List Text} {stamp path : Text}
include hs

theorem areProper (h : s.built place) : AreProper place :=
  hs.wellFormed.areProper_of_bytesAt (hs.present place h)

theorem ne_nil (h : s.built place) : place ≠ [] := by
  rintro rfl
  exact hs.present [] h (by rw [append_nil]; exact hs.noFile)

theorem isOutside (h : s.built place) : IsOutside place := by
  obtain ⟨m, e, hload, he, hpath, -⟩ := hs.listed place h
  obtain ⟨names, hleads, hout, -⟩ := (hs.tidy m hload).leads e he
  rwa [relative_injective (hs.areProper h) hleads.proper (hpath.symm.trans hleads.path_eq)]

theorem isTidy_previous {previous : Option Manifest}
    (hload : Manifest.load s.tree root = .ok previous) : (previous.getD {}).IsTidy := by
  cases previous with
  | none => exact ⟨nodup_nil, nofun, nofun⟩
  | some m => exact hs.tidy m hload

variable (hroot : Path.AreProper root)
include hroot

/-- While nobody touches the manifest and no file is added to those that are built, all is kept. -/
theorem keeps (ht : s'.tree.WellFormed) (hdir : s'.tree.bytesAt root = none)
    (hsame : s'.tree.bytesAt (root ++ Manifest.names) = s.tree.bytesAt (root ++ Manifest.names))
    (hbuilt : ∀ place, s'.built place → s.built place ∧ s'.tree.bytesAt (root ++ place) ≠ none) :
    Tracks root s' := by
  refine ⟨ht, hdir, ?_, fun place h => (hbuilt place h).2,
    fun place h => hs.apart place (hbuilt place h).1, ?_⟩
  · intro m hload
    exact hs.tidy m (load_of_bytesAt_eq ht hroot hs.wellFormed hsame.symm hload)
  · intro place h
    exact (hs.listed place (hbuilt place h).1).of_bytesAt_eq hroot hs.wellFormed ht hsame

section Build

variable {targets : Targets} {previous : Option Manifest} {p : Progress}
  (hstamp : Path.IsProper stamp)
include hstamp

theorem guards_of_halt
    (hwrite : Workplace.write ⟨root, stamp⟩ s.tree targets.reports targets.managed =
      .error halt) : Guards ⟨root, stamp⟩ s.tree halt.tree := by
  have hw : Workplace.IsProper ⟨root, stamp⟩ := ⟨hroot, hstamp⟩
  rcases write_error hwrite with htree | ⟨previous, hload, hcase⟩
  · rw [htree]
    exact ⟨hs.wellFormed, hs.noFile, fun _ _ => rfl⟩
  have hend := run_holds previous (targets.setting hw) hs.wellFormed hs.noFile
  rcases hcase with hrun | ⟨p, hrun, hcase⟩
  · rw [hrun] at hend
    exact hend
  rw [hrun] at hend
  obtain ⟨htallies, hholds⟩ := hend
  rcases hcase with htree | ⟨manifest, hmanifest, hsave⟩
  · rw [htree]
    exact hholds.toGuards
  have htidy := hholds.isTidy_manifest hw htallies (hs.isTidy_previous hload) hmanifest
  have hsame := save_failed hholds.wellFormed hroot htidy.isStorable hsave
  exact ⟨hsame.wellFormed, (hsame.bytesAt_eq _).trans hholds.root,
    fun hin hcopies => (hsame.bytesAt_eq _).trans (hholds.inside hin hcopies)⟩

section Returned

variable
  (hrun : Workplace.run ⟨root, stamp⟩ previous s.tree targets.reports targets.managed = .ok p)
include hrun

theorem holds_of_run : p.Tallies p.completed ∧ Holds ⟨root, stamp⟩ s.tree p.tree p.completed := by
  have hw : Workplace.IsProper ⟨root, stamp⟩ := ⟨hroot, hstamp⟩
  exact Workplace.holds_of_run (targets.setting hw) hs.wellFormed hs.noFile hrun

variable (hload : Manifest.load s.tree root = .ok previous) {saved : Manifest}
  (hmanifest : p.manifest root previous = .ok saved)
include hload hmanifest

theorem exists_of_wrote (hwrote : Wrote p.completed path) (hpath : path ≠ relative settingsNames) :
    ∃ e ∈ saved.files, e.path = path ∧ e.ownedKeys = none := by
  have hw : Workplace.IsProper ⟨root, stamp⟩ := ⟨hroot, hstamp⟩
  obtain ⟨htallies, hholds⟩ := hs.holds_of_run hroot hstamp hrun
  obtain ⟨-, hmem, -⟩ :=
    hholds.manifest_inv hw htallies (hs.isTidy_previous hload).distinct hmanifest
  obtain ⟨a, hlast⟩ := Option.isSome_iff_exists.mp (isSome_lastWrite?.mpr hwrote)
  obtain ⟨ha, hpersists, rfl⟩ := lastWrite?_eq_some hlast
  have hmerge := mergeJson_iff hw hs.wellFormed hs.noFile hrun ha hpersists
  have hkind : a.kind = .writeText := by
    cases h : a.kind with
    | writeText => rfl
    | mergeJson => exact absurd (hmerge.mp h) hpath
    | removeFile => simp [h, ActionKind.persists] at hpersists
    | removeKeys => simp [h, ActionKind.persists] at hpersists
  obtain ⟨e, he, hentry⟩ := hholds.exists_entry hlast
  refine ⟨e, (hmem e).mpr (.inr ⟨a, he ▸ hlast, hentry⟩), he, ?_⟩
  obtain ⟨_, _, -, -, -, -, hkeys⟩ := hentry
  rw [hkeys, hholds.plain a ha hkind]
  rfl

theorem exists_of_built (hbuilt : s.built place) (hwrote : ¬ Wrote p.completed (relative place))
    (hthere : p.tree.bytesAt (root ++ place) ≠ none) :
    ∃ e ∈ saved.files, e.path = relative place ∧ e.ownedKeys = none := by
  have hw : Workplace.IsProper ⟨root, stamp⟩ := ⟨hroot, hstamp⟩
  obtain ⟨htallies, hholds⟩ := hs.holds_of_run hroot hstamp hrun
  obtain ⟨-, hmem, htold⟩ :=
    hholds.manifest_inv hw htallies (hs.isTidy_previous hload).distinct hmanifest
  obtain ⟨m, e, hload', he, hpath, hkeys⟩ := hs.listed place hbuilt
  cases hload.symm.trans hload'
  obtain ⟨bytes, hbytes⟩ := Option.ne_none_iff_exists'.mp hthere
  obtain ⟨-, hremoved⟩ := hholds.unwritten (hs.isOutside hbuilt) hwrote hbytes
  rw [← lastWrite?_eq_none_iff] at hwrote
  rw [← hpath] at hremoved hwrote
  obtain ⟨found, hfound⟩ := htold e he hremoved hwrote
  have hplace : Path.Leads e.path place :=
    hpath ▸ leads_relative (hs.ne_nil hbuilt) (hs.areProper hbuilt)
  have hexists : found = true := by
    rw [hplace.join_eq] at hfound
    rw [hholds.wellFormed.exists?_eq (hw.areProper hplace) hfound,
      FileTree.bytesAt_eq_some_iff.mp hbytes]
    rfl
  exact ⟨e, (hmem e).mpr (.inl ⟨he, hremoved, hwrote, hexists ▸ hfound⟩), hpath, hkeys⟩

end Returned

theorem build {report : BuildReport} (hload : Manifest.load s.tree root = .ok previous)
    (hrun : Workplace.run ⟨root, stamp⟩ previous s.tree targets.reports targets.managed = .ok p)
    (hwrite : Workplace.write ⟨root, stamp⟩ s.tree targets.reports targets.managed =
      .ok (report, t')) :
    Tracks root ⟨t', fun place => t'.bytesAt (root ++ place) ≠ none ∧
      (s.built place ∨ p.WroteText place)⟩ := by
  have hw : Workplace.IsProper ⟨root, stamp⟩ := ⟨hroot, hstamp⟩
  obtain ⟨_, _, saved, hload', hrun', hmanifest, hsave, -⟩ := write_ok hwrite
  cases hload.symm.trans hload'
  cases hrun.symm.trans hrun'
  obtain ⟨htallies, hholds⟩ := hs.holds_of_run hroot hstamp hrun
  have htidy := hholds.isTidy_manifest hw htallies (hs.isTidy_previous hload) hmanifest
  have hsaved := load_save hholds.wellFormed hroot htidy.isStorable hsave
  have hchange : p.tree.ChangesAt t' (root ++ Manifest.names) := by
    have hsave' := hw.save_changesAt hholds.wellFormed saved
    rwa [hsave] at hsave'
  have hapart {place : List Text} (h : s.built place ∨ p.WroteText place) :
      place ≠ settingsNames := by
    rcases h with hbuilt | ⟨a, ha, hkind, -, hpath⟩
    · exact hs.apart place hbuilt
    · have hmerge := mergeJson_iff hw hs.wellFormed hs.noFile hrun ha (by rw [hkind]; rfl)
      rintro rfl
      cases hkind.symm.trans (hmerge.mpr hpath)
  refine ⟨hchange.wellFormed, ?_, ?_, fun place h => h.1, fun place h => hapart h.2, ?_⟩
  · exact (hchange.elsewhere (by simp [Manifest.names])).trans hholds.root
  · intro m hm
    cases hsaved.symm.trans hm
    exact htidy.joined
  · rintro place ⟨hthere, hcase⟩
    -- The run has dealt with the path itself, or its old entry is carried over.
    have hlisted : ∃ e ∈ saved.files, e.path = relative place ∧ e.ownedKeys = none := by
      by_cases hwrote : Wrote p.completed (relative place)
      · refine hs.exists_of_wrote hroot hstamp hrun hload hmanifest hwrote fun heq => ?_
        exact hapart hcase (relative_injective
          (hchange.wellFormed.areProper_of_bytesAt hthere) areProper_settingsNames heq)
      · have hbuilt : s.built place := hcase.resolve_right fun h => hwrote h.wrote
        refine hs.exists_of_built hroot hstamp hrun hload hmanifest hbuilt hwrote ?_
        rwa [← hchange.elsewhere ((hs.isOutside hbuilt).ne_manifest root)]
    obtain ⟨e, he, hpath, hkeys⟩ := hlisted
    refine ⟨saved.joined, e.joined, hsaved, ?_, (htidy.path_joined he).trans hpath, ?_⟩
    · exact mem_map_of_mem (mem_sorted.mpr he)
    · simp [ManifestEntry.joined, hkeys]

end Build

theorem step (h : Step root s s') : Tracks root s' := by
  cases h with
  | build hstamp hload hrun hwrite => exact hs.build hroot hstamp hload hrun hwrite
  | halt hstamp hwrite =>
    have hguards := hs.guards_of_halt hroot hstamp hwrite
    exact hs.keeps hroot hguards.wellFormed hguards.root hguards.bytesAt_manifest
      fun place h => ⟨h.2, h.1⟩
  | edit htree hdir hmanifest =>
    refine hs.keeps hroot htree hdir hmanifest fun place h => ⟨h.2, ?_⟩
    rw [h.1]
    exact hs.present place h.2

theorem steps (h : Relation.ReflTransGen (Step root) s s') : Tracks root s' := by
  induction h with
  | refl => exact hs
  | tail _ hstep ih => exact ih.step hroot hstep

theorem lists_iff_of_halt (hstamp : Path.IsProper stamp)
    (hwrite : Workplace.write ⟨root, stamp⟩ s.tree targets.reports targets.managed =
      .error halt) (place : List Text) : Lists root halt.tree place ↔ Lists root s.tree place := by
  have hguards := hs.guards_of_halt hroot hstamp hwrite
  have hsame := hguards.bytesAt_manifest
  exact ⟨Lists.of_bytesAt_eq hroot hguards.wellFormed hs.wellFormed hsame.symm,
    Lists.of_bytesAt_eq hroot hs.wellFormed hguards.wellFormed hsame⟩

theorem clean_removes (hstamp : Path.IsProper stamp) {removed : Option (List Text)}
    (hclean : Workplace.clean ⟨root, stamp⟩ s.tree = .ok (removed, t'))
    (h : s.built place) : t'.bytesAt (root ++ place) = none := by
  obtain ⟨m, e, hload, he, hpath, hkeys⟩ := hs.listed place h
  have hplace : Path.Leads e.path place :=
    hpath ▸ leads_relative (hs.ne_nil h) (hs.areProper h)
  obtain ⟨-, hclears, -⟩ := Workplace.clean_clears ⟨hroot, hstamp⟩
    (Workplace.listsApart_of_isTidy (hs.tidy m hload)) hs.wellFormed hload hclean
  exact (hclears e he place hplace).eq_none hkeys

end Tracks

/-- In a project that began without a manifest, every file that is built is listed, so a clean that
returns removes it. A build that ends early lists nothing new. -/
theorem no_built_file_is_orphaned (hroot : Path.AreProper root) {t : FileTree} (ht : t.WellFormed)
    (hdir : t.bytesAt root = none) (hnew : t.bytesAt (root ++ Manifest.names) = none)
    (hsteps : Relation.ReflTransGen (Step root) (start t) s) :
    (∀ place, s.built place → Lists root s.tree place) ∧
    ∀ stamp, Path.IsProper stamp →
      (∀ removed t', Workplace.clean ⟨root, stamp⟩ s.tree = .ok (removed, t') →
        ∀ place, s.built place → t'.bytesAt (root ++ place) = none) ∧
      ∀ (targets : Targets) halt,
        Workplace.write ⟨root, stamp⟩ s.tree targets.reports targets.managed = .error halt →
        ∀ place, Lists root halt.tree place ↔ Lists root s.tree place := by
  have hs := (tracks_start hroot ht hdir hnew).steps hroot hsteps
  refine ⟨hs.listed, fun stamp hstamp => ⟨?_, ?_⟩⟩
  · intro removed t' hclean place hbuilt
    exact hs.clean_removes hroot hstamp hclean hbuilt
  · intro targets halt hwrite place
    exact hs.lists_iff_of_halt hroot hstamp hwrite place

/-- A project with a rule, and with a hook described by half a character, which no file can hold. -/
def hookTree : FileTree :=
  ⟨[(["p", ".agentrc", "rules", "a.md"], .ofText "x"),
    (["p", ".agentrc", "rules"], .dir),
    (["p", ".agentrc", "config.yaml"], .ofText ("version: \"1\"\nhooks:\n" ++
      "- event: pre-commit\n  run: x\n  description: \"\\ud800\"\n")),
    (["p", ".agentrc"], .dir), (["p"], .dir)]⟩

@[inherit_doc hookTree]
def hookWorkplace : Workplace := ⟨["p"], "S"⟩

def buildFor (profile : Profile) (s : Source) (t : FileTree) :
    Except Halt (BuildReport × FileTree) :=
  hookWorkplace.write t [Project.generate s.guidance profile.toPlatform]
    [(profile.name, profile.managedDirs)]

/-- The files that two platforms make of the rule. -/
def clinePlace : List Text := [".clinerules", "01-a.md"]

@[inherit_doc clinePlace]
def cursorPlace : List Text := [".cursor", "rules", "a.mdc"]

/-- Whether a build for the second platform returns, with its file written, and a clean after it. -/
def isBuilt (s : Source) (t : FileTree) : Bool :=
  checks Option.isNone (Manifest.load t hookWorkplace.root) &&
  checks (fun p => p.completed.any fun a => a.kind == .writeText && a.status != .noop &&
      a.path == relative cursorPlace)
    (hookWorkplace.run none t [Project.generate s.guidance Profile.cursor.toPlatform]
      [(Profile.cursor.name, Profile.cursor.managedDirs)]) &&
  checks (fun r => (r.2.bytesAt (hookWorkplace.root ++ cursorPlace)).isSome &&
      checks (fun _ => true) (hookWorkplace.clean r.2))
    (buildFor Profile.cursor s t)

/-- Whether a clean finds no manifest, and leaves the file of the first platform. -/
def isLeft (t : FileTree) : Bool :=
  (t.bytesAt (hookWorkplace.root ++ clinePlace)).isSome &&
  checks (fun r => r.1.isNone && (r.2.bytesAt (hookWorkplace.root ++ clinePlace)).isSome)
    (hookWorkplace.clean t)

private theorem exists_halted : ∃ s halt, Source.load hookTree hookWorkplace.root = .ok s ∧
    buildFor Profile.cline s hookTree = .error halt ∧ isLeft halt.tree = true ∧
    isBuilt s halt.tree = true := by
  have h : checks (fun s => fails
      (fun halt => isLeft halt.tree && isBuilt s halt.tree) (buildFor Profile.cline s hookTree))
      (Source.load hookTree hookWorkplace.root) = true := by decide +kernel
  obtain ⟨s, hload, h⟩ := exists_of_checks h
  obtain ⟨halt, hhalt, h⟩ := exists_of_fails h
  exact ⟨s, halt, hload, hhalt, Bool.and_eq_true_iff.mp h⟩

/-- After a build that ended early another one returns; what that one wrote is listed and cleaned
away. -/
theorem no_built_file_is_orphaned_of_hook :
    ∃ s removed t', Relation.ReflTransGen (Step hookWorkplace.root) (start hookTree) s ∧
      s.built cursorPlace ∧ Lists hookWorkplace.root s.tree cursorPlace ∧
      hookWorkplace.clean s.tree = .ok (removed, t') ∧
      t'.bytesAt (hookWorkplace.root ++ cursorPlace) = none := by
  obtain ⟨source, halt, hload, hhalt, -, hbuilt⟩ := exists_halted
  have htree : hookTree.WellFormed := FileTree.wellFormed_of_isPlain (by decide +kernel)
  obtain ⟨hroot, hstamp⟩ : hookWorkplace.IsProper :=
    Workplace.isProper_of_isPlain (by decide +kernel)
  let cline := Targets.single Profile.cline rfl ⟨hookTree, hookWorkplace.root, htree, hload⟩
  let cursor := Targets.single Profile.cursor rfl ⟨hookTree, hookWorkplace.root, htree, hload⟩
  have hended : hookWorkplace.write hookTree cline.reports cline.managed = .error halt := hhalt
  simp only [isBuilt, Bool.and_eq_true] at hbuilt
  obtain ⟨⟨hnone, hrun⟩, hwrite⟩ := hbuilt
  obtain ⟨previous, hprevious, hnone⟩ := Outcome.exists_of_checks hnone
  obtain rfl := Option.isNone_iff_eq_none.mp hnone
  obtain ⟨p, hrun, hwrote⟩ := Outcome.exists_of_checks hrun
  obtain ⟨⟨report, t⟩, hwrite, hthere⟩ := Outcome.exists_of_checks hwrite
  obtain ⟨hthere, hclean⟩ := Bool.and_eq_true_iff.mp hthere
  obtain ⟨⟨removed, t'⟩, hclean, -⟩ := Outcome.exists_of_checks hclean
  have hran : hookWorkplace.run none halt.tree cursor.reports cursor.managed = .ok p := hrun
  have hwritten : hookWorkplace.write halt.tree cursor.reports cursor.managed =
      .ok (report, t) := hwrite
  have hsteps := (Relation.ReflTransGen.single (Step.halt (s := start hookTree) hstamp hended)).tail
    (Step.build hstamp hprevious hran hwritten)
  have hwrote : p.WroteText cursorPlace := by
    obtain ⟨a, ha, hmatch⟩ := List.any_eq_true.mp hwrote
    simp only [Bool.and_eq_true, beq_iff_eq, bne_iff_ne] at hmatch
    exact ⟨a, ha, hmatch.1.1, hmatch.1.2, hmatch.2⟩
  obtain ⟨hlists, hcleans⟩ := no_built_file_is_orphaned hroot htree
    (FileTree.bytesAt_of_dir (by decide +kernel)) (by rfl) hsteps
  have hthere := Option.isSome_iff_ne_none.mp hthere
  exact ⟨_, removed, t', hsteps, ⟨hthere, Or.inr hwrote⟩, hlists _ ⟨hthere, Or.inr hwrote⟩, hclean,
    (hcleans _ hstamp).1 removed t' hclean _ ⟨hthere, Or.inr hwrote⟩⟩

/-- A build that ended early has written a file and saved no manifest. A clean after it finds
nothing to remove, and leaves the file. -/
theorem file_of_halted_build_stays :
    ∃ (targets : Targets) (halt : Halt) (t' : FileTree),
      hookWorkplace.write hookTree targets.reports targets.managed = .error halt ∧
      hookTree.bytesAt (hookWorkplace.root ++ clinePlace) = none ∧
      halt.tree.bytesAt (hookWorkplace.root ++ clinePlace) ≠ none ∧
      hookWorkplace.clean halt.tree = .ok (none, t') ∧
      t'.bytesAt (hookWorkplace.root ++ clinePlace) ≠ none := by
  obtain ⟨source, halt, hload, hhalt, hleft, -⟩ := exists_halted
  have htree : hookTree.WellFormed := FileTree.wellFormed_of_isPlain (by decide +kernel)
  obtain ⟨hthere, hclean⟩ := Bool.and_eq_true_iff.mp hleft
  obtain ⟨⟨removed, t'⟩, hclean, hstays⟩ := Outcome.exists_of_checks hclean
  obtain ⟨hnone, hstays⟩ := Bool.and_eq_true_iff.mp hstays
  obtain rfl := Option.isNone_iff_eq_none.mp hnone
  exact ⟨Targets.single Profile.cline rfl ⟨hookTree, hookWorkplace.root, htree, hload⟩, halt, t',
    hhalt, rfl, Option.isSome_iff_ne_none.mp hthere, hclean, Option.isSome_iff_ne_none.mp hstays⟩

end History

end AgentConfig
