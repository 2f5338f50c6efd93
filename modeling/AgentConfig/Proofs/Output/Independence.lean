import AgentConfig.Proofs.Output.Agreement

namespace AgentConfig

open List Outcome PlanContext Progress AgentConfig.Path

variable {desired dirs names : List Text} {plan : Plan}

namespace PlanContext

/-- The same context with another tree, and with another ledger if one is given. -/
def inTree (c : PlanContext) (t : FileTree) (ledger : Ledger := c.ledger) : PlanContext :=
  { c with tree := t, ledger }

variable {c : PlanContext} {t : FileTree} {ledger : Ledger} {target directory : Text}
  {f : OutputFile} {planned : Action × List Text}

theorem exists_entry?_of_planOutput (hplan : c.planOutput target f = .ok planned) :
    ∃ found, c.entry? f.path = .ok found := by
  unfold planOutput at hplan
  split at hplan
  · obtain ⟨overlay, -, hplan⟩ := bind_eq_ok.mp hplan
    obtain ⟨stored, hstored, -⟩ := bind_eq_ok.mp hplan
    obtain ⟨found, hfound, -⟩ := bind_eq_ok.mp hstored
    exact ⟨found, hfound⟩
  · obtain ⟨-, found, hfound, -⟩ := planFile_ok hplan
    exact ⟨found, hfound⟩

theorem planOutput_inTree (hledger : ledger.get? f.path = c.ledger.get? f.path)
    (hentry : PlanContext.entry? (c.inTree t ledger) f.path = c.entry? f.path) :
    (c.inTree t ledger).planOutput target f = c.planOutput target f := by
  have hstored : (c.inTree t ledger).tree.storedJson ((c.inTree t ledger).location f.path) =
      c.tree.storedJson (c.location f.path) := by
    have hsame : Failure.atPath (c.location f.path) (t.entry? (c.location f.path)) =
        Failure.atPath (c.location f.path) (c.tree.entry? (c.location f.path)) := hentry
    show t.storedJson (c.location f.path) = c.tree.storedJson (c.location f.path)
    unfold FileTree.storedJson
    rw [hsame]
  have hget : (c.inTree t ledger).ledger.get? f.path = c.ledger.get? f.path := hledger
  have hsettle (action : Action) (desired : Text) (owned : List Text) (entry : Option FileEntry)
      (hpath : action.path = f.path) : (c.inTree t ledger).settle action desired owned entry =
        c.settle action desired owned entry := by
    unfold settle Ledger.hasPath
    dsimp only
    rw [hpath, hget]
    rfl
  have hsettings : (c.inTree t ledger).planSettings target f = c.planSettings target f := by
    unfold planSettings
    rw [hentry, hstored, hget]
    simp only [hsettle]
    rfl
  have hfile : (c.inTree t ledger).planFile target f = c.planFile target f := by
    unfold planFile
    rw [hentry, hget]
    rfl
  unfold planOutput
  rw [hsettings, hfile]

theorem planOutput_inTree_of_hasPath (hshared : f.ownership ≠ .sharedKeys)
    (hledger : c.ledger.hasPath f.path = true) {found : Option FileEntry}
    (hentry : PlanContext.entry? (c.inTree t) f.path = .ok found)
    (hplan : c.planOutput target f = .ok planned) :
    (c.inTree t).planOutput target f = .ok planned := by
  obtain ⟨earlier, hearlier⟩ := Option.isSome_iff_exists.mp hledger
  rw [planOutput_eq_planFile hshared] at hplan ⊢
  obtain ⟨_, hcheck, hplan⟩ := bind_eq_ok.mp hplan
  obtain ⟨_, -, hplan⟩ := bind_eq_ok.mp hplan
  rw [hearlier] at hplan
  have hkept : (c.inTree t).ledger.get? f.path = some earlier := hearlier
  refine bind_eq_ok.mpr ⟨_, hcheck, bind_eq_ok.mpr ⟨found, hentry, ?_⟩⟩
  rw [hkept]
  exact hplan

/-- The stale files of a directory are planned alike where the directory and its files are the
same and are noted alike. -/
theorem planStaleIn_inTree (hlocation : c.location directory = c.root ++ names)
    (hproper : AreProper (c.root ++ names))
    (hledger : ∀ rest, ledger.hasPath (relative (names ++ rest)) =
      c.ledger.hasPath (relative (names ++ rest)))
    (hentry : t.entry? (c.root ++ names) = c.tree.entry? (c.root ++ names))
    (hfiles : t.filesBelow (c.root ++ names) = c.tree.filesBelow (c.root ++ names)) :
    (c.inTree t ledger).planStaleIn target desired directory =
      c.planStaleIn target desired directory := by
  have hstale (file : List Text × ByteArray) :
      (c.inTree t ledger).planStaleFile target desired (c.root ++ names ++ file.1) (.file file.2) =
        c.planStaleFile target desired (c.root ++ names ++ file.1) (.file file.2) := by
    have hnoted : (c.inTree t ledger).ledger.hasPath (relative (names ++ file.1)) =
      c.ledger.hasPath (relative (names ++ file.1)) := hledger file.1
    have hpath : (c.inTree t ledger).pathOf (c.root ++ (names ++ file.1)) =
        .ok (relative (names ++ file.1)) := pathOf_append _ _
    rw [append_assoc]
    unfold planStaleFile
    rw [hpath, pathOf_append]
    dsimp only [bind, Except.bind]
    rw [hnoted]
    rfl
  -- A directory that is seen is located by its own names.
  have hlocated {u : FileTree} (h : u.entry? (c.root ++ names) = .ok (some .dir)) :
      u.locate (c.root ++ names) = .ok (c.root ++ names) := by
    unfold FileTree.entry? at h
    split at h
    · rename_i location hlocate
      rw [hlocate, FileTree.locate_eq hproper hlocate]
    · cases h
    · cases h
  unfold planStaleIn
  have hlocation' : (c.inTree t ledger).location directory = c.root ++ names := hlocation
  have hisDir : (c.inTree t ledger).tree.isDir? (c.root ++ names) =
      c.tree.isDir? (c.root ++ names) :=
    congrArg (Except.map _) hentry
  simp only [hlocation, hlocation', hisDir, hstale]
  cases hdir : c.tree.isDir? (c.root ++ names) with
  | error fault => rfl
  | ok isDir =>
    cases isDir with
    | false => rfl
    | true =>
      obtain ⟨found, hfound, hfoundDir⟩ := map_eq_ok.mp hdir
      obtain rfl := beq_iff_eq.mp hfoundDir
      have hlocate : (c.inTree t ledger).tree.locate (c.root ++ names) = .ok (c.root ++ names) :=
        hlocated (hentry.trans hfound)
      have hbelow : (c.inTree t ledger).tree.filesBelow (c.root ++ names) =
          c.tree.filesBelow (c.root ++ names) := hfiles
      rw [hlocate, hlocated hfound]
      dsimp only [Failure.atPath, Except.mapError, bind, Except.bind]
      rw [hbelow]

/-- A plan is the same in another tree if each of its files and directories is planned alike. -/
theorem plan_inTree {files : List OutputFile}
    (hfiles : ∀ f ∈ files, ∀ planned, c.planOutput target f = .ok planned →
      (c.inTree t).planOutput target f = .ok planned)
    (hdirs : ∀ directory ∈ dirs, ∀ removals,
      c.planStaleIn target (files.map (·.path)) directory = .ok removals →
      (c.inTree t).planStaleIn target (files.map (·.path)) directory = .ok removals)
    (hplan : c.plan target files dirs = .ok plan) :
    (c.inTree t).plan target files dirs = .ok plan := by
  obtain ⟨written, hwritten, hplan⟩ := bind_eq_ok.mp hplan
  obtain ⟨removed, hremoved, hplan⟩ := bind_eq_ok.mp hplan
  refine bind_eq_ok.mpr ⟨written, ?_, bind_eq_ok.mpr ⟨removed, ?_, hplan⟩⟩
  · exact mapM_eq_ok.mpr (forall₂_imp_of_mem (mapM_eq_ok.mp hwritten) hfiles)
  · exact mapM_eq_ok.mpr (forall₂_imp_of_mem (mapM_eq_ok.mp hremoved) hdirs)

end PlanContext

def TargetReport.outputs (report : TargetReport) : List OutputFile :=
  (report.result.map (·.files)).getD []

/-- What is done for one target shows to the planning of another only at the paths they share, none
of them the path of a document that is shared with the user. -/
structure TargetReport.Spares (managed : ManagedDirs) (earlier later : TargetReport) : Prop where
  outputs : ∀ f ∈ earlier.outputs, ∀ g ∈ later.outputs,
    (f.path = g.path ∧ g.ownership ≠ .sharedKeys) ∨ top f.path ≠ top g.path
  removals : ∀ directory ∈ managed.of earlier.target, ∀ g ∈ later.outputs,
    top directory ≠ top g.path
  written : ∀ f ∈ earlier.outputs, ∀ directory ∈ managed.of later.target,
    top f.path ≠ top directory
  managed : ∀ directory ∈ managed.of earlier.target, ∀ other ∈ managed.of later.target,
    top directory ≠ top other

/-- The managed directories are given by paths in normal form outside the source directory. -/
def ManagedDirs.StayOutside (managed : ManagedDirs) : Prop :=
  ∀ target, ∀ directory ∈ managed.of target,
    ∃ names, Path.Leads directory names ∧ Workplace.IsOutside names

namespace Workplace

variable {w : Workplace} {t : FileTree} {previous : Option Manifest} {reports : List TargetReport}
  {managed : ManagedDirs} {p : Progress}

/-- An action is for one of the files of a target or for something in a directory it manages. -/
inductive IsFor (managed : ManagedDirs) (report : TargetReport) (a : Action) : Prop
  | write {f : OutputFile} (hmem : f ∈ report.outputs) (hpath : a.path = f.path)
    (hkind : a.kind.persists = true)
  | removal {directory : Text} (hmem : directory ∈ managed.of report.target)
    (htop : top a.path = top directory) (hkind : a.kind = .removeFile)

theorem Planned.isFor {report : TargetReport} (h : Setting w reports managed)
    (hdirs : managed.StayOutside) (hplanned : w.Planned previous t reports managed report p plan)
    (hwell : p.tree.WellFormed) (hroot : p.tree.bytesAt w.root = none) :
    ∀ a ∈ plan.actions, IsFor managed report a := by
  intro a ha
  obtain ⟨result, -, -, hresult, -, -, -, hall⟩ := h.plan_inv hplanned hwell hroot
  obtain ⟨names, -, hplans⟩ := hall a ha
  cases hplans with
  | write hf hleads hwrite =>
    refine .write ?_ hwrite.path_eq hwrite.persists
    rw [TargetReport.outputs, hresult]
    exact hf
  | removal hremoval =>
    obtain ⟨directory, hdirectory, rest, -, heq⟩ := hremoval.liesIn
    obtain ⟨above, habove, -⟩ := hdirs _ directory hdirectory
    rw [habove.join_eq, append_assoc] at heq
    refine .removal hdirectory (habove.top_eq_of_prefix hremoval.leads ⟨rest, ?_⟩) hremoval.kind_eq
    exact (append_cancel_left heq).symm

section NextTarget

variable (h : Setting w reports managed) (hdirs : managed.StayOutside) (ht : t.WellFormed)
  (hroot : t.bytesAt w.root = none) (hrun : w.run previous t reports managed = .ok p)
include h hdirs ht hroot hrun

theorem exists_isFor : ∀ a ∈ p.completed, ∃ report ∈ reports, IsFor managed report a := by
  intro a ha
  obtain ⟨report, q, plan, hplanned, hmem⟩ := run_completed hrun a ha
  have hholds := hplanned.holds h ht hroot
  exact ⟨report, hplanned.mem, hplanned.isFor h hdirs hholds.wellFormed hholds.root a hmem⟩

variable (hok : ∀ r ∈ p.done, r.ok = true) {next : TargetReport}
  (hspares : ∀ report ∈ reports, report.Spares managed next) {manifest : Manifest}
include hok hspares

theorem planOutput_of_run {f : OutputFile} (hf : f ∈ next.outputs)
    (hleads : Path.Leads f.path names) (hout : IsOutside names) {planned : Action × List Text}
    (hplan : (p.context w manifest).planOutput next.target f = .ok planned) :
    ((p.context w manifest).inTree t).planOutput next.target f = .ok planned := by
  obtain ⟨found, hfound⟩ := exists_entry?_of_planOutput hplan
  have hlocation : (p.context w manifest).location f.path = w.root ++ names := hleads.join_eq w.root
  have hentry : p.tree.entry? (w.root ++ names) = .ok found := by
    rw [← hlocation]
    exact mapError_eq_ok.mp hfound
  obtain ⟨htallies, hholds⟩ := holds_of_run h ht hroot hrun
  cases hledger : p.ledger.hasPath f.path with
  | true =>
    have hwrote : Action.Wrote p.completed f.path := by
      by_contra hnot
      rw [← hasPath_eq_false_iff htallies, hledger] at hnot
      cases hnot
    have hshared : f.ownership ≠ .sharedKeys := by
      obtain ⟨a, ha, hpersists, hpath⟩ := hwrote
      obtain ⟨report, hreport, hfor⟩ := exists_isFor h hdirs ht hroot hrun a ha
      cases hfor with
      | write hmem hsame _ =>
        rcases (hspares report hreport).outputs _ hmem f hf with ⟨-, hshared⟩ | htop
        · exact hshared
        · exact absurd (congrArg top (hsame.symm.trans hpath)) htop
      | removal _ _ hkind => simp [hkind, ActionKind.persists] at hpersists
    -- The path is that of a file now, so it can be looked along in any tree.
    obtain ⟨names', bytes, hleads', -, hbytes⟩ := hholds.present hwrote
    obtain rfl : names' = names := by rw [← hleads'.names_eq, hleads.names_eq]
    have hproper := h.proper.areProper hleads
    rw [hholds.wellFormed.entry?_eq hproper hentry,
      FileTree.bytesAt_eq_some_iff.mp hbytes] at hentry
    have hshort := ((hholds.wellFormed.entry?_eq_some_iff hproper).mp hentry).2
    obtain ⟨before, hbefore⟩ := t.exists_entry? hproper hshort
    rw [← hlocation] at hbefore
    exact planOutput_inTree_of_hasPath hshared hledger (mapError_eq_ok.mpr hbefore) hplan
  | false =>
    have hapart (a : Action) (ha : a ∈ p.completed) : top a.path ≠ top f.path := by
      obtain ⟨report, hreport, hfor⟩ := exists_isFor h hdirs ht hroot hrun a ha
      cases hfor with
      | write hmem hsame hpersists =>
        rcases (hspares report hreport).outputs _ hmem f hf with ⟨hpath, -⟩ | htop
        · have hnot := (hasPath_eq_false_iff htallies f.path).mp hledger
          exact absurd ⟨a, ha, hpersists, hsame.trans hpath⟩ hnot
        · exact hsame ▸ htop
      | removal hmem htop _ => exact htop ▸ (hspares report hreport).removals _ hmem f hf
    have hbefore := run_entry?_of_apart h ht hroot hrun hok hleads hout hapart hentry
    rw [planOutput_inTree rfl, hplan]
    rw [hfound]
    rw [← hlocation] at hbefore
    exact mapError_eq_ok.mpr hbefore

theorem planStaleIn_of_run {directory : Text} (hmem : directory ∈ managed.of next.target)
    {removals : List (Action × List Text)}
    (hplan : (p.context w manifest).planStaleIn next.target desired directory = .ok removals) :
    ((p.context w manifest).inTree t).planStaleIn next.target desired directory =
      .ok removals := by
  obtain ⟨names, hleads, hout⟩ := hdirs _ directory hmem
  have hlocation : (p.context w manifest).location directory = w.root ++ names :=
    hleads.join_eq w.root
  have hapart (a : Action) (ha : a ∈ p.completed) : top a.path ≠ top directory := by
    obtain ⟨report, hreport, hfor⟩ := exists_isFor h hdirs ht hroot hrun a ha
    cases hfor with
    | write hf hsame _ => exact hsame ▸ (hspares report hreport).written _ hf directory hmem
    | removal hother htop _ => exact htop ▸ (hspares report hreport).managed _ hother directory hmem
  have hisDir : ∃ isDir, p.tree.isDir? (w.root ++ names) = .ok isDir := by
    obtain ⟨isDir, hisDir, -⟩ := bind_eq_ok.mp hplan
    rw [hlocation] at hisDir
    exact ⟨isDir, mapError_eq_ok.mp hisDir⟩
  obtain ⟨isDir, hisDir⟩ := hisDir
  obtain ⟨found, hentry, -⟩ := map_eq_ok.mp hisDir
  have hbefore := run_entry?_of_apart h ht hroot hrun hok hleads hout hapart hentry
  rw [planStaleIn_inTree hlocation (h.proper.areProper hleads) (fun _ => rfl)
    (hbefore.trans hentry.symm)
    (run_filesBelow_eq h ht hroot hrun hok hleads hout hapart).symm, hplan]

/-- The plan of the next target is the one it would have had on the tree before the run. Only what
the ledger says of its paths is taken from the run. -/
theorem plan_of_run {result : Generated} (hresult : next.result = some result)
    (houtside : next.StaysOutside)
    (hplan : (p.context w manifest).plan next.target result.files (managed.of next.target) =
      .ok plan) :
    ((p.context w manifest).inTree t).plan next.target result.files (managed.of next.target) =
      .ok plan := by
  refine plan_inTree ?_ ?_ hplan
  · intro f hf planned hplanned
    obtain ⟨names, hleads, hout⟩ := houtside result hresult f hf
    have hmem : f ∈ next.outputs := by
      rw [TargetReport.outputs, hresult]
      exact hf
    exact planOutput_of_run h hdirs ht hroot hrun hok hspares hmem hleads hout hplanned
  · intro directory hmem removals hplanned
    exact planStaleIn_of_run h hdirs ht hroot hrun hok hspares hmem hplanned

end NextTarget

end Workplace

theorem Progress.ledger_foldl_note (p : Progress) (actions : List Action) :
    (actions.foldl Progress.note p).ledger =
      (actions.filter (·.kind.persists)).foldl Ledger.record p.ledger := by
  induction actions generalizing p with
  | nil => rfl
  | cons a rest ih =>
    rw [foldl_cons, ih, filter_cons, Progress.note]
    by_cases hpersists : a.kind.persists = true
    · simp [hpersists]
    · rw [if_neg hpersists, if_neg hpersists]
      split <;> rfl

def TargetReport.planned (report : TargetReport) : Text × Option Plan :=
  (report.target, report.plan)

namespace Workplace

variable {w : Workplace} {t : FileTree} {previous : Option Manifest} {reports : List TargetReport}
  {managed : ManagedDirs} {p : Progress}

theorem done_of_run (hrun : w.run previous t reports managed = .ok p)
    (hok : ∀ r ∈ p.done, r.ok = true) :
    Forall₂ (fun report done => done.target = report.target ∧
      (report.result.isSome = true → done.plan.isSome = true)) reports p.done := by
  refine run_induct_succeeds (fun before p => Forall₂ (fun report done =>
    done.target = report.target ∧ (report.result.isSome = true → done.plan.isSome = true))
    before p.done) .nil ?_ ?_ hrun hok
  · intro before report q _ hnone hkeeps
    exact rel_append hkeeps (.cons ⟨rfl, by simp [hnone]⟩ .nil)
  · intro before report after q result plan e _ _ _ _ _ hkeeps
    rw [(q.after_unchanged report plan e).2.2]
    exact rel_append hkeeps (.cons ⟨rfl, fun _ => rfl⟩ .nil)

/-- The preview of targets that spare each other comes to the ledger and the plans of a run without
failures. -/
theorem preview_of_run (h : Setting w reports managed) (hdirs : managed.StayOutside)
    (ht : t.WellFormed) (hroot : t.bytesAt w.root = none)
    (hspares : reports.Pairwise (TargetReport.Spares managed))
    (hrun : w.run previous t reports managed = .ok p) (hok : ∀ r ∈ p.done, r.ok = true) :
    ∃ done, reports.foldlM (previewTarget w.root t (previous.getD {}) managed) ([], []) =
        .ok (p.ledger, done) ∧
      done.map TargetReport.planned = p.done.map TargetReport.planned := by
  refine run_induct_succeeds (fun before p => ∃ done,
    before.foldlM (previewTarget w.root t (previous.getD {}) managed) ([], []) =
      .ok (p.ledger, done) ∧ done.map TargetReport.planned = p.done.map TargetReport.planned)
    ⟨[], rfl, rfl⟩ ?_ ?_ hrun hok
  · rintro before report q _ hnone ⟨done, hpreview, hdone⟩
    refine ⟨done ++ [report], ?_, by simp [hdone]⟩
    rw [foldlM_append, hpreview]
    simp [bind, Except.bind, previewTarget, hnone, pure, Except.pure]
  · rintro before report after q result plan e rfl hbefore hearlier - hsucceeds
      ⟨done, hpreview, hdone⟩
    have hspared : ∀ other ∈ before, other.Spares managed report := fun other hother =>
      (pairwise_append.mp hspares).2.2 other hother report mem_cons_self
    have hplan : ((q.context w (previous.getD {})).inTree t).plan report.target result.files
        (managed.of report.target) = .ok plan :=
      plan_of_run (h.mono (subset_append_left _ _)) hdirs ht hroot hbefore hearlier hspared
        hsucceeds.result_eq (h.outputs report (by simp)) hsucceeds.plan_eq
    have hnext : previewTarget w.root t (previous.getD {}) managed (q.ledger, done) report =
        .ok ((q.after report plan e).ledger, done ++ [{ report with plan := some plan }]) := by
      unfold previewTarget
      rw [hsucceeds.result_eq]
      refine bind_eq_ok.mpr ⟨plan, hplan, ?_⟩
      rw [Progress.after, ledger_foldl_note, hsucceeds.completed_eq]
      rfl
    refine ⟨done ++ [{ report with plan := some plan }], ?_, ?_⟩
    · rw [foldlM_append, hpreview]
      exact bind_eq_ok.mpr ⟨_, rfl, bind_eq_ok.mpr ⟨_, hnext, rfl⟩⟩
    · rw [(q.after_unchanged report plan e).2.2, map_append, map_append, hdone]
      rfl

end Workplace

end AgentConfig
