import AgentConfig.Proofs.Platform.Paths

namespace AgentConfig.Workplace

open List Outcome FileTree AgentConfig.Path PlanContext

variable {w : Workplace} {t u : FileTree} {place : List Text}

/-- An action that does nothing to the file of `place` but remove it. -/
structure Spares (place : List Text) (a : Action) (names : List Text) : Prop where
  leads : Leads a.path names
  outside : IsOutside names
  kind : a.kind ≠ .removeKeys
  removes : names = place → a.kind = .removeFile

/-- The failure to remove the file of `place` is told. -/
def Tells (w : Workplace) (place : List Text) (failures : List Text) : Prop :=
  ∃ fault : FileFault,
    (Failure.outputWrite (Path.absolute (w.root ++ place)) fault.text).message ∈ failures

section Execute

variable {a : Action} {names : List Text} {actions pending : List Action} {e e' : Execution}
  (hw : w.IsProper) (hcopies : ¬ IsBelowCopies place)
include hw hcopies

theorem Spares.perform (h : Spares place a names) (ht : t.WellFormed) :
    (w.perform t a).tree.bytesAt (w.root ++ place) = t.bytesAt (w.root ++ place) ∨
      ((w.perform t a).tree.bytesAt (w.root ++ place) = none ∧ a.path = relative place) := by
  by_cases hnames : place = names
  · subst hnames
    rw [perform_of_removeFile (h.removes rfl)]
    cases hresult : (w.performRemoval t a).result with
    | ok changed =>
      exact .inr ⟨performRemoval_completed hw ht h.leads hresult, h.leads.path_eq⟩
    | error fault => exact .inl (performRemoval_failed hw ht h.leads h.outside hresult)
  · exact .inl ((perform_effect hw ht h.leads h.outside h.kind).bytesAt_spared hcopies hnames)

/-- What holds between the actions of a plan that spare a file, which was there at first: it stays
or is removed, and a removal that was tried has done so or is told. -/
structure Sparing (w : Workplace) (t : FileTree) (place : List Text) (actions : List Action)
    (e : Execution) (pending : List Action) : Prop where
  wellFormed : e.tree.WellFormed
  root : e.tree.bytesAt w.root = t.bytesAt w.root
  spares : ∀ a ∈ pending, a ∈ actions ∧ ∃ names, Spares place a names
  kept : e.tree.bytesAt (w.root ++ place) = t.bytesAt (w.root ++ place) ∨
    (e.tree.bytesAt (w.root ++ place) = none ∧ ∃ a ∈ actions, a.path = relative place)
  tried : ∀ a ∈ actions, a.path = relative place →
    a ∈ pending ∨ e.tree.bytesAt (w.root ++ place) = none ∨
      (w.Tells place e.failures ∧ (a.backup = true ∨ IsTooLong (w.root ++ place)))

section

variable (h : Sparing w t place actions e (a :: pending))
include h

theorem Sparing.kept_step :
    (w.perform e.tree a).tree.bytesAt (w.root ++ place) = t.bytesAt (w.root ++ place) ∨
      ((w.perform e.tree a).tree.bytesAt (w.root ++ place) = none ∧
        ∃ a ∈ actions, a.path = relative place) := by
  obtain ⟨ha, names, hspares⟩ := h.spares a mem_cons_self
  rcases hspares.perform hw hcopies h.wellFormed with hsame | ⟨hnone, hpath⟩
  · rw [hsame]
    exact h.kept
  · exact .inr ⟨hnone, a, ha, hpath⟩

theorem Sparing.stays_none (hnone : e.tree.bytesAt (w.root ++ place) = none) :
    (w.perform e.tree a).tree.bytesAt (w.root ++ place) = none := by
  obtain ⟨-, names, hspares⟩ := h.spares a mem_cons_self
  rcases hspares.perform hw hcopies h.wellFormed with hsame | ⟨h, -⟩
  · rw [hsame, hnone]
  · exact h

theorem Sparing.step (htree : e'.tree = (w.perform e.tree a).tree)
    (hfailures : e.failures ⊆ e'.failures)
    (htold : Spares place a place → e'.tree.bytesAt (w.root ++ place) = none ∨
      (w.Tells place e'.failures ∧ (a.backup = true ∨ IsTooLong (w.root ++ place))))
    (hplace : AreProper place) : Sparing w t place actions e' pending := by
  obtain ⟨ha, names, hspares⟩ := h.spares a mem_cons_self
  have heffect := perform_effect hw h.wellFormed hspares.leads hspares.outside hspares.kind
  refine ⟨?_, ?_, ?_, ?_, ?_⟩
  · rw [htree]
    exact heffect.wellFormed
  · rw [htree, heffect.bytesAt_root hspares.leads.ne_nil, h.root]
  · exact fun b hb => h.spares b (mem_cons_of_mem _ hb)
  · rw [htree]
    exact h.kept_step hw hcopies
  · intro b hb hpath
    rcases h.tried b hb hpath with hpending | hnone | ⟨⟨fault, hmem⟩, hreason⟩
    · rcases mem_cons.mp hpending with rfl | hpending
      · obtain rfl : names = place := relative_injective hspares.leads.proper hplace
          (hspares.leads.path_eq.symm.trans hpath)
        exact .inr (htold hspares)
      · exact .inl hpending
    · exact .inr (.inl (by rw [htree]; exact h.stays_none hw hcopies hnone))
    · exact .inr (.inr ⟨⟨fault, hfailures hmem⟩, hreason⟩)

end

theorem execute_sparing (hplace : AreProper place) (ht : t.WellFormed)
    (hactions : ∀ a ∈ actions, ∃ names, Spares place a names) :
    Yields (fun e => Sparing w t place actions e [])
      (fun halt => halt.tree.bytesAt (w.root ++ place) = t.bytesAt (w.root ++ place) ∨
        (halt.tree.bytesAt (w.root ++ place) = none ∧ ∃ a ∈ actions, a.path = relative place))
      (w.execute t actions) := by
  refine execute_induct (Sparing w t place actions)
    (fun u => u.bytesAt (w.root ++ place) = t.bytesAt (w.root ++ place) ∨
      (u.bytesAt (w.root ++ place) = none ∧ ∃ a ∈ actions, a.path = relative place))
    ?_ ?_ (fun h => h.kept_step hw hcopies) ?_
  · intro e a rest changed e' h hresult htree _ hfailures
    refine h.step hw hcopies htree (by simp [hfailures]) ?_ hplace
    intro hspares
    rw [perform_of_removeFile (hspares.removes rfl)] at hresult htree
    rw [htree]
    exact .inl (performRemoval_completed hw h.wellFormed hspares.leads hresult)
  · intro e a rest fault e' h hresult hsystem htree _ hfailures
    refine h.step hw hcopies htree (by simp [hfailures]) ?_ hplace
    intro hspares
    cases hbytes : e.tree.bytesAt (w.root ++ place) with
    | none => exact .inl (by rw [htree]; exact h.stays_none hw hcopies hbytes)
    | some bytes =>
      rw [perform_of_removeFile (hspares.removes rfl)] at hresult
      obtain ⟨⟨f, rfl⟩, hreason⟩ :=
        performRemoval_refused hw h.wellFormed hspares.leads hbytes hresult
      refine .inr ⟨⟨f, ?_⟩, hreason⟩
      rw [hfailures, faultText, w.location_eq hspares.leads]
      simp
  · exact ⟨ht, rfl, fun a ha => ⟨ha, hactions a ha⟩, .inl rfl, fun a ha _ => .inl ha⟩

end Execute

section Run

variable {previous : Option Manifest} {reports before done post pre : List TargetReport}
  {managed : ManagedDirs} {report last r : TargetReport} {bytes : ByteArray} {p p' : Progress}
  {plan : Plan}

/-- A target manages a directory in which the file lies, and a build has left the file there. -/
def Manages (w : Workplace) (previous : Option Manifest) (managed : ManagedDirs)
    (place : List Text) (bytes : ByteArray) (report : TargetReport) : Prop :=
  (∃ directory ∈ managed.of report.target, LiesIn w.root directory place) ∧
    (previous.getD {}).Generated (relative place) bytes

/-- A target of the run is planned and manages the file. -/
def Owns (w : Workplace) (previous : Option Manifest) (t : FileTree) (reports : List TargetReport)
    (managed : ManagedDirs) (place : List Text) (bytes : ByteArray) (report : TargetReport) :
    Prop :=
  (∃ p plan, w.Planned previous t reports managed report p plan) ∧
    w.Manages previous managed place bytes report

/-- The report of a target tells that the file could not be removed: it is not as recorded, so that
it had to be copied first, or its path is too long. -/
def Reported (w : Workplace) (previous : Option Manifest) (place : List Text) (bytes : ByteArray)
    (report : TargetReport) (done : List TargetReport) : Prop :=
  (∃ d ∈ done, d.target = report.target ∧ w.Tells place d.failures) ∧
    (¬ (previous.getD {}).Records (relative place) bytes ∨ IsTooLong (w.root ++ place))

/-- No target writes the file. -/
def Unwritten (reports : List TargetReport) (place : List Text) : Prop :=
  ∀ report ∈ reports, ∀ result, report.result = some result →
    ∀ f ∈ result.files, f.path ≠ relative place

/-- The file is as it was, or gone because a target owned it. -/
def IsKept (w : Workplace) (previous : Option Manifest) (t : FileTree) (reports : List TargetReport)
    (managed : ManagedDirs) (place : List Text) (bytes : ByteArray) (t' : FileTree) : Prop :=
  t'.bytesAt (w.root ++ place) = some bytes ∨ (t'.bytesAt (w.root ++ place) = none ∧
      ∃ report, w.Owns previous t reports managed place bytes report)

/-- What holds between the targets of a run, `before` being those that are done: the file is kept,
and of the targets that manage it each has removed it or reports that it could not. -/
structure Spared (w : Workplace) (previous : Option Manifest) (t : FileTree)
    (reports : List TargetReport) (managed : ManagedDirs) (place : List Text) (bytes : ByteArray)
    (before : List TargetReport) (p : Progress) : Prop where
  wellFormed : p.tree.WellFormed
  root : p.tree.bytesAt w.root = none
  tallies : p.Tallies p.completed
  unwritten : ¬ Action.Wrote p.completed (relative place)
  kept : w.IsKept previous t reports managed place bytes p.tree
  settled : ∀ {pre report post q plan}, before = pre ++ report :: post →
    w.run previous t pre managed = .ok q → q.PlansNext w (previous.getD {}) managed report plan →
    w.Manages previous managed place bytes report →
    p.tree.bytesAt (w.root ++ place) = none ∨ w.Reported previous place bytes report p.done

variable (h : Setting w reports managed) (hplace : Path.AreProper place) (hne : place ≠ [])
  (hcopies : ¬ IsBelowCopies place) (hunwritten : Unwritten reports place)

include h hunwritten in
theorem Planned.spares (hplanned : w.Planned previous t reports managed report p plan)
    (htree : p.tree.WellFormed) (hroot : p.tree.bytesAt w.root = none) :
    ∀ a ∈ plan.actions, ∃ names, Spares place a names := by
  obtain ⟨result, -, -, hresult, -, -, -, hall⟩ := h.plan_inv hplanned htree hroot
  intro a ha
  obtain ⟨names, hout, hplans⟩ := hall a ha
  refine ⟨names, hplans.leads, hout, hplans.kind_ne, ?_⟩
  rintro rfl
  cases hplans with
  | write hmem hleads hplan =>
    exact absurd (hplan.path_eq.symm.trans hleads.path_eq)
      (hunwritten report hplanned.mem result hresult _ hmem)
  | removal hplan => exact hplan.kind_eq

section Planned

variable (hplanned : w.Planned previous t reports managed report p plan)
  (htree : p.tree.WellFormed) (hroot : p.tree.bytesAt w.root = none)
  (hbytes : p.tree.bytesAt (w.root ++ place) = some bytes)
include h hplace hunwritten hplanned htree hroot hbytes

theorem Planned.manages {a : Action} (ha : a ∈ plan.actions)
    (hpath : a.path = relative place) : w.Manages previous managed place bytes report := by
  obtain ⟨result, -, -, hresult, -, -, -, hall⟩ := h.plan_inv hplanned htree hroot
  obtain ⟨names, -, hplans⟩ := hall a ha
  obtain rfl : names = place := relative_injective hplans.leads.proper hplace
    (hplans.leads.path_eq.symm.trans hpath)
  cases hplans with
  | write hmem hleads hplan =>
    exact absurd (hplan.path_eq.symm.trans hpath)
      (hunwritten report hplanned.mem result hresult _ hmem)
  | removal hplan =>
    have hget := bytesAt_eq_some_iff.mpr hplan.get?_eq
    obtain rfl := Option.some.inj (hget.symm.trans hbytes)
    exact ⟨hplan.liesIn, hpath ▸ isGenerated_iff.mp hplan.generated⟩

include hne in
/-- A file that the target of a plan manages is removed by it, with a copy unless the file is as
recorded. -/
theorem Planned.exists_removal (hnot : p.ledger.hasPath (relative place) = false)
    (hmanages : w.Manages previous managed place bytes report) :
    ∃ a ∈ plan.actions, a.path = relative place ∧
      (a.backup = true → ¬ (previous.getD {}).Records (relative place) bytes) := by
  obtain ⟨result, writes, removals, hresult, hactions, -, hremovals, -⟩ :=
    h.plan_inv hplanned htree hroot
  let c := p.context w (previous.getD {})
  let a := (c.planRemoval report.target (relative place) (.file bytes)).1
  have hremoval : c.PlansRemoval report.target (result.files.map (·.path))
      (managed.of report.target) a place bytes := by
    refine ⟨leads_relative hne hplace, bytesAt_eq_some_iff.mp hbytes, hmanages.1, ?_,
      hnot, isGenerated_iff.mpr hmanages.2, rfl⟩
    intro hmem
    obtain ⟨f, hf, hpath⟩ := mem_map.mp hmem
    exact hunwritten report hplanned.mem result hresult f hf hpath
  refine ⟨a, ?_, rfl, ?_⟩
  · rw [hactions]
    exact mem_append_right _ ((hremovals a).mpr ⟨place, bytes, hremoval⟩)
  intro hbackup hrecords
  have hrecorded : c.isAsRecorded (relative place) (.file bytes) = true :=
    isAsRecorded_iff.mpr hrecords
  simp [a, planRemoval, hrecorded] at hbackup

end Planned

omit h in
theorem Reported.append (more : TargetReport)
    (hreported : w.Reported previous place bytes report done) :
    w.Reported previous place bytes report (done ++ [more]) := by
  obtain ⟨⟨d, hd, htells⟩, hreason⟩ := hreported
  exact ⟨⟨d, mem_append_left _ hd, htells⟩, hreason⟩

private theorem eq_append_singleton (h : before ++ [last] = pre ++ r :: post) :
    (before = pre ∧ last = r) ∨ ∃ rest, before = pre ++ r :: rest := by
  rcases eq_nil_or_concat post with rfl | ⟨rest, x, rfl⟩
  · obtain ⟨hbefore, hlast⟩ := append_inj' h rfl
    exact .inl ⟨hbefore, by simpa using hlast⟩
  · rw [concat_eq_append, ← cons_append, ← append_assoc] at h
    exact .inr ⟨rest, (append_inj' h rfl).1⟩

section Step

variable {before after : List TargetReport} (hreports : reports = before ++ report :: after)
  (hbefore : w.run previous t before managed = .ok p)
  (hspared : w.Spared previous t reports managed place bytes before p)
include h hplace hunwritten hreports hbefore hspared

theorem Spared.kept_planned (hplans : p.PlansNext w (previous.getD {}) managed report plan)
    (hkept : u.bytesAt (w.root ++ place) = p.tree.bytesAt (w.root ++ place) ∨
      (u.bytesAt (w.root ++ place) = none ∧ ∃ a ∈ plan.actions, a.path = relative place)) :
    w.IsKept previous t reports managed place bytes u := by
  have hplanned : w.Planned previous t reports managed report p plan :=
    ⟨⟨before, after, hreports, hbefore⟩, hplans⟩
  rcases hkept with hsame | ⟨hnone, a, ha, hpath⟩
  · rw [IsKept, hsame]
    exact hspared.kept
  refine .inr ⟨hnone, ?_⟩
  rcases hspared.kept with hbytes | ⟨-, howns⟩
  · exact ⟨report, ⟨p, plan, hplanned⟩, hplanned.manages h hplace hunwritten hspared.wellFormed
      hspared.root hbytes ha hpath⟩
  · exact howns

include hne in
theorem Spared.planned (hplans : p.PlansNext w (previous.getD {}) managed report plan)
    {e : Execution} (hexecute : w.execute p.tree plan.actions = .ok e)
    (he : Sparing w p.tree place plan.actions e []) :
    w.Spared previous t reports managed place bytes (before ++ [report])
      (p.after report plan e) := by
  obtain ⟨htree, hcompleted, hdone⟩ := p.after_unchanged report plan e
  have hplanned : w.Planned previous t reports managed report p plan :=
    ⟨⟨before, after, hreports, hbefore⟩, hplans⟩
  have hgone (hnone : p.tree.bytesAt (w.root ++ place) = none) :
      (p.after report plan e).tree.bytesAt (w.root ++ place) = none := by
    rw [htree]
    rcases he.kept with hsame | ⟨h, -⟩
    · rw [hsame, hnone]
    · exact h
  refine ⟨htree ▸ he.wellFormed, ?_, hcompleted ▸ hspared.tallies.after, ?_, ?_, ?_⟩
  · rw [htree, he.root, hspared.root]
  · rw [hcompleted]
    rintro ⟨a, ha, hpersists, hpath⟩
    rcases mem_append.mp ha with ha | ha
    · exact hspared.unwritten ⟨a, ha, hpersists, hpath⟩
    obtain ⟨names, hspares⟩ := hplanned.spares h hunwritten hspared.wellFormed hspared.root a
      (execute_completed hexecute a ha)
    have hremove := hspares.removes (relative_injective hspares.leads.proper hplace
      (hspares.leads.path_eq.symm.trans hpath))
    simp [hremove, ActionKind.persists] at hpersists
  · rw [htree]
    exact hspared.kept_planned h hplace hunwritten hreports hbefore hplans he.kept
  · intro pre r post q plan' hsplit hrun hnext hmanages
    rcases eq_append_singleton hsplit with ⟨rfl, rfl⟩ | ⟨rest, hrest⟩
    · cases hbytes : p.tree.bytesAt (w.root ++ place) with
      | none => exact .inl (hgone hbytes)
      | some found =>
        obtain rfl : found = bytes := by
          rcases hspared.kept with hkept | ⟨hkept, -⟩
          · exact Option.some.inj (hbytes.symm.trans hkept)
          · rw [hbytes] at hkept
            cases hkept
        have hledger := (hasPath_eq_false_iff hspared.tallies _).mpr hspared.unwritten
        obtain ⟨a, ha, hpath, hbackup⟩ := hplanned.exists_removal h hplace hne hunwritten
          hspared.wellFormed hspared.root hbytes hledger hmanages
        rcases he.tried a ha hpath with hpending | hnone | ⟨htells, hreason⟩
        · cases hpending
        · exact .inl (htree ▸ hnone)
        · refine .inr ⟨⟨Progress.reportOf report plan e, by simp [hdone], rfl, htells⟩, ?_⟩
          exact hreason.imp_left hbackup
    · rcases hspared.settled hrest hrun hnext hmanages with hnone | hreported
      · exact .inl (hgone hnone)
      · exact .inr (hdone ▸ hreported.append _)

omit h hplace hunwritten hreports in
theorem Spared.skipped (hnone : ∀ plan, ¬ p.PlansNext w (previous.getD {}) managed report plan)
    (done : TargetReport) :
    w.Spared previous t reports managed place bytes (before ++ [report])
      { p with done := p.done ++ [done] } := by
  refine ⟨hspared.wellFormed, hspared.root, ?_, hspared.unwritten, hspared.kept, ?_⟩
  · exact hspared.tallies.congr rfl rfl rfl
  intro pre r post q plan hsplit hrun hnext hmanages
  rcases eq_append_singleton hsplit with ⟨rfl, rfl⟩ | ⟨rest, hrest⟩
  · cases hbefore.symm.trans hrun
    exact absurd hnext (hnone plan)
  · exact (hspared.settled hrest hrun hnext hmanages).imp_right (·.append done)

end Step

variable (previous) in
include h hplace hne hcopies hunwritten in
/-- A run keeps the file, unless a target owns it. Each target that owns it has removed it, or
reports that it could not. -/
theorem run_spared (ht : t.WellFormed) (hroot : t.bytesAt w.root = none)
    (hbytes : t.bytesAt (w.root ++ place) = some bytes) :
    Yields (w.Spared previous t reports managed place bytes reports)
      (fun halt => w.IsKept previous t reports managed place bytes halt.tree)
      (w.run previous t reports managed) := by
  refine run_induct_targets (w.Spared previous t reports managed place bytes)
    (w.IsKept previous t reports managed place bytes) ?_ ?_
  · refine ⟨ht, hroot, .start t, ?_, .inl hbytes, ?_⟩
    · rintro ⟨a, ha, -⟩
      cases ha
    · intro pre r post q plan hsplit
      simp at hsplit
  · intro before report after p hreports hbefore hspared
    rcases Progress.writeTarget_cases w (previous.getD {}) managed p report with
      ⟨plan, hplans, hcase⟩ | ⟨failure, hhalt⟩ | ⟨done, hskip, -, hnone⟩
    · have hplanned : w.Planned previous t reports managed report p plan :=
        ⟨⟨before, after, hreports, hbefore⟩, hplans⟩
      have hsparing := execute_sparing h.proper hcopies hplace hspared.wellFormed
        (hplanned.spares h hunwritten hspared.wellFormed hspared.root)
      rw [hcase]
      cases hexecute : w.execute p.tree plan.actions with
      | error halt =>
        rw [hexecute] at hsparing
        exact hspared.kept_planned h hplace hunwritten hreports hbefore hplans hsparing
      | ok e =>
        rw [hexecute] at hsparing
        exact hspared.planned h hplace hne hunwritten hreports hbefore hplans hexecute hsparing
    · rw [hhalt]
      exact hspared.kept
    · rw [hskip]
      exact hspared.skipped hbefore hnone done

end Run

/-- A file that no target writes, and that is neither the manifest nor a copy, keeps its bytes, or
it is gone and belonged to a target that was planned. When the build returns, each such target has
removed it, or the file is as it was and the report of the target tells why. -/
theorem write_touches_only_what_it_owns (targets : Targets) {bytes : ByteArray} (hw : w.IsProper)
    (ht : t.WellFormed) (hne : place ≠ []) (hfile : t.bytesAt (w.root ++ place) = some bytes)
    (hunwritten : Unwritten targets.reports place) (hmanifest : place ≠ Manifest.names)
    (hcopies : ¬ IsBelowCopies place) :
    ((w.treeAfter t targets.reports targets.managed).bytesAt (w.root ++ place) = some bytes ∨
      ((w.treeAfter t targets.reports targets.managed).bytesAt (w.root ++ place) = none ∧
        ∃ previous report, Manifest.load t w.root = .ok previous ∧
          w.Owns previous t targets.reports targets.managed place bytes report)) ∧
    ∀ {build t' previous report}, w.write t targets.reports targets.managed = .ok (build, t') →
      Manifest.load t w.root = .ok previous →
      w.Owns previous t targets.reports targets.managed place bytes report →
      t'.bytesAt (w.root ++ place) = none ∨
        (t'.bytesAt (w.root ++ place) = some bytes ∧
          w.Reported previous place bytes report build.targets) := by
  have hget := FileTree.bytesAt_eq_some_iff.mp hfile
  have hplace : Path.AreProper place := ht.areProper_below hget
  have hroot : t.bytesAt w.root = none := FileTree.bytesAt_of_dir (ht.get?_above hne hget)
  have hmanifest' : w.root ++ place ≠ w.root ++ Manifest.names :=
    fun heq => hmanifest (List.append_cancel_left heq)
  have hrun (previous : Option Manifest) :=
    run_spared previous (targets.setting hw) hplace hne hcopies hunwritten ht hroot hfile
  constructor
  · rcases @IsProper.treeAfter_cases w t targets.reports targets.managed hw with
      hsame | ⟨previous, hload, hafter⟩
    · exact Or.inl (by rw [hsame, hfile])
    · have hkept : w.IsKept previous t targets.reports targets.managed place bytes
          (w.treeAfter t targets.reports targets.managed) := by
        have hrun := hrun previous
        cases hresult : w.run previous t targets.reports targets.managed with
        | ok p =>
          rw [hresult] at hrun hafter
          rw [IsKept, (hafter hrun.wellFormed).elsewhere hmanifest']
          exact hrun.kept
        | error halt =>
          rw [hresult] at hrun hafter
          rw [hafter]
          exact hrun
      exact hkept.imp_right fun ⟨hnone, report, howns⟩ => ⟨hnone, previous, report, hload, howns⟩
  · rintro build t' previous report hwrite hload ⟨⟨p, plan, hplanned⟩, hmanages⟩
    obtain ⟨_, q, saved, hload', hresult, -, hsave, htargets⟩ := write_ok hwrite
    cases hload.symm.trans hload'
    have hspared := hrun previous
    rw [hresult] at hspared
    have hchange := hw.save_changesAt hspared.wellFormed saved
    rw [hsave] at hchange
    obtain ⟨before, after, hreports, hbefore⟩ := hplanned.reached
    rw [hchange.elsewhere hmanifest', htargets]
    rcases hspared.kept with hkept | ⟨hnone, -⟩
    · exact (hspared.settled hreports hbefore hplanned.plans hmanages).imp_right fun h => ⟨hkept, h⟩
    · exact Or.inl hnone

/-- A generated file that nothing generates any more. -/
def stalePlace : List Text := [".claude", "rules", "old.md"]

@[inherit_doc stalePlace]
def staleBytes : ByteArray :=
  (Text.bytes? (OutputFile.desired ⟨".claude/rules/old.md", "x", .full⟩)).getD ⟨#[]⟩

@[inherit_doc stalePlace]
def staleWorkplace : Workplace := ⟨["p"], "S"⟩

/-- A project without guidance, and with a stale file in a directory that a target manages. -/
def staleTree : FileTree :=
  ⟨[(staleWorkplace.root ++ stalePlace, .file staleBytes), (["p", ".claude", "rules"], .dir),
    (["p", ".claude"], .dir),
    (["p", ".agentrc", "config.yaml"], .ofText "version: \"1\"\n"),
    (["p", ".agentrc"], .dir), (["p"], .dir)]⟩

/-- The same project with a file where the copies of a run are to be kept. -/
def blockedTree : FileTree := staleTree.put ["p", ".agentrc", ".backup"] (.file ⟨#[]⟩)

/-- Whether the target is planned in a tree, does not write the stale file, and the build returns
with a tree that passes a check. -/
def isStaleBuild (t : FileTree) (check : FileTree → Bool) (s : Source) : Bool :=
  let files := (Profile.claude.generate s.guidance).files
  checks (fun _ => true)
    ((Progress.context staleWorkplace {} { tree := t }).plan "claude" files
      Profile.claude.managedDirs) &&
  (files.all fun f => f.path != relative stalePlace) &&
  checks (fun r => check r.2) (staleWorkplace.write t
    [{ target := "claude", result := some (Profile.claude.generate s.guidance) }]
    [("claude", Profile.claude.managedDirs)])

private theorem exists_staleBuild (ht : t.isPlain = true) (check : FileTree → Bool)
    (h : checks (isStaleBuild t check) (Source.load t staleWorkplace.root) = true) :
    ∃ (targets : Targets) (report : TargetReport) (build : BuildReport) (t' : FileTree),
      Unwritten targets.reports stalePlace ∧
      staleWorkplace.Owns none t targets.reports targets.managed stalePlace staleBytes report ∧
      staleWorkplace.write t targets.reports targets.managed = .ok (build, t') ∧
      check t' = true := by
  obtain ⟨s, hload, hbuild⟩ := exists_of_checks h
  simp only [isStaleBuild, Bool.and_eq_true] at hbuild
  obtain ⟨⟨hplan, hfiles⟩, hwrite⟩ := hbuild
  obtain ⟨plan, hplan, -⟩ := exists_of_checks hplan
  obtain ⟨⟨build, t'⟩, hreturned, hcheck⟩ := exists_of_checks hwrite
  have hmarked : checks (Marker.has (relative stalePlace))
      (Text.readText staleBytes) = true := by decide +kernel
  obtain ⟨text, hread, hmarker⟩ := exists_of_checks hmarked
  let targets := Targets.single Profile.claude rfl
    ⟨t, staleWorkplace.root, wellFormed_of_isPlain ht, hload⟩
  refine ⟨targets, Project.generate s.guidance Profile.claude.toPlatform, build, t', ?_, ?_,
    hreturned, hcheck⟩
  · intro report hreport result hresult f hf
    obtain rfl := mem_singleton.mp hreport
    cases hresult
    simpa using all_eq_true.mp hfiles f hf
  · refine ⟨⟨{ tree := t }, plan, ⟨[], [], rfl, rfl⟩, _, rfl, hplan⟩, ?_,
      .inr ⟨text, hread, hmarker⟩⟩
    have hdirectory : (".claude/rules" : Text) ∈ Profile.claude.managedDirs := by decide +kernel
    exact ⟨".claude/rules", hdirectory, ["old.md"], by decide, by decide +kernel⟩

theorem write_touches_only_what_it_owns_of_stale :
    ∃ (targets : Targets) (report : TargetReport) (build : BuildReport) (t' : FileTree),
      staleTree.bytesAt (staleWorkplace.root ++ stalePlace) = some staleBytes ∧
      Unwritten targets.reports stalePlace ∧
      staleWorkplace.Owns none staleTree targets.reports targets.managed stalePlace staleBytes
        report ∧
      staleWorkplace.write staleTree targets.reports targets.managed = .ok (build, t') ∧
      (t'.bytesAt (staleWorkplace.root ++ stalePlace) = none ∨
        (t'.bytesAt (staleWorkplace.root ++ stalePlace) = some staleBytes ∧
          staleWorkplace.Reported none stalePlace staleBytes report build.targets)) := by
  have hproper : staleWorkplace.IsProper := isProper_of_isPlain (by decide +kernel)
  have hplain : staleTree.isPlain = true := by decide +kernel
  have hfile : staleTree.bytesAt (staleWorkplace.root ++ stalePlace) = some staleBytes := by rfl
  obtain ⟨targets, report, build, t', hunwritten, howns, hwrite, -⟩ :=
    exists_staleBuild hplain (fun _ => true) (by decide +kernel)
  exact ⟨targets, report, build, t', hfile, hunwritten, howns, hwrite,
    (write_touches_only_what_it_owns targets hproper (FileTree.wellFormed_of_isPlain hplain)
      (by decide) hfile hunwritten (by decide +kernel) (by decide +kernel)).2 hwrite rfl howns⟩

/-- A stale file stays, though its target is planned and manages it, when it cannot be copied. -/
theorem stale_file_stays_without_copy :
    ∃ (targets : Targets) (report : TargetReport) (build : BuildReport) (t' : FileTree),
      Unwritten targets.reports stalePlace ∧
      staleWorkplace.Owns none blockedTree targets.reports targets.managed stalePlace staleBytes
        report ∧
      staleWorkplace.write blockedTree targets.reports targets.managed = .ok (build, t') ∧
      t'.bytesAt (staleWorkplace.root ++ stalePlace) = some staleBytes := by
  obtain ⟨targets, report, build, t', hunwritten, howns, hwrite, hbytes⟩ :=
    exists_staleBuild (t := blockedTree) (by decide +kernel)
      (fun t' => decide (t'.bytesAt (staleWorkplace.root ++ stalePlace) = some staleBytes))
      (by decide +kernel)
  exact ⟨targets, report, build, t', hunwritten, howns, hwrite, of_decide_eq_true hbytes⟩

end AgentConfig.Workplace
