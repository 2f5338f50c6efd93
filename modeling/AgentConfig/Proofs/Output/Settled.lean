import AgentConfig.Proofs.Output.Returns
import AgentConfig.Proofs.Output.Rewriting

namespace AgentConfig

open List Outcome AgentConfig.Action FileTree Manifest AgentConfig.Path PlanContext TargetReport

variable {a : Action} {bytes : ByteArray} {e : Execution} {actions : List Action} {path : Text}

theorem Action.content_of_not_wrote {found : Option ByteArray} (hwrote : ¬ Wrote actions path)
    (h : content actions path found = some bytes) :
    found = some bytes ∧ ∀ a ∈ actions, a.path ≠ path := by
  induction actions generalizing found with
  | nil => exact ⟨h, by simp⟩
  | cons a rest ih =>
    have hrest : ¬ Wrote rest path := fun ⟨b, hb, hwrite⟩ =>
      hwrote ⟨b, mem_cons_of_mem _ hb, hwrite⟩
    obtain ⟨hleft, hne⟩ := ih hrest h
    by_cases hpath : a.path = path
    · have hkind : a.kind.persists = false := by
        by_contra hpersists
        exact hwrote ⟨a, mem_cons_self, by simpa using hpersists, hpath⟩
      simp [leaves, hpath, hkind] at hleft
    · rw [leaves_of_ne hpath] at hleft
      exact ⟨hleft, forall_mem_cons.mpr ⟨hpath, hne⟩⟩

namespace PlanContext

variable {c : PlanContext} {target : Text} {files : List OutputFile}
  {dirs names rest desired : List Text} {plan : Plan} {directory : Text} {bytes : ByteArray}

/-- Where a plan was made, every file of a managed directory was looked at, and lies below the
root. -/
theorem planStaleFile_of_plan (hc : c.IsSound dirs) (hplan : c.plan target files dirs = .ok plan)
    (hmem : directory ∈ dirs) (hne : rest ≠ [])
    (hget : c.tree.get? (c.location directory ++ rest) = some (.file bytes)) :
    ∃ names planned, c.location directory ++ rest = c.root ++ names ∧
      c.planStaleFile target (files.map (·.path)) (c.root ++ names) (.file bytes) =
        .ok planned := by
  obtain ⟨_, -, hplan⟩ := bind_eq_ok.mp hplan
  obtain ⟨_, hremoved, -⟩ := bind_eq_ok.mp hplan
  obtain ⟨_, -, hstale⟩ := exists_of_mapM_eq_ok hremoved hmem
  have hproper := hc.areProper_join hmem
  have hbase : c.tree.get? (c.location directory) = some .dir := hc.tree.get?_above hne hget
  obtain ⟨isDir, hdir, hstale⟩ := bind_eq_ok.mp hstale
  rw [hc.tree.isDir?_eq hproper (mapError_eq_ok.mp hdir), hbase] at hstale
  obtain ⟨location, hlocate, hstale⟩ := bind_eq_ok.mp hstale
  obtain rfl := locate_eq hproper (mapError_eq_ok.mp hlocate)
  obtain ⟨_, hfound, -⟩ := bind_eq_ok.mp hstale
  have hbelow : (rest, bytes) ∈ c.tree.filesBelow (c.location directory) :=
    hc.tree.mem_filesBelow_iff.mpr ⟨hne, hget⟩
  obtain ⟨planned, -, hfile⟩ := exists_of_mapM_eq_ok hfound hbelow
  obtain ⟨_, hpath, -⟩ := bind_eq_ok.mp hfile
  obtain ⟨names, hplace, -⟩ := pathOf_inv hpath
  exact ⟨names, planned, hplace, hplace ▸ hfile⟩

theorem checkEntry_of_planStaleFile {planned : Option (Action × List Text)}
    (hplan : c.planStaleFile target desired (c.root ++ names) (.file bytes) = .ok planned)
    (hdesired : relative names ∉ desired) (hfresh : c.ledger.hasPath (relative names) = false)
    (hrecorded : c.isAsRecorded (relative names) (.file bytes) = false) :
    checkEntry (relative names) (.file bytes) = .ok () := by
  rw [planStaleFile, pathOf_append] at hplan
  obtain ⟨_, hpath, hplan⟩ := bind_eq_ok.mp hplan
  cases hpath
  have hkept : (desired.contains (relative names) ||
      c.ledger.hasPath (relative names)) = false := by
    simpa [hfresh] using hdesired
  rw [hkept, if_neg Bool.false_ne_true, hrecorded, if_neg Bool.false_ne_true] at hplan
  obtain ⟨⟨⟩, hcheck, -⟩ := bind_eq_ok.mp hplan
  exact hcheck

end PlanContext

namespace Workplace

variable {w : Workplace} {t : FileTree} {previous : Option Manifest}
  {reports before : List TargetReport} {managed : ManagedDirs} {report : TargetReport}
  {p : Progress} {plan : Plan} {path : Text} {names place : List Text}

theorem Planned.mem_outputs (hplanned : w.Planned previous t reports managed report p plan)
    (hwrote : Wrote plan.actions path) : path ∈ report.outputs.map (·.path) := by
  obtain ⟨a, ha, hpersists, rfl⟩ := hwrote
  obtain ⟨result, hresult, hplan⟩ := hplanned.plans
  obtain ⟨f, hf, warnings, houtput⟩ := exists_planOutput hplan ha hpersists
  rw [outputs_of_result hresult]
  exact mem_map.mpr ⟨f, hf, (planOutput_inv houtput).path_eq.symm⟩

def outputPaths (reports : List TargetReport) : List Text :=
  (reports.flatMap TargetReport.outputs).map (·.path)

theorem mem_outputPaths_of_mem (hreport : report ∈ reports)
    (hpath : path ∈ report.outputs.map (·.path)) : path ∈ outputPaths reports := by
  obtain ⟨f, hf, rfl⟩ := mem_map.mp hpath
  exact mem_map_of_mem (mem_flatMap.mpr ⟨report, hreport, hf⟩)

theorem mem_outputPaths_append {after : List TargetReport} (hpath : path ∈ outputPaths before) :
    path ∈ outputPaths (before ++ after) := by
  rw [outputPaths, flatMap_append, map_append]
  exact mem_append_left _ hpath

theorem mem_outputPaths_of_wrote (hrun : w.run previous t reports managed = .ok p)
    (hwrote : Wrote p.completed path) : path ∈ outputPaths reports := by
  obtain ⟨a, ha, hwrite⟩ := hwrote
  obtain ⟨report, q, plan, hplanned, hmem⟩ := run_completed hrun a ha
  exact mem_outputPaths_of_mem hplanned.mem (hplanned.mem_outputs ⟨a, hmem, hwrite⟩)

/-- The files in the directories that targets manage lie below the root. Those other than the ones
that were generated are not left by a build, and it could be told that they are not. -/
def IsCleared (w : Workplace) (manifest : Manifest) (managed : ManagedDirs)
    (reports targets : List TargetReport) (t : FileTree) : Prop :=
  ∀ report ∈ targets, report.result.isSome = true → ∀ directory ∈ managed.of report.target,
    ∀ rest bytes, rest ≠ [] → t.bytesAt (w.location directory ++ rest) = some bytes →
    ∃ names, w.location directory ++ rest = w.root ++ names ∧
      (relative names ∉ outputPaths reports →
        ¬ manifest.Generated (relative names) bytes ∧
          checkEntry (relative names) (.file bytes) = .ok ())

theorem execute_beyond (hw : w.IsProper) (ht : t.WellFormed) (hactions : ∀ a ∈ actions, IsNamed a)
    (he : w.execute t actions = .ok e) (hplace : ¬ w.root <+: place) :
    e.tree.bytesAt place = t.bytesAt place := by
  refine (execute_keeps_tree (fun u => u.WellFormed ∧ u.bytesAt place = t.bytesAt place)
    ⟨ht, rfl⟩ ?_ he).2
  rintro u a ha ⟨hu, hsame⟩
  obtain ⟨names, hleads⟩ := (hactions a ha).leads
  obtain ⟨hwell, hother⟩ := perform_elsewhere hw hu hleads (hactions a ha).kind
  refine ⟨hwell, (hother (fun h => hplace ⟨names, h.symm⟩) ?_).trans hsame⟩
  rintro (rfl | ⟨name, -, rfl⟩) <;> exact hplace (by simp [copyRoot, append_assoc])

namespace Separates

section Target

variable (h : w.Separates reports managed) (ht : t.WellFormed) (hroot : t.bytesAt w.root = none)
  (hplanned : w.Planned previous t reports managed report p plan) {directory : Text}
  (hmem : directory ∈ managed.of report.target) {rest : List Text} (hne : rest ≠ [])
  {bytes : ByteArray}
include h ht hroot hplanned hmem hne

theorem exists_names_of_planned
    (hbytes : p.tree.bytesAt (w.location directory ++ rest) = some bytes) :
    ∃ names, w.location directory ++ rest = w.root ++ names := by
  obtain ⟨-, htree, hdir⟩ := h.layout.planned_sound ht hroot hplanned
  obtain ⟨result, -, hplan⟩ := hplanned.plans
  obtain ⟨names, -, hplace, -⟩ := planStaleFile_of_plan
    (h.toSetting.isSound htree hdir) hplan hmem hne (bytesAt_eq_some_iff.mp hbytes)
  exact ⟨names, hplace⟩

/-- A file on which a plan has no action is not left by a build, unless it was generated. -/
theorem not_generated_of_planned (hplace : w.location directory ++ rest = w.root ++ names)
    (hnot : relative names ∉ outputPaths reports)
    (hbytes : p.tree.bytesAt (w.root ++ names) = some bytes)
    (hother : ∀ a ∈ plan.actions, a.path ≠ relative names) :
    ¬ (previous.getD {}).Generated (relative names) bytes ∧
      checkEntry (relative names) (.file bytes) = .ok () := by
  obtain ⟨htallies, htree, hdir⟩ := h.layout.planned_sound ht hroot hplanned
  have hget := bytesAt_eq_some_iff.mp hbytes
  have hlies : LiesIn w.root directory names := ⟨rest, hne, hplace.symm⟩
  have hleads : Leads (relative names) names := by
    refine leads_relative ?_ (htree.areProper_below hget)
    rintro rfl
    rw [append_nil, hdir] at hbytes
    cases hbytes
  obtain ⟨before, after, hreports, hreached⟩ := hplanned.reached
  have hearlier : ¬ Wrote p.completed (relative names) := fun hwrote =>
    hnot (hreports ▸ mem_outputPaths_append (mem_outputPaths_of_wrote hreached hwrote))
  have hfresh := (hasPath_eq_false_iff htallies _).mpr hearlier
  obtain ⟨result, _, removals, hresult, hsplit, _, hremovals, _⟩ := h.plan_inv hplanned htree hdir
  have hdesired : relative names ∉ result.files.map (·.path) := fun hmem =>
    hnot (mem_outputPaths_of_mem hplanned.mem (outputs_of_result hresult ▸ hmem))
  have hgenerated : ¬ (previous.getD {}).Generated (relative names) bytes := by
    intro hgenerated
    let c := p.context w (previous.getD {})
    refine hother (c.planRemoval report.target (relative names) (.file bytes)).1 ?_ rfl
    rw [hsplit]
    refine mem_append_right _ ((hremovals _).mpr ⟨names, bytes, ?_⟩)
    exact ⟨hleads, hget, ⟨directory, hmem, hlies⟩, hdesired, hfresh,
      isGenerated_iff.mpr hgenerated, rfl⟩
  refine ⟨hgenerated, ?_⟩
  obtain ⟨_, hresult', hplan⟩ := hplanned.plans
  cases hresult.symm.trans hresult'
  obtain ⟨others, planned, hothers, hfile⟩ := planStaleFile_of_plan
    (h.toSetting.isSound htree hdir) hplan hmem hne (hplace ▸ hget)
  obtain rfl : names = others := append_cancel_left (hplace.symm.trans hothers)
  refine checkEntry_of_planStaleFile hfile hdesired hfresh ?_
  rw [Bool.eq_false_iff]
  exact fun hrecorded => hgenerated (.inl (isAsRecorded_iff.mp hrecorded))

end Target

/-- A target whose actions are all completed clears the directories that it manages, and what was
cleared stays so. -/
theorem isCleared_after (h : w.Separates reports managed) (ht : t.WellFormed)
    (hroot : t.bytesAt w.root = none)
    (hplanned : w.Planned previous t reports managed report p plan)
    (hcleared : w.IsCleared (previous.getD {}) managed reports before p.tree)
    (he : w.execute p.tree plan.actions = .ok e) (hfailures : e.failures = []) :
    w.IsCleared (previous.getD {}) managed reports (before ++ [report]) e.tree := by
  obtain ⟨-, htree, hdir⟩ := h.layout.planned_sound ht hroot hplanned
  have hactions : ∀ a ∈ plan.actions, IsNamed a :=
    fun a ha => (h.isOrdinary ht hroot hplanned a ha).isNamed
  have htries := tries_of_execute h.proper htree hdir hactions he
  intro target htarget hsome directory hmem rest bytes hne hbytes
  by_cases hbelow : w.root <+: w.location directory ++ rest
  · obtain ⟨names, hplace⟩ := hbelow
    refine ⟨names, hplace.symm, fun hnot => ?_⟩
    rw [← hplace] at hbytes
    have hleads : Leads (relative names) names := by
      refine leads_relative ?_
        (htries.wellFormed.areProper_of_bytesAt (hbytes ▸ Option.some_ne_none bytes))
      rintro rfl
      rw [append_nil, htries.root] at hbytes
      cases hbytes
    -- nothing was done on the path, or else there would be no file
    have hunwritten : ¬ Wrote plan.actions (relative names) := fun hwrote =>
      hnot (mem_outputPaths_of_mem hplanned.mem (hplanned.mem_outputs hwrote))
    rw [(execute_content h.proper hleads (h.managed.isOutside hmem ⟨rest, hne, hplace⟩) htree
      hactions he).2, completed_eq_of_failures_eq_nil he hfailures] at hbytes
    obtain ⟨hbytes, hother⟩ := content_of_not_wrote hunwritten hbytes
    rcases mem_append.mp htarget with htarget | htarget
    · obtain ⟨others, hothers, hclear⟩ :=
        hcleared target htarget hsome directory hmem rest bytes hne (hplace ▸ hbytes)
      obtain rfl : names = others := append_cancel_left (hplace.trans hothers)
      exact hclear hnot
    · obtain rfl := mem_singleton.mp htarget
      exact h.not_generated_of_planned ht hroot hplanned hmem hne hplace.symm hnot hbytes hother
  · rw [execute_beyond h.proper htree hactions he hbelow] at hbytes
    have hnames : ∃ names, w.location directory ++ rest = w.root ++ names := by
      rcases mem_append.mp htarget with htarget | htarget
      · obtain ⟨names, hplace, -⟩ :=
          hcleared target htarget hsome directory hmem rest bytes hne hbytes
        exact ⟨names, hplace⟩
      · obtain rfl := mem_singleton.mp htarget
        exact h.exists_names_of_planned ht hroot hplanned hmem hne hbytes
    obtain ⟨names, hplace⟩ := hnames
    exact absurd ⟨names, hplace.symm⟩ hbelow

theorem run_isCleared (h : w.Separates reports managed) (ht : t.WellFormed)
    (hroot : t.bytesAt w.root = none) (hrun : w.run previous t reports managed = .ok p)
    (hok : ∀ r ∈ p.done, r.ok = true) :
    w.IsCleared (previous.getD {}) managed reports reports p.tree := by
  refine run_induct_succeeds (fun before p =>
    w.IsCleared (previous.getD {}) managed reports before p.tree) (by simp [IsCleared]) ?_ ?_
    hrun hok
  · intro before report q _ hnone hkeeps target htarget hsome
    rcases mem_append.mp htarget with htarget | htarget
    · exact hkeeps target htarget hsome
    · rw [mem_singleton.mp htarget, hnone] at hsome
      cases hsome
  · intro before report after q result plan e _ _ _ hplanned hsucceeds hkeeps
    rw [(q.after_unchanged report plan e).1]
    exact h.isCleared_after ht hroot hplanned hkeeps hsucceeds.execute_eq hsucceeds.failures_eq

end Separates

theorem Layout.run_encodes (h : w.Layout reports managed) (ht : t.WellFormed)
    (hroot : t.bytesAt w.root = none) (hrun : w.run previous t reports managed = .ok p) :
    ∀ a ∈ p.completed, a.kind.persists = true →
      ∃ text bytes, a.payload = some text ∧ Text.bytes? text = some bytes := by
  refine (run_keeps (fun _ actions => ∀ a ∈ actions, a.kind.persists = true →
    ∃ text bytes, a.payload = some text ∧ Text.bytes? text = some bytes) (by simp) ?_ hrun).2
  intro report q plan e hplanned htallies hkeeps he
  obtain ⟨-, htree, hdir⟩ := h.planned_sound ht hroot hplanned
  obtain ⟨_, _, _, -, -, -, -, hnamed⟩ := h.plan_inv hplanned htree hdir
  have htries := tries_of_execute h.proper htree hdir hnamed he
  intro a ha hpersists
  rcases mem_append.mp ha with ha | ha
  · exact hkeeps a ha hpersists
  by_cases hnoop : a.status = .noop
  · obtain ⟨result, -, hplan⟩ := hplanned.plans
    obtain ⟨f, -, warnings, houtput⟩ :=
      exists_planOutput hplan (htries.sublist.mem ha) hpersists
    obtain ⟨text, htext⟩ := (planOutput_inv houtput).payload
    rcases planOutput_noop houtput hnoop with
      ⟨earlier, hledger, hsame⟩ | ⟨entry, -, hsame⟩
    · -- the last target that wrote the path meant the same text
      obtain ⟨b, hb⟩ := Option.isSome_iff_exists.mp
        (isSome_lastWrite?.mpr (wrote_of_get? htallies hledger))
      obtain ⟨hmem, hwrites, -⟩ := lastWrite?_eq_some hb
      obtain ⟨written, bytes, hpayload, hbytes⟩ := hkeeps b hmem hwrites
      obtain ⟨_, _, -, hreached⟩ := hplanned.reached
      obtain ⟨noted, hnoted, -, htold, -⟩ := run_tells hreached f.path b hb
      cases hnoted.symm.trans hledger
      exact ⟨written, bytes, hsame.symm.trans (htold written hpayload), hbytes⟩
    · rw [htext] at hsame
      cases entry with
      | dir => cases hsame
      | file found =>
        obtain ⟨bytes, hbytes⟩ :=
          (Text.isChars_readText (FileEntry.text?_eq_some_iff.mp hsame)).exists_bytes
        exact ⟨text, bytes, htext, hbytes⟩
  · obtain ⟨⟨text, bytes, htext, hbytes⟩, -⟩ := htries.encodes a ha hpersists hnoop
    exact ⟨text, bytes, htext, hbytes⟩

namespace Separates

theorem run_plain (h : w.Separates reports managed)
    (hrun : w.run previous t reports managed = .ok p) (ha : a ∈ p.completed)
    (hpersists : a.kind.persists = true) : a.kind = .writeText ∧ a.ownedKeys = none := by
  obtain ⟨report, q, plan, hplanned, hmem⟩ := run_completed hrun a ha
  obtain ⟨result, hresult, hplan⟩ := hplanned.plans
  obtain ⟨f, hf, warnings, houtput⟩ := exists_planOutput hplan hmem hpersists
  have hwrite := planOutput_inv houtput
  have hkind : a.kind = .writeText := by
    rw [hwrite.kind_eq, if_neg (h.plain report hplanned.mem f (outputs_of_result hresult ▸ hf))]
  exact ⟨hkind, (hwrite.plain hkind).1⟩

theorem run_completes (h : w.Separates reports managed)
    (hrun : w.run previous t reports managed = .ok p) (hok : ∀ r ∈ p.done, r.ok = true) :
    ∀ report ∈ reports, ∀ f ∈ report.outputs, f.check = .ok () ∧
      ∃ a ∈ p.completed, a.kind = .writeText ∧ a.path = f.path ∧ a.payload = some f.desired := by
  refine run_induct_succeeds (fun before p => ∀ report ∈ before, ∀ f ∈ report.outputs,
    f.check = .ok () ∧ ∃ a ∈ p.completed, a.kind = .writeText ∧ a.path = f.path ∧
      a.payload = some f.desired) (by simp) ?_ ?_ hrun hok
  · intro before report q _ hnone hkeeps target htarget f hf
    rcases mem_append.mp htarget with htarget | htarget
    · exact hkeeps target htarget f hf
    · simp [mem_singleton.mp htarget, TargetReport.outputs, hnone] at hf
  · intro before report after q result plan e _ _ _ hplanned hsucceeds hkeeps target htarget f hf
    rw [(q.after_unchanged report plan e).2.1, hsucceeds.completed_eq]
    rcases mem_append.mp htarget with htarget | htarget
    · obtain ⟨hcheck, a, ha, hwrite⟩ := hkeeps target htarget f hf
      exact ⟨hcheck, a, mem_append_left _ ha, hwrite⟩
    obtain rfl := mem_singleton.mp htarget
    have hplain := h.plain target hplanned.mem f hf
    rw [outputs_of_result hsucceeds.result_eq] at hf
    obtain ⟨others, more, hfiles⟩ := append_of_mem hf
    obtain ⟨a, warnings, first, last, houtput, hactions, -⟩ :=
      hplanned.plan_alone hsucceeds.result_eq hfiles
        ((h.distinct target hplanned.mem).alone hsucceeds.result_eq hfiles)
    have hwrite := planOutput_inv houtput
    have hkind : a.kind = .writeText := by rw [hwrite.kind_eq, if_neg hplain]
    exact ⟨(planOutput_status hplain houtput).1, a, by simp [hactions], hkind,
      hwrite.path_eq, (hwrite.plain hkind).2⟩

end Separates

theorem run_flawless (hrun : w.run previous t reports managed = .ok p)
    (hok : ∀ r ∈ p.done, r.ok = true) :
    ∀ report ∈ reports, report.error = none ∧ (report.result = none → report.ok = true) := by
  have hdone : ∀ report ∈ reports, ∃ r ∈ p.done, r.error = report.error ∧
      (report.result = none → r = report) := by
    refine run_induct_succeeds (fun before p => ∀ report ∈ before, ∃ r ∈ p.done,
      r.error = report.error ∧ (report.result = none → r = report)) (by simp) ?_ ?_ hrun hok
    · intro before report q _ _ hkeeps target htarget
      rcases mem_append.mp htarget with htarget | htarget
      · obtain ⟨r, hr, hsame⟩ := hkeeps target htarget
        exact ⟨r, mem_append_left _ hr, hsame⟩
      · exact ⟨target, mem_append_right _ htarget, rfl, fun _ => rfl⟩
    · intro before report after q result plan e _ _ _ _ hsucceeds hkeeps target htarget
      rw [(q.after_unchanged report plan e).2.2]
      rcases mem_append.mp htarget with htarget | htarget
      · obtain ⟨r, hr, hsame⟩ := hkeeps target htarget
        exact ⟨r, mem_append_left _ hr, hsame⟩
      · obtain rfl := mem_singleton.mp htarget
        refine ⟨_, mem_append_right _ (mem_singleton_self _), rfl, fun hnone => ?_⟩
        cases hnone.symm.trans hsucceeds.result_eq
  intro report hreport
  obtain ⟨r, hr, herror, hsame⟩ := hdone report hreport
  have hrok := hok r hr
  refine ⟨?_, fun hnone => hsame hnone ▸ hrok⟩
  rw [TargetReport.ok, Bool.and_eq_true, Option.isNone_iff_eq_none, herror] at hrok
  exact hrok.1

end Workplace

theorem Digest.isChars_sha256 (bytes : ByteArray) : (Digest.sha256 bytes).IsChars := by
  intro l hl
  obtain ⟨word, -, hl⟩ := mem_flatMap.mp hl
  exact Text.isChars_ofChars _ l hl

namespace Manifest

theorem get?_of_mem {m : Manifest} (hdistinct : m.paths.Nodup) {e : ManifestEntry}
    (he : e ∈ m.files) : m.get? e.path = some e := by
  cases hfind : m.get? e.path with
  | none => simpa using find?_eq_none.mp hfind e he
  | some found =>
    have hpath : found.path = e.path := by simpa using find?_some hfind
    rw [inj_on_of_nodup_map hdistinct (mem_of_find?_eq_some hfind) he hpath]

theorem not_isTooLong_of_written? {root names : List Text} {t : FileTree} (ht : t.WellFormed)
    (hroot : AreProper root) (hleads : Leads path names)
    (hbytes : t.bytesAt (root ++ names) = some bytes) {entry : Option ManifestEntry}
    (h : written? root t path a = .ok entry) : ¬ IsTooLong (root ++ names) := by
  obtain ⟨found, hfound, -⟩ := bind_eq_ok.mp h
  rw [hleads.join_eq] at hfound
  obtain ⟨seen, hseen, -⟩ := map_eq_ok.mp (mapError_eq_ok.mp hfound)
  have hproper : AreProper (root ++ names) := hroot.append hleads.proper
  have hget := bytesAt_eq_some_iff.mp hbytes
  rw [ht.entry?_eq hproper hseen, hget] at hseen
  exact (ht.entry?_eq_some_iff hproper).mp hseen |>.2

end Manifest

namespace Workplace

/-- What a build without failures leaves for the next one: each file that was generated is there as
the manifest records it, and the directories that targets manage are cleared. -/
structure IsSettled (w : Workplace) (m : Manifest) (managed : ManagedDirs)
    (reports : List TargetReport) (t : FileTree) : Prop where
  wellFormed : t.WellFormed
  root : t.bytesAt w.root = none
  flawless : ∀ report ∈ reports, report.error = none ∧ (report.result = none → report.ok = true)
  written : ∀ report ∈ reports, ∀ f ∈ report.outputs, f.check = .ok () ∧
    (∃ bytes, Text.bytes? f.desired = some bytes) ∧
    ∃ names bytes, Leads f.path names ∧ ¬ IsTooLong (w.root ++ names) ∧
      t.bytesAt (w.root ++ names) = some bytes ∧ m.Records f.path bytes
  cleared : w.IsCleared m managed reports reports t

section Saved

variable {w : Workplace} {t t' : FileTree} {previous : Option Manifest}
  {reports : List TargetReport} {managed : ManagedDirs} {p : Progress} {manifest : Manifest}
  (h : w.Separates reports managed) (ht : t.WellFormed) (hroot : t.bytesAt w.root = none)
  (hload : Manifest.load t w.root = .ok previous)
  (hrun : w.run previous t reports managed = .ok p)
  (hmanifest : p.manifest w.root previous = .ok manifest)
include h ht hroot hload hrun hmanifest

theorem Separates.joined_eq {e : ManifestEntry} (he : e ∈ manifest.files) : e.joined = e := by
  obtain ⟨htallies, hholds⟩ := holds_of_run h.toSetting ht hroot hrun
  rcases hholds.mem_manifest h.proper htallies hmanifest he with
    he | ⟨a, hlast, names, bytes, hleads, -, hbytes, hchecksum, hkeys⟩
  · exact joined_of_load ht h.proper.root hload e he
  obtain ⟨hmem, hpersists, -⟩ := lastWrite?_eq_some hlast
  rw [(h.run_plain hrun hmem hpersists).2, Option.map_none] at hkeys
  have hnames := hholds.wellFormed.isFileName (bytesAt_eq_some_iff.mp hbytes)
  have hpath : Json.joinHalves e.path = e.path := by
    refine (hleads.hasNoFirstHalf fun name hname => ?_).joinHalves_eq
    exact hnames name (mem_append_right _ hname)
  have hdigest : Json.joinHalves e.checksum = e.checksum := by
    rw [hchecksum]
    exact (Json.isJoined_of_isChars (Digest.isChars_sha256 bytes)).joinHalves_eq
  rw [ManifestEntry.joined, hpath, hdigest, hkeys, Option.map_none, ← hkeys]

theorem Separates.files_joined : manifest.joined.files = Manifest.sorted manifest.files := by
  have hsame : ∀ e ∈ Manifest.sorted manifest.files, e.joined = id e := fun e he =>
    h.joined_eq ht hroot hload hrun hmanifest (mem_sorted.mp he)
  rw [Manifest.joined, map_congr_left hsame, map_id]

variable (hdistinct : (previous.getD {}).paths.Nodup)
include hdistinct

theorem Separates.nodup_joined : manifest.joined.paths.Nodup := by
  have hend := holds_of_run h.toSetting ht hroot hrun
  obtain ⟨hnodup, -⟩ := hend.2.manifest_inv h.proper hend.1 hdistinct hmanifest
  rw [Manifest.paths, h.files_joined ht hroot hload hrun hmanifest]
  exact (((mergeSort_perm _ _).map _).nodup_iff).mpr hnodup

/-- What was left by a build for the next one was left by the last one, or is written by it. -/
theorem Separates.generated_of_joined (hgenerated : manifest.joined.Generated path bytes)
    (hnot : ¬ Wrote p.completed path) : (previous.getD {}).Generated path bytes := by
  rcases hgenerated with ⟨e, hget, hchecksum⟩ | hmarked
  · have hend := holds_of_run h.toSetting ht hroot hrun
    obtain ⟨-, hlisted, -⟩ := hend.2.manifest_inv h.proper hend.1 hdistinct hmanifest
    have hpath : e.path = path := by simpa using find?_some hget
    have he := mem_of_find?_eq_some hget
    rw [h.files_joined ht hroot hload hrun hmanifest, mem_sorted, hlisted, hpath] at he
    rcases he with ⟨he, -⟩ | ⟨a, hlast, -⟩
    · exact .inl ⟨e, hpath ▸ get?_of_mem hdistinct he, hchecksum⟩
    · exact absurd (isSome_lastWrite?.mp (hlast ▸ rfl)) hnot
  · exact .inr hmarked

variable (hok : ∀ r ∈ p.done, r.ok = true) (hsave : manifest.save p.tree w.root = .ok t')
include hok hsave

theorem Separates.isSettled : w.IsSettled manifest.joined managed reports t' := by
  obtain ⟨htallies, hholds⟩ := holds_of_run h.toSetting ht hroot hrun
  have hchange := h.changesAt_of_save ht hroot hrun hsave
  have hrootNe : w.root ≠ w.root ++ Manifest.names := by simp [Manifest.names]
  refine ⟨hchange.wellFormed, (hchange.elsewhere hrootNe).trans hholds.root,
    run_flawless hrun hok, fun report hreport f hf => ?_, ?_⟩
  · obtain ⟨hcheck, a, ha, hkind, hpath, hpayload⟩ := h.run_completes hrun hok report hreport f hf
    have hpersists : a.kind.persists = true := by rw [hkind]; rfl
    obtain ⟨text, new, htext, hnew⟩ := h.layout.run_encodes ht hroot hrun a ha hpersists
    cases hpayload.symm.trans htext
    obtain ⟨b, hlast⟩ := Option.isSome_iff_exists.mp
      (isSome_lastWrite?.mpr ⟨a, ha, hpersists, hpath⟩)
    obtain ⟨e, hepath, hentry⟩ := hholds.exists_entry hlast
    obtain ⟨-, hlisted, -⟩ := hholds.manifest_inv h.proper htallies hdistinct hmanifest
    have he : e ∈ manifest.joined.files := by
      rw [h.files_joined ht hroot hload hrun hmanifest, mem_sorted, hlisted, hepath]
      exact .inr ⟨b, hlast, hentry⟩
    have hget := get?_of_mem (h.nodup_joined ht hroot hload hrun hmanifest hdistinct) he
    obtain ⟨names, bytes, hleads, hout, hbytes, hchecksum, -⟩ := hentry
    rw [hepath] at hget hleads
    obtain ⟨old, -, hmanifest⟩ := bind_eq_ok.mp hmanifest
    obtain ⟨new', hnew', -⟩ := bind_eq_ok.mp hmanifest
    obtain ⟨entry, -, hwritten⟩ :=
      exists_of_mapM_eq_ok hnew' (htallies.mem_persisted_iff.mpr hlast)
    refine ⟨hcheck, ⟨new, hnew⟩, names, bytes, hleads, ?_, ?_, e, hget, hchecksum⟩
    · exact not_isTooLong_of_written? hholds.wellFormed h.proper.root hleads hbytes hwritten
    · rw [hchange.elsewhere (hout.ne_manifest w.root), hbytes]
  · intro report hreport hsome directory hmem rest bytes hne hbytes
    have hplace : w.location directory ++ rest ≠ w.root ++ Manifest.names := fun heq =>
      h.managed.isOutside hmem ⟨rest, hne, heq.symm⟩ rfl
    rw [hchange.elsewhere hplace] at hbytes
    obtain ⟨names, hnames, hclear⟩ :=
      h.run_isCleared ht hroot hrun hok report hreport hsome directory hmem rest bytes hne hbytes
    refine ⟨names, hnames, fun hnot => ?_⟩
    obtain ⟨hgenerated, hcheck⟩ := hclear hnot
    refine ⟨fun hfound => hgenerated ?_, hcheck⟩
    exact h.generated_of_joined ht hroot hload hrun hmanifest hdistinct hfound fun hwrote =>
      hnot (mem_outputPaths_of_wrote hrun hwrote)

end Saved

end Workplace

end AgentConfig
