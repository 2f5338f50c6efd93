import AgentConfig.Proofs.Output.Independence
import AgentConfig.Proofs.Output.LastWriter

namespace AgentConfig

open List AgentConfig.Action PlanContext Progress TargetReport

variable {f : OutputFile} {last path : Text}

/-- The text that bytes show, if there are any and they hold a text. -/
def shownText? (found : Option ByteArray) : Option Text :=
  found.bind fun bytes => FileEntry.text? (.file bytes)

/-- What one more text makes of the text that was last written to a path, if any, and of what is
found there. Nothing is written if the text is the last one or, on a path not yet written, the one
that is shown. -/
def leave (state : Option Text × Option ByteArray) (text : Text) : Option Text × Option ByteArray :=
  (some text,
    if (state.1 <|> shownText? state.2) = some text then state.2 else Text.bytes? text)

theorem getLastD_of_forall_eq {texts : List Text} (h : ∀ text ∈ texts, text = last) :
    texts.getLastD last = last := by
  induction texts with
  | nil => rfl
  | cons text rest ih =>
    obtain ⟨rfl, hrest⟩ := forall_mem_cons.mp h
    rw [getLastD_cons, ih hrest]

/-- Once a text was written the path holds what was found until another text comes, and then the
bytes of the last one. -/
theorem foldl_leave (texts : List Text) (last : Text) (found : Option ByteArray) :
    (texts.foldl leave (some last, found)).2 =
      if ∀ text ∈ texts, text = last then found else Text.bytes? (texts.getLastD last) := by
  induction texts generalizing last found with
  | nil => simp
  | cons text rest ih =>
    rw [foldl_cons, leave, ih, getLastD_cons]
    by_cases htext : text = last
    · subst htext
      simp
    have hother : ¬ ∀ other ∈ text :: rest, other = last := fun h => htext (h text (by simp))
    have hwritten : ¬ ((some last <|> shownText? found) = some text) := by
      simpa using Ne.symm htext
    rw [if_neg hother, if_neg hwritten]
    by_cases hrest : ∀ other ∈ rest, other = text
    · rw [if_pos hrest, getLastD_of_forall_eq hrest]
    · rw [if_neg hrest]

theorem foldl_leave_again (texts : List Text) (found : Option ByteArray) :
    (texts.foldl leave (none, (texts.foldl leave (none, found)).2)).2 =
      (texts.foldl leave (none, found)).2 := by
  cases texts with
  | nil => rfl
  | cons text rest =>
    rw [foldl_cons, foldl_cons, leave, leave, foldl_leave, foldl_leave]
    by_cases hrest : ∀ other ∈ rest, other = text
    · simp only [if_pos hrest]
      by_cases hshown : shownText? found = some text
      · simp [hshown]
      · simp [hshown]
    · simp only [if_neg hrest]

namespace PlanContext

variable {c : PlanContext} {target : Text} {f : OutputFile} {a : Action} {warnings : List Text}

/-- When a file is left as it is: the last target that wrote it meant the same text or, on a path
not yet written, the file shows the text. -/
theorem planOutput_status (hplain : f.ownership ≠ .sharedKeys)
    (hplan : c.planOutput target f = .ok (a, warnings)) :
    f.check = .ok () ∧ ∃ found, c.entry? f.path = .ok found ∧
      (a.status = .noop ↔ match c.ledger.get? f.path with
        | some earlier => earlier.content = some f.desired
        | none => found.bind FileEntry.text? = some f.desired) := by
  rw [planOutput_eq_planFile hplain] at hplan
  obtain ⟨hcheck, found, hentry, hstep⟩ := planFile_ok hplan
  refine ⟨hcheck, found, hentry, ?_⟩
  cases hledger : c.ledger.get? f.path with
  | some earlier =>
    rw [hledger] at hstep
    have ha : a = (planShared target f earlier).1 := (congrArg Prod.fst hstep).symm
    by_cases hsame : earlier.content = some f.desired <;> simp [ha, planShared, hsame]
  | none =>
    rw [hledger] at hstep
    have ha : a = (c.planOver target f found).1 := (congrArg Prod.fst hstep).symm
    cases found with
    | none => simp [ha, planOver]
    | some entry =>
      by_cases hsame : entry.text? = some f.desired
      · simp [ha, planOver, hsame]
      · by_cases hneeds : c.needsBackup f.path entry = true <;> simp [ha, planOver, hsame, hneeds]

end PlanContext

theorem Ledger.get?_foldl_record {l : Ledger} {actions : List Action}
    (h : ∀ a ∈ actions, a.path ≠ path) : (actions.foldl record l).get? path = l.get? path := by
  induction actions generalizing l with
  | nil => rfl
  | cons a rest ih =>
    obtain ⟨ha, hrest⟩ := forall_mem_cons.mp h
    rw [foldl_cons, ih hrest, get?_record, if_neg (Ne.symm ha)]

namespace TargetReport

variable {report : TargetReport}

/-- The texts that targets have for a path, in their order. -/
def textsAt (reports : List TargetReport) (path : Text) : List Text :=
  ((reports.flatMap outputs).filter (·.path == path)).map (·.desired)

theorem textsAt_concat (reports : List TargetReport) (report : TargetReport) (path : Text) :
    textsAt (reports ++ [report]) path = textsAt reports path ++ textsAt [report] path := by
  simp [textsAt]

theorem outputs_of_result {result : Generated}
    (h : report.result = some result) : report.outputs = result.files := by
  simp [outputs, h]

theorem textsAt_of_not_mem
    (h : path ∉ report.outputs.map (·.path)) : textsAt [report] path = [] := by
  have hnone : report.outputs.filter (·.path == path) = [] := by
    rw [filter_eq_nil_iff]
    intro f hf hpath
    exact h (mem_map.mpr ⟨f, hf, eq_of_beq hpath⟩)
  simp [textsAt, hnone]

theorem textsAt_of_split {before after : List OutputFile}
    (hfiles : report.outputs = before ++ f :: after)
    (halone : ∀ g ∈ before ++ after, g.path ≠ f.path) : textsAt [report] f.path = [f.desired] := by
  have hnone {files : List OutputFile} (h : ∀ g ∈ files, g.path ≠ f.path) :
      files.filter (·.path == f.path) = [] := by
    rw [filter_eq_nil_iff]
    exact fun g hg hpath => h g hg (eq_of_beq hpath)
  have hbefore := hnone fun g hg => halone g (mem_append_left _ hg)
  have hafter := hnone fun g hg => halone g (mem_append_right _ hg)
  simp [textsAt, hfiles, hbefore, hafter]

/-- The directories that a target manages hold none of the files of another. -/
def KeepsOff (root : List Text) (managed : ManagedDirs) (report other : TargetReport) : Prop :=
  ∀ directory ∈ managed.of report.target, ∀ f ∈ other.outputs, ∀ names,
    Path.Leads f.path names → ¬ LiesIn root directory names

/-- Of two targets, neither manages a directory with files of the other. -/
def AreApart (root : List Text) (managed : ManagedDirs) (report other : TargetReport) : Prop :=
  report.KeepsOff root managed other ∧ other.KeepsOff root managed report

instance (root : List Text) (managed : ManagedDirs) : Std.Symm (AreApart root managed) :=
  ⟨fun _ _ h => h.symm⟩

end TargetReport

namespace Workplace

variable {w : Workplace} {t : FileTree} {previous : Option Manifest} {reports : List TargetReport}
  {managed : ManagedDirs} {report other : TargetReport} {p : Progress} {plan : Plan} {path : Text}
  {names warnings : List Text}

/-- What a run knows of a path: the text it last wrote there, and what is there now. -/
def standing (w : Workplace) (p : Progress) (path : Text) (names : List Text) :
    Option Text × Option ByteArray :=
  ((p.ledger.get? path).bind (·.content), p.tree.bytesAt (w.root ++ names))

/-- Targets that write files of their own: no path is generated twice for one of them, no document
is shared with the user, and none manages a directory with files of another. -/
structure Separates (w : Workplace) (reports : List TargetReport) (dirs : ManagedDirs) : Prop
    extends Setting w reports dirs where
  distinct : ∀ report ∈ reports, report.HasDistinctPaths
  plain : ∀ report ∈ reports, ∀ f ∈ report.outputs, f.ownership ≠ .sharedKeys
  apart : reports.Pairwise (AreApart w.root dirs)

namespace Separates

theorem layout (h : w.Separates reports managed) : w.Layout reports managed :=
  ⟨h.proper, h.outputs, h.distinct,
    fun target directory hmem => (h.managed target directory hmem).1⟩

theorem generates_or_keepsOff (h : w.Separates reports managed) (hother : other ∈ reports)
    (hmem : path ∈ other.outputs.map (·.path)) (hleads : Path.Leads path names)
    (hreport : report ∈ reports) :
    path ∈ report.outputs.map (·.path) ∨
      ∀ directory ∈ managed.of report.target, ¬ LiesIn w.root directory names := by
  by_cases heq : other = report
  · exact .inl (heq ▸ hmem)
  · obtain ⟨f, hf, rfl⟩ := mem_map.mp hmem
    have hapart := h.apart.forall hreport hother (Ne.symm heq)
    exact .inr fun directory hdirectory => hapart.1 directory hdirectory f hf names hleads

section Target

variable (h : w.Separates reports managed) (ht : t.WellFormed) (hroot : t.bytesAt w.root = none)
  (hplanned : w.Planned previous t reports managed report p plan) (hleads : Path.Leads path names)
include h ht hroot hplanned hleads

theorem forall_path_ne (hother : path ∉ report.outputs.map (·.path))
    (hoff : ∀ directory ∈ managed.of report.target, ¬ LiesIn w.root directory names) :
    ∀ a ∈ plan.actions, a.path ≠ path := by
  obtain ⟨-, htree, hdir⟩ := h.layout.planned_sound ht hroot hplanned
  obtain ⟨result, _, _, hresult, _, _, _, hall⟩ := h.plan_inv hplanned htree hdir
  intro a ha hpath
  obtain ⟨place, -, hplans⟩ := hall a ha
  obtain rfl : place = names := by
    rw [← hplans.leads.names_eq, hpath, hleads.names_eq]
  rw [outputs_of_result hresult] at hother
  cases hplans with
  | write hmem _ hwrite =>
    exact hother (mem_map.mpr ⟨_, hmem, hwrite.path_eq.symm.trans hpath⟩)
  | removal hremoval =>
    obtain ⟨directory, hmem, hlies⟩ := hremoval.liesIn
    exact hoff directory hmem hlies

omit hleads in
theorem content_of_get? {earlier : LedgerEntry} (hledger : p.ledger.get? path = some earlier) :
    ∃ text, earlier.content = some text := by
  obtain ⟨before, after, rfl, hreached⟩ := hplanned.reached
  obtain ⟨htallies, -, -⟩ := h.layout.planned_sound ht hroot hplanned
  obtain ⟨a, ha⟩ := Option.isSome_iff_exists.mp
    (isSome_lastWrite?.mpr (wrote_of_get? htallies hledger))
  obtain ⟨hmem, hpersists, -⟩ := lastWrite?_eq_some ha
  obtain ⟨-, text, htext⟩ := h.layout.mono.run_writes ht hroot hreached hmem hpersists
  obtain ⟨noted, hnoted, -, htold, -⟩ := run_tells hreached path a ha
  cases hnoted.symm.trans hledger
  exact ⟨text, htold text htext⟩

theorem status_iff {a : Action} (hpath : f.path = path) (hplain : f.ownership ≠ .sharedKeys)
    (hplan : (p.context w (previous.getD {})).planOutput report.target f = .ok (a, warnings)) :
    a.status = .noop ↔ ((w.standing p path names).1 <|> shownText? (w.standing p path names).2) =
        some f.desired := by
  subst hpath
  obtain ⟨-, htree, -⟩ := h.layout.planned_sound ht hroot hplanned
  obtain ⟨-, found, hentry, hstatus⟩ := planOutput_status hplain hplan
  rw [hstatus, standing]
  cases hledger : p.ledger.get? f.path with
  | some earlier =>
    obtain ⟨text, htext⟩ := h.content_of_get? ht hroot hplanned hledger
    simp [Progress.context, hledger, htext]
  | none =>
    have hlooked := Outcome.mapError_eq_ok.mp hentry
    rw [PlanContext.location, hleads.join_eq] at hlooked
    have hfound : found = p.tree.get? (w.root ++ names) :=
      htree.entry?_eq (h.proper.areProper hleads) hlooked
    have hshown : found.bind FileEntry.text? = shownText? (p.tree.bytesAt (w.root ++ names)) := by
      rw [hfound, FileTree.bytesAt]
      rcases p.tree.get? (w.root ++ names) with _ | _ | _ <;> rfl
    simp [Progress.context, hledger, hshown]

/-- What one more target leaves at a path: what its text for the path makes of what was known of the
path, if it has one. -/
theorem standing_after (hout : IsOutside names) (hoff : path ∈ report.outputs.map (·.path) ∨
      ∀ directory ∈ managed.of report.target, ¬ LiesIn w.root directory names)
    {e : Execution} (he : w.execute p.tree plan.actions = .ok e) (hfailures : e.failures = []) :
    w.standing (p.after report plan e) path names =
      (textsAt [report] path).foldl leave (w.standing p path names) := by
  obtain ⟨htallies, htree, hdir⟩ := h.layout.planned_sound ht hroot hplanned
  have hactions : ∀ a ∈ plan.actions, IsNamed a :=
    fun a ha => (h.isOrdinary ht hroot hplanned a ha).isNamed
  have hcontent := (execute_content h.proper hleads hout htree hactions he).2
  have hcompleted := completed_eq_of_failures_eq_nil he hfailures
  rw [hcompleted] at hcontent
  obtain ⟨result, hresult, -⟩ := hplanned.plans
  have hfiles := outputs_of_result hresult
  by_cases hmem : path ∈ report.outputs.map (·.path)
  · obtain ⟨f, hf, rfl⟩ := mem_map.mp hmem
    obtain ⟨before, after, hsplit⟩ := append_of_mem hf
    rw [hfiles] at hsplit
    have halone := (h.distinct report hplanned.mem).alone hresult hsplit
    obtain ⟨a, warnings, first, last, hplan, hsteps, hother⟩ :=
      hplanned.plan_alone hresult hsplit halone
    have hwrite := planOutput_inv hplan
    have hplain := h.plain report hplanned.mem f hf
    have hpayload : a.payload = some f.desired :=
      (hwrite.plain (by rw [hwrite.kind_eq, if_neg hplain])).2
    rw [textsAt_of_split (hfiles.trans hsplit) halone, foldl_cons, foldl_nil,
      leave, standing, (p.after_unchanged report plan e).1]
    refine Prod.ext ?_ ?_
    · -- the target is the last one to write the path
      have hafter : (p.after report plan e).Tallies (p.completed ++ e.completed) := htallies.after
      have hlast : lastWrite? (p.completed ++ e.completed) f.path = some a := by
        rw [hcompleted, hsteps, ← append_assoc, ← hwrite.path_eq]
        exact lastWrite?_append_cons hwrite.persists fun b hb => hother b (mem_append_right _ hb)
      obtain ⟨noted, hnoted, -, htold, -⟩ := hafter.tells f.path a hlast
      simp only [hnoted, Option.bind_some, htold _ hpayload]
    · have hleft : e.tree.bytesAt (w.root ++ names) =
          if a.status = .noop then p.tree.bytesAt (w.root ++ names)
          else Text.bytes? f.desired := by
        rw [hcontent, hsteps, ← hwrite.path_eq, content_append_cons
          (fun b hb => hother b (mem_append_left _ hb))
          fun b hb => hother b (mem_append_right _ hb), Action.leaves, if_pos rfl,
          if_pos hwrite.persists, hpayload, Option.bind_some]
      rw [hleft]
      refine if_congr (h.status_iff ht hroot hplanned hleads rfl hplain hplan) rfl rfl
  · have hne := h.forall_path_ne ht hroot hplanned hleads hmem (hoff.resolve_left hmem)
    rw [textsAt_of_not_mem hmem, foldl_nil, standing, standing]
    rw [(p.after_unchanged report plan e).1, hcontent, content_of_forall_ne hne]
    rw [Progress.after, hcompleted, ledger_foldl_note, Ledger.get?_foldl_record]
    exact fun a ha => hne a (mem_of_mem_filter ha)

end Target

/-- What a run without failures leaves at a path of one of its targets: what the texts for the path
make of it, one after the other. -/
theorem run_standing (h : w.Separates reports managed) (ht : t.WellFormed)
    (hroot : t.bytesAt w.root = none) (hleads : Path.Leads path names) (hout : IsOutside names)
    (hmem : path ∈ (reports.flatMap TargetReport.outputs).map (·.path))
    (hrun : w.run previous t reports managed = .ok p) (hok : ∀ r ∈ p.done, r.ok = true) :
    w.standing p path names =
      (textsAt reports path).foldl leave (none, t.bytesAt (w.root ++ names)) := by
  obtain ⟨f, hf, rfl⟩ := mem_map.mp hmem
  obtain ⟨writer, hwriter, hf⟩ := mem_flatMap.mp hf
  refine run_induct_succeeds (fun before p => w.standing p f.path names =
    (textsAt before f.path).foldl leave (none, t.bytesAt (w.root ++ names))) rfl ?_ ?_
    hrun hok
  · intro before report q _ hnone hkeeps
    have houtputs : report.outputs = [] := by simp [TargetReport.outputs, hnone]
    rw [textsAt_concat, textsAt_of_not_mem (by simp [houtputs]), append_nil]
    exact hkeeps
  · intro before report after q result plan e _ _ _ hplanned hsucceeds hkeeps
    have hoff := h.generates_or_keepsOff hwriter (mem_map_of_mem hf) hleads hplanned.mem
    rw [h.standing_after ht hroot hplanned hleads hout hoff hsucceeds.execute_eq
      hsucceeds.failures_eq, hkeeps, textsAt_concat, foldl_append]

end Separates

end Workplace

end AgentConfig
