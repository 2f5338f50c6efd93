import AgentConfig.Proofs.Output.Settings

namespace AgentConfig

open List Outcome AgentConfig.Action PlanContext

namespace Action

variable {a : Action} {actions before after : List Action} {path : Text}

/-- The last action in a list on a path. -/
def last? (actions : List Action) (path : Text) : Option Action :=
  actions.reverse.find? (·.path == path)

theorem last?_append_of_forall_ne (hafter : ∀ b ∈ after, b.path ≠ path) :
    last? (before ++ after) path = last? before path := by
  have hnone : after.reverse.find? (·.path == path) = none := by
    rw [find?_eq_none]
    intro b hb
    simp [hafter b (mem_reverse.mp hb)]
  rw [last?, reverse_append, find?_append, hnone, Option.none_or]
  rfl

theorem last?_append_cons (hafter : ∀ b ∈ after, b.path ≠ a.path) :
    last? (before ++ a :: after) a.path = some a := by
  rw [← singleton_append, ← append_assoc, last?_append_of_forall_ne hafter]
  simp [last?]

theorem lastWrite?_of_last? (hlast : last? actions path = some a) (ha : a.kind.persists = true) :
    lastWrite? actions path = some a := by
  obtain ⟨hpath, rest, earlier, hactions, hrest⟩ := find?_eq_some_iff_append.mp hlast
  refine find?_eq_some_iff_append.mpr ⟨by simp [ha, hpath], rest, earlier, hactions, ?_⟩
  simp_all

end Action

namespace Workplace

variable {w : Workplace} {t : FileTree} {previous : Option Manifest} {reports : List TargetReport}
  {managed : ManagedDirs} {report : TargetReport} {p : Progress} {plan : Plan} {e : Execution}
  {a : Action} {path : Text} {names : List Text}

/-- A file holds the text of the last completed action on its path, up to line ends. -/
structure Shows (w : Workplace) (t : FileTree) (completed : List Action) (path : Text)
    (names : List Text) (a : Action) (text : Text) (bytes : ByteArray) : Prop where
  last_eq : Action.last? completed path = some a
  persists : a.kind.persists = true
  payload_eq : a.payload = some text
  bytes_eq : t.bytesAt (w.root ++ names) = some bytes
  reads : Text.readText bytes = .ok text.newlines

section

variable (h : w.Layout reports managed)
  (hplanned : w.Planned previous t reports managed report p plan) (htree : p.tree.WellFormed)
  (hroot : p.tree.bytesAt w.root = none)
include h hplanned htree hroot

theorem Layout.completed_alone (hsub : e.completed.Sublist plan.actions) (ha : a ∈ e.completed)
    (hpersists : a.kind.persists = true) :
    ∃ f warnings before after,
      (p.context w (previous.getD {})).planOutput report.target f = .ok (a, warnings) ∧
      e.completed = before ++ a :: after ∧ ∀ b ∈ before ++ after, b.path ≠ a.path := by
  obtain ⟨result, writes, removals, hresult, hactions, hwrites, hremovals, -⟩ :=
    h.plan_inv hplanned htree hroot
  have hwritten : a ∈ writes := by
    have hmem := hsub.mem ha
    rw [hactions] at hmem
    refine (mem_append.mp hmem).resolve_right fun hremoval => ?_
    simp [(hremovals a hremoval).1, ActionKind.persists] at hpersists
  obtain ⟨f, hf, hwrite⟩ := exists_of_forall₂ hwrites hwritten
  obtain ⟨others, more, hfiles⟩ := append_of_mem hf
  obtain ⟨b, warnings, first, last, hb, hplan, hother⟩ := hplanned.plan_alone hresult hfiles
    ((h.distinct report hplanned.mem).alone hresult hfiles)
  have hpath : a.path = b.path :=
    hwrite.path_eq.trans (planOutput_inv hb).path_eq.symm
  obtain rfl : a = b := by
    have hmem := hsub.mem ha
    rw [hplan] at hmem
    by_contra hne
    refine hother a ?_ hpath
    simpa [hne] using hmem
  -- Of the actions around it, those that were completed are on other paths too.
  rw [hplan] at hsub
  obtain ⟨before, tail, hsplit, hbefore, htail⟩ := sublist_append_iff.mp hsub
  rcases sublist_cons_iff.mp htail with hlater | ⟨after, rfl, hafter⟩
  · rw [hsplit] at ha
    exact absurd rfl (hother a ((hbefore.append hlater).mem ha))
  · exact ⟨f, warnings, before, after, hb, hsplit,
      fun c hc => hother c ((hbefore.append hafter).mem hc)⟩

theorem Layout.shows_of_execute (hleads : Path.Leads path names) (hout : IsOutside names)
    (htallies : p.Tallies p.completed)
    (hshows : Wrote p.completed path →
      ∃ b text bytes, w.Shows p.tree p.completed path names b text bytes)
    (he : w.execute p.tree plan.actions = .ok e) (ha : a ∈ e.completed)
    (hpersists : a.kind.persists = true) (hpath : a.path = path) :
    ∃ text bytes, w.Shows e.tree (p.completed ++ e.completed) path names a text bytes := by
  subst hpath
  obtain ⟨-, -, -, -, -, -, -, hnamed⟩ := h.plan_inv hplanned htree hroot
  have htries := tries_of_execute h.proper htree hroot hnamed he
  obtain ⟨f, warnings, before, after, hplan, hsplit, hother⟩ :=
    h.completed_alone hplanned htree hroot htries.sublist ha hpersists
  have hwrite := planOutput_inv hplan
  obtain ⟨text, htext⟩ := hwrite.payload
  have hbefore : ∀ b ∈ before, b.path ≠ a.path := fun b hb => hother b (mem_append_left _ hb)
  have hafter : ∀ b ∈ after, b.path ≠ a.path := fun b hb => hother b (mem_append_right _ hb)
  have hlast : Action.last? (p.completed ++ e.completed) a.path = some a := by
    rw [hsplit, ← append_assoc]
    exact last?_append_cons hafter
  have hcontent := (execute_content h.proper hleads hout htree hnamed he).2
  rw [hsplit, content_append_cons hbefore hafter, Action.leaves, if_pos rfl,
    if_pos hpersists] at hcontent
  by_cases hnoop : a.status = .noop
  · rw [if_pos hnoop] at hcontent
    rcases planOutput_noop hplan hnoop with
      ⟨earlier, hledger, hsame⟩ | ⟨entry, hentry, hsame⟩
    · have hwrote : Wrote p.completed a.path :=
        hwrite.path_eq ▸ wrote_of_get? htallies hledger
      obtain ⟨b, written, bytes, hb⟩ := hshows hwrote
      obtain ⟨_, _, -, hreached⟩ := hplanned.reached
      obtain ⟨noted, hnoted, -, htold, -⟩ := run_tells hreached a.path b
        (Action.lastWrite?_of_last? hb.last_eq hb.persists)
      rw [hwrite.path_eq] at hnoted
      cases hnoted.symm.trans hledger
      obtain rfl : written = text := by
        have hpayload := (htold written hb.payload_eq).symm.trans (hsame.trans htext)
        exact Option.some.inj hpayload
      exact ⟨written, bytes, hlast, hpersists, htext, hcontent.trans hb.bytes_eq, hb.reads⟩
    · rw [← hwrite.path_eq] at hentry
      have hlooked := mapError_eq_ok.mp hentry
      rw [PlanContext.location, hleads.join_eq] at hlooked
      have hget := htree.entry?_eq (h.proper.areProper hleads) hlooked
      rw [htext] at hsame
      cases entry with
      | dir => cases hsame
      | file bytes =>
        have hreads := FileEntry.text?_eq_some_iff.mp hsame
        refine ⟨text, bytes, hlast, hpersists, htext,
          hcontent.trans (FileTree.bytesAt_eq_some_iff.mpr hget.symm), ?_⟩
        rw [hreads, Text.newlines_of_readText hreads]
  · obtain ⟨⟨_, bytes, hpayload, hbytes⟩, -⟩ := htries.encodes a ha hpersists hnoop
    cases htext.symm.trans hpayload
    rw [if_neg hnoop, htext, Option.bind_some, hbytes] at hcontent
    exact ⟨text, bytes, hlast, hpersists, htext, hcontent, Text.readText_of_bytes? hbytes⟩

end

/-- At the end of a run every path that was written shows the text of the last action on it,
whichever target that was for. -/
theorem Layout.run_shows (h : w.Layout reports managed) (ht : t.WellFormed)
    (hroot : t.bytesAt w.root = none) (hleads : Path.Leads path names) (hout : IsOutside names)
    (hrun : w.run previous t reports managed = .ok p) (hwrote : Wrote p.completed path) :
    ∃ a text bytes, w.Shows p.tree p.completed path names a text bytes := by
  refine (run_keeps (fun u actions => u.WellFormed ∧ u.bytesAt w.root = none ∧
    (Wrote actions path → ∃ a text bytes, w.Shows u actions path names a text bytes))
    ⟨ht, hroot, nofun⟩ ?_ hrun).2.2.2 hwrote
  rintro report q plan e hplanned htallies ⟨hwell, hdir, hshows⟩ he
  obtain ⟨_, _, _, -, hactions, hwrites, hremovals, hnamed⟩ := h.plan_inv hplanned hwell hdir
  have htries := tries_of_execute h.proper hwell hdir hnamed he
  refine ⟨htries.wellFormed, htries.root, fun hwrote => ?_⟩
  by_cases hnow : ∃ a ∈ e.completed, a.kind.persists = true ∧ a.path = path
  · obtain ⟨a, ha, hpersists, hpath⟩ := hnow
    exact ⟨a, h.shows_of_execute hplanned hwell hdir hleads hout htallies hshows he ha
      hpersists hpath⟩
  -- A path that was written before is not removed, and so it is left alone.
  have hbefore : Wrote q.completed path := by
    obtain ⟨a, ha, hmatch⟩ := hwrote
    refine ⟨a, (mem_append.mp ha).resolve_right fun ha => hnow ⟨a, ha, hmatch⟩, hmatch⟩
  have hother : ∀ a ∈ e.completed, a.path ≠ path := by
    intro a ha hpath
    have hmem := htries.sublist.mem ha
    rcases persists_or_removeFile (hnamed a hmem).kind with hpersists | hremove
    · exact hnow ⟨a, ha, hpersists, hpath⟩
    rw [hactions] at hmem
    rcases mem_append.mp hmem with hmem | hmem
    · obtain ⟨f, -, hwrite⟩ := exists_of_forall₂ hwrites hmem
      exact hnow ⟨a, ha, hwrite.persists, hpath⟩
    · have hfresh := (hremovals a hmem).2.2
      rw [hpath, hasPath_eq_false_iff htallies] at hfresh
      exact hfresh hbefore
  obtain ⟨a, text, bytes, hshown⟩ := hshows hbefore
  have hcontent := (execute_content h.proper hleads hout hwell hnamed he).2
  rw [content_of_forall_ne hother] at hcontent
  exact ⟨a, text, bytes, by rw [last?_append_of_forall_ne hother, hshown.last_eq],
    hshown.persists, hshown.payload_eq, hcontent.trans hshown.bytes_eq, hshown.reads⟩

theorem Layout.run_writes (h : w.Layout reports managed) (ht : t.WellFormed)
    (hroot : t.bytesAt w.root = none) (hrun : w.run previous t reports managed = .ok p)
    (ha : a ∈ p.completed) (hpersists : a.kind.persists = true) :
    (∃ names, Path.Leads a.path names ∧ IsOutside names) ∧ ∃ text, a.payload = some text := by
  obtain ⟨report, q, plan, hplanned, hmem⟩ := run_completed hrun a ha
  obtain ⟨-, hwell, hdir⟩ := h.planned_sound ht hroot hplanned
  obtain ⟨result, writes, removals, hresult, hactions, hwrites, hremovals, -⟩ :=
    h.plan_inv hplanned hwell hdir
  rw [hactions] at hmem
  rcases mem_append.mp hmem with hmem | hmem
  · obtain ⟨f, hf, hwrite⟩ := exists_of_forall₂ hwrites hmem
    exact ⟨hwrite.path_eq ▸ h.outputs report hplanned.mem result hresult f hf, hwrite.payload⟩
  · simp [(hremovals a hmem).1, ActionKind.persists] at hpersists

theorem run_targets (hrun : w.run previous t reports managed = .ok p) (ha : a ∈ p.completed) :
    ∃ report ∈ reports, a.target = some report.target := by
  obtain ⟨report, q, plan, hplanned, hmem⟩ := run_completed hrun a ha
  obtain ⟨result, -, hplan⟩ := hplanned.plans
  exact ⟨report, hplanned.mem, target_of_plan hplan a hmem⟩

/-- The last target that writes a path wins: the file has the text of the last completed action on
it. A target that plans a path after another one has written it copies nothing away, and says that
it replaces the text of the last one if it does. -/
theorem last_target_wins (h : w.Layout reports managed) (ht : t.WellFormed)
    (hroot : t.bytesAt w.root = none) :
    (∀ build t', w.write t reports managed = .ok (build, t') →
      ∃ previous p, Manifest.load t w.root = .ok previous ∧
        w.run previous t reports managed = .ok p ∧ build.targets = p.done ∧
        ∀ path, (∃ a ∈ p.completed, a.kind = .writeText ∧ a.path = path) →
          ∃ names a text bytes, Path.Leads path names ∧
            w.Shows t' p.completed path names a text bytes) ∧
    ∀ previous report q plan result before f after a,
      w.Planned previous t reports managed report q plan → report.result = some result →
      result.files = before ++ f :: after → f.ownership ≠ .sharedKeys →
      Action.lastWrite? q.completed f.path = some a →
      ∃ earlier writer later first action said rest,
        reports = earlier ++ report :: later ∧ writer ∈ earlier ∧ a.target = some writer.target ∧
        (q.context w (previous.getD {})).steps report.target result.files
          (managed.of report.target) = .ok (first ++ (action, said) :: rest) ∧
        plan = Plan.ofSteps (first ++ (action, said) :: rest) ∧
        (∀ other ∈ first ++ rest, other.1.path ≠ f.path) ∧
        action.path = f.path ∧ action.payload = some f.desired ∧ action.backup = false ∧
        said = if a.payload = some f.desired then []
          else [sharedWarning f.path writer.target report.target] := by
  refine ⟨?_, ?_⟩
  · intro build t' hwrite
    obtain ⟨previous, p, manifest, hload, hrun, -, hsave, hdone⟩ := write_ok hwrite
    refine ⟨previous, p, hload, hrun, hdone, ?_⟩
    rintro path ⟨a, ha, hkind, rfl⟩
    have hpersists : a.kind.persists = true := by rw [hkind]; rfl
    obtain ⟨⟨names, hleads, hout⟩, -⟩ := h.run_writes ht hroot hrun ha hpersists
    obtain ⟨b, text, bytes, hshows⟩ := h.run_shows ht hroot hleads hout hrun ⟨a, ha, hpersists, rfl⟩
    have hchange := h.proper.save_changesAt (h.run_sound ht hroot hrun).2.1 manifest
    rw [hsave] at hchange
    refine ⟨names, b, text, bytes, hleads, hshows.last_eq, hshows.persists, hshows.payload_eq, ?_,
      hshows.reads⟩
    rw [hchange.elsewhere (hout.ne_manifest w.root), hshows.bytes_eq]
  · intro previous report q plan result before f after a hplanned hresult hfiles hplain hlast
    obtain ⟨earlier, later, hreports, hreached⟩ := hplanned.reached
    obtain ⟨hmem, hpersists, -⟩ := Action.lastWrite?_eq_some hlast
    obtain ⟨writer, hwriter, htarget⟩ := run_targets hreached hmem
    obtain ⟨noted, hnoted, hname, hcontent, -⟩ := run_tells hreached f.path a hlast
    obtain ⟨_, hresult', hplan⟩ := hplanned.plans
    cases hresult.symm.trans hresult'
    rw [PlanContext.plan_eq_map_steps] at hplan
    obtain ⟨planned, hsteps, rfl⟩ := Outcome.map_eq_ok.mp hplan
    obtain ⟨first, ⟨action, said⟩, rest, rfl, hstep, hother⟩ := PlanContext.steps_alone
      (hfiles ▸ hsteps) ((h.distinct report hplanned.mem).alone hresult hfiles)
    obtain ⟨hpath, hpayload, hbackup, hsaid⟩ :=
      PlanContext.planOutput_of_get? hnoted hplain hstep
    refine ⟨earlier, writer, later, first, action, said, rest, hreports, hwriter, htarget, hsteps,
      rfl, hother, hpath, hpayload, hbackup, ?_⟩
    obtain ⟨-, text, htext⟩ := (hreports ▸ h).mono.run_writes ht hroot hreached hmem hpersists
    rw [hname, htarget, hcontent text htext, ← htext] at hsaid
    exact hsaid

/-- Two targets with one path and different texts, in a project with nothing in it. -/
def contestedReports : List TargetReport :=
  [{ target := "t", result := some { files := [⟨"c", "x", .unmarked⟩] } },
    { target := "u", result := some { files := [⟨"c", "y", .unmarked⟩] } }]

@[inherit_doc contestedReports]
def contestedTree : FileTree := ⟨[(["p"], .dir)]⟩

private theorem contestedLayout : Layout ⟨["p"], "S"⟩ contestedReports [] :=
  .of_isOrderly (by decide +kernel) (by decide +kernel)

/-- The file has the text of the second target, which says that it replaces that of the first. -/
theorem last_target_wins_of_contested :
    ∃ build t' q plan bytes,
      Workplace.write ⟨["p"], "S"⟩ contestedTree contestedReports [] = .ok (build, t') ∧
      t'.bytesAt ["p", "c"] = some bytes ∧ Text.readText bytes = .ok "y" ∧
      Planned ⟨["p"], "S"⟩ none contestedTree contestedReports []
        { target := "u", result := some { files := [⟨"c", "y", .unmarked⟩] } } q plan ∧
      plan.warnings = [sharedWarning "c" "t" "u"] := by
  have hwrite : Outcome.checks (fun _ => true)
      (Workplace.write ⟨["p"], "S"⟩ contestedTree contestedReports []) = true := by decide +kernel
  have hlast : Outcome.checks (fun p =>
        decide ((Action.last? p.completed "c").bind (·.payload) = some ("y" : Text)) &&
        p.completed.any fun a => decide (a.kind = .writeText ∧ a.path = "c"))
      (Workplace.run ⟨["p"], "S"⟩ none contestedTree contestedReports []) = true := by
    decide +kernel
  have hplan : Outcome.checks (fun q =>
        decide ((Action.lastWrite? q.completed "c").map (fun a => (a.target, a.payload)) =
          some (some ("t" : Text), some ("x" : Text))) &&
        Outcome.checks (fun plan => plan.actions.length == 1)
          ((q.context ⟨["p"], "S"⟩ {}).plan "u" [⟨"c", "y", .unmarked⟩] []))
      (Workplace.run ⟨["p"], "S"⟩ none contestedTree (contestedReports.take 1) []) = true := by
    decide +kernel
  obtain ⟨⟨build, t'⟩, hwritten, -⟩ := Outcome.exists_of_checks hwrite
  obtain ⟨p, hrun, hlast⟩ := Outcome.exists_of_checks hlast
  obtain ⟨hlast, hany⟩ := Bool.and_eq_true_iff.mp hlast
  obtain ⟨b, hb, hmatch⟩ := List.any_eq_true.mp hany
  obtain ⟨q, hreached, hplan⟩ := Outcome.exists_of_checks hplan
  obtain ⟨hlastWrite, hplan⟩ := Bool.and_eq_true_iff.mp hplan
  obtain ⟨plan, hplan, hlength⟩ := Outcome.exists_of_checks hplan
  obtain ⟨a, ha, hpair⟩ := Option.map_eq_some_iff.mp (of_decide_eq_true hlastWrite)
  obtain ⟨htarget, hpayload⟩ := Prod.mk.inj hpair
  have hplanned : Planned ⟨["p"], "S"⟩ none contestedTree contestedReports []
      { target := "u", result := some { files := [⟨"c", "y", .unmarked⟩] } } q plan :=
    ⟨⟨contestedReports.take 1, [], rfl, hreached⟩, _, rfl, hplan⟩
  obtain ⟨hshown, hsays⟩ := last_target_wins contestedLayout
    (FileTree.wellFormed_of_isPlain (by decide +kernel))
    (FileTree.bytesAt_of_dir (t := contestedTree) (by decide +kernel))
  obtain ⟨previous, p', hload, hrun', -, hshown⟩ := hshown build t' hwritten
  cases hload
  cases hrun.symm.trans hrun'
  obtain ⟨names, a', text, bytes, hleads, hshows⟩ := hshown "c" ⟨b, hb, of_decide_eq_true hmatch⟩
  obtain ⟨earlier, writer, later, first, action, said, rest, -, -, hwriter, -, rfl, -, -, -, -,
      hsaid⟩ :=
    hsays none _ q plan _ [] ⟨"c", "y", .unmarked⟩ [] a hplanned rfl rfl (by decide) ha
  have hcalled : Path.Leads "c" ["c"] := Path.leads_of_isPlain (by decide +kernel)
  obtain rfl : names = ["c"] := hleads.names_eq.symm.trans hcalled.names_eq
  obtain rfl : text = "y" := by
    have htext := of_decide_eq_true hlast
    rw [hshows.last_eq, Option.bind_some, hshows.payload_eq] at htext
    exact Option.some.inj htext
  have hreads : Text.readText bytes = .ok (Text.newlines "y") := hshows.reads
  refine ⟨build, t', q, _, bytes, hwritten, hshows.bytes_eq, hreads, hplanned, ?_⟩
  -- There is but one step, for the file.
  have hone : (first ++ (action, said) :: rest).length = 1 := by
    simpa [Plan.ofSteps] using hlength
  simp only [List.length_append, List.length_cons] at hone
  obtain rfl : first = [] := List.length_eq_zero_iff.mp (by omega)
  obtain rfl : rest = [] := List.length_eq_zero_iff.mp (by omega)
  have hname : writer.target = "t" := Option.some.inj (hwriter.symm.trans htarget)
  rw [hpayload, if_neg (by decide +kernel), hname] at hsaid
  simpa [Plan.ofSteps] using hsaid

/-- A managed directory spelled with a double dot shows the file under a second path, by which it is
removed after it was found up to date: there is a completed write on the path, and no file. -/
theorem aliased_file_shows_nothing :
    ∃ p build t',
      Workplace.run ⟨["p"], "S"⟩ none upToDateTree upToDateReports [("t", ["a/../b"])] = .ok p ∧
      Workplace.write ⟨["p"], "S"⟩ upToDateTree upToDateReports [("t", ["a/../b"])] =
        .ok (build, t') ∧
      (∃ a ∈ p.completed, a.kind = .writeText ∧ a.path = "b/x.md") ∧
      t'.bytesAt ["p", "b", "x.md"] = none := by
  have hrun : Outcome.checks (fun p : Progress => p.completed.any fun a =>
      decide (a.kind = .writeText ∧ a.path = "b/x.md"))
      (Workplace.run ⟨["p"], "S"⟩ none upToDateTree upToDateReports [("t", ["a/../b"])]) =
      true := by
    decide +kernel
  have hwrite : Outcome.checks (fun result => (result.2.bytesAt ["p", "b", "x.md"]).isNone)
      (Workplace.write ⟨["p"], "S"⟩ upToDateTree upToDateReports [("t", ["a/../b"])]) =
      true := by
    decide +kernel
  obtain ⟨p, hp, hcompleted⟩ := Outcome.exists_of_checks hrun
  obtain ⟨⟨build, t'⟩, hwritten, hnone⟩ := Outcome.exists_of_checks hwrite
  obtain ⟨a, ha, hmatch⟩ := List.any_eq_true.mp hcompleted
  exact ⟨p, build, t', hp, hwritten, ⟨a, ha, of_decide_eq_true hmatch⟩,
    Option.isNone_iff_eq_none.mp hnone⟩

end Workplace

end AgentConfig
