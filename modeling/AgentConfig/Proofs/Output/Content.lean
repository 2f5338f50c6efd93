import AgentConfig.Proofs.Output.Presence

namespace AgentConfig

open List

variable {e : Execution} {actions after before : List Action}

/-- What an action that goes through leaves at a path, given what was there. -/
def Action.leaves (path : Text) (found : Option ByteArray) (a : Action) : Option ByteArray :=
  if a.path = path then
    if a.kind.persists then
      if a.status = .noop then found else a.payload.bind Text.bytes?
    else none
  else found

/-- What actions leave at a path, one after the other. -/
def Action.content (actions : List Action) (path : Text) (found : Option ByteArray) :
    Option ByteArray :=
  actions.foldl (Action.leaves path) found

namespace Action

variable {a : Action} {path : Text}

theorem leaves_of_ne (h : a.path ≠ path) (found : Option ByteArray) :
    leaves path found a = found := if_neg h

theorem content_append (actions more : List Action) (path : Text) (found : Option ByteArray) :
    content (actions ++ more) path found = content more path (content actions path found) :=
  foldl_append

theorem content_of_forall_ne (h : ∀ a ∈ actions, a.path ≠ path) (found : Option ByteArray) :
    content actions path found = found := by
  induction actions with
  | nil => rfl
  | cons a rest ih =>
    rw [content, foldl_cons, leaves_of_ne (h a mem_cons_self)]
    exact ih fun b hb => h b (mem_cons_of_mem _ hb)

theorem content_append_cons (hbefore : ∀ b ∈ before, b.path ≠ a.path)
    (hafter : ∀ b ∈ after, b.path ≠ a.path) (found : Option ByteArray) :
    content (before ++ a :: after) a.path found = leaves a.path found a := by
  rw [content_append, content_of_forall_ne hbefore, content, foldl_cons]
  exact content_of_forall_ne hafter _

theorem lastWrite?_append_cons (ha : a.kind.persists = true)
    (hafter : ∀ b ∈ after, b.path ≠ a.path) :
    lastWrite? (before ++ a :: after) a.path = some a := by
  have hnone : lastWrite? after a.path = none :=
    lastWrite?_eq_none_iff.mpr fun ⟨b, hb, _, hpath⟩ => hafter b hb hpath
  rw [append_cons, lastWrite?_append, hnone, Option.none_or, lastWrite?_append_singleton]
  simp [ha]

end Action

namespace Workplace

variable {w : Workplace} {t : FileTree} {a : Action} {names place : List Text} {path : Text}

/-- An action on a path in normal form, other than to take out keys. -/
structure IsNamed (a : Action) : Prop where
  leads : ∃ names, Path.Leads a.path names
  kind : a.kind ≠ .removeKeys

/-- An action on a file outside the source directory, other than to take out keys. -/
structure IsOrdinary (a : Action) : Prop where
  outside : ∃ names, Path.Leads a.path names ∧ IsOutside names
  kind : a.kind ≠ .removeKeys

theorem IsOrdinary.isNamed (h : IsOrdinary a) : IsNamed a := by
  obtain ⟨names, hleads, -⟩ := h.outside
  exact ⟨⟨names, hleads⟩, h.kind⟩

section Place

variable (hw : w.IsProper) (hplace : Path.Leads path place) (hout : IsOutside place)
include hw hplace hout

omit hplace in
theorem perform_apart (ht : t.WellFormed) (hleads : Path.Leads a.path names)
    (hkind : a.kind ≠ .removeKeys) (hne : place ≠ names) :
    (w.perform t a).tree.bytesAt (w.root ++ place) = t.bytesAt (w.root ++ place) :=
  (perform_elsewhere hw ht hleads hkind).2
    (fun heq => hne (append_cancel_left heq)) fun hcopy => hout.ne_copyPlace hcopy rfl

theorem perform_leaves (ht : t.WellFormed) (ha : IsNamed a) {changed : Bool}
    (hresult : (w.perform t a).result = .ok changed) :
    (w.perform t a).tree.bytesAt (w.root ++ place) =
      a.leaves path (t.bytesAt (w.root ++ place)) := by
  obtain ⟨names, hleads⟩ := ha.leads
  by_cases hpath : a.path = path
  · obtain rfl : names = place := by rw [← hleads.names_eq, hpath, hplace.names_eq]
    rw [Action.leaves, if_pos hpath]
    rcases Action.persists_or_removeFile ha.kind with hpersists | hremove
    · rw [if_pos hpersists]
      rw [perform_of_persists hpersists] at hresult ⊢
      rcases performWrite_completed hw ht hleads hresult with
        ⟨hnoop, htree⟩ | ⟨hstatus, text, bytes, hpayload, hbytes, hat⟩
      · rw [if_pos hnoop, htree]
      · rw [if_neg hstatus, hpayload, hat]
        exact hbytes.symm
    · rw [perform_of_removeFile hremove] at hresult ⊢
      rw [if_neg (by simp [hremove, ActionKind.persists])]
      exact performRemoval_completed hw ht hleads hresult
  · have hne : place ≠ names := by
      rintro rfl
      exact hpath (hleads.unique hplace)
    rw [Action.leaves_of_ne hpath]
    exact perform_apart hw hout ht hleads ha.kind hne

theorem execute_content (ht : t.WellFormed) (hactions : ∀ a ∈ actions, IsNamed a)
    (he : w.execute t actions = .ok e) :
    e.tree.WellFormed ∧ e.tree.bytesAt (w.root ++ place) =
      Action.content e.completed path (t.bytesAt (w.root ++ place)) := by
  refine execute_keeps (fun u completed => u.WellFormed ∧ u.bytesAt (w.root ++ place) =
    Action.content completed path (t.bytesAt (w.root ++ place))) ⟨ht, rfl⟩ ?_ ?_ he
  · rintro u before a changed ha ⟨hwell, hcontent⟩ hresult
    have ha := hactions a ha
    obtain ⟨names, hleads⟩ := ha.leads
    refine ⟨(perform_elsewhere hw hwell hleads ha.kind).1, ?_⟩
    rw [perform_leaves hw hplace hout hwell ha hresult, Action.content_append, hcontent]
    rfl
  · rintro u before a fault ha ⟨hwell, hcontent⟩ hresult hsystem
    have ha := hactions a ha
    obtain ⟨names, hleads⟩ := ha.leads
    refine ⟨(perform_elsewhere hw hwell hleads ha.kind).1, ?_⟩
    rw [← hcontent]
    by_cases hne : place = names
    · subst hne
      exact perform_failed hw hwell hleads hout ha.kind hresult hsystem
    · exact perform_apart hw hout hwell hleads ha.kind hne

end Place

theorem completed_eq_of_failures_eq_nil (he : w.execute t actions = .ok e)
    (hfailures : e.failures = []) : e.completed = actions := by
  have hrun := execute_induct (w := w)
    (fun e pending => e.failures = [] → e.completed ++ pending = actions) (fun _ => True) ?_ ?_
    (fun _ => trivial) (t := t) (fun _ => rfl)
  · rw [he] at hrun
    simpa using hrun hfailures
  · rintro e a rest changed e' hkeeps - - hcompleted hfailures hnone
    rw [hcompleted, ← hkeeps (hfailures ▸ hnone)]
    simp
  · rintro e a rest fault e' - - - - - hfailures hnone
    rw [hfailures] at hnone
    simp at hnone

section Run

variable {previous : Option Manifest} {reports : List TargetReport} {managed : ManagedDirs}
  {report : TargetReport} {p : Progress} {plan : Plan}

theorem Setting.isOrdinary (h : Setting w reports managed) (ht : t.WellFormed)
    (hroot : t.bytesAt w.root = none)
    (hplanned : w.Planned previous t reports managed report p plan) :
    ∀ a ∈ plan.actions, IsOrdinary a := by
  intro a ha
  have hholds := hplanned.holds h ht hroot
  obtain ⟨result, -, -, -, -, -, -, hall⟩ := h.plan_inv hplanned hholds.wellFormed hholds.root
  obtain ⟨names, hout, hplans⟩ := hall a ha
  exact ⟨⟨names, hplans.leads, hout⟩, hplans.kind_ne⟩

/-- At the end of a run a file holds what the completed actions left there, one after the other.
Those that failed do not count. -/
theorem run_content (h : Setting w reports managed) (ht : t.WellFormed)
    (hroot : t.bytesAt w.root = none) (hrun : w.run previous t reports managed = .ok p)
    (hplace : Path.Leads path place) (hout : IsOutside place) :
    p.tree.bytesAt (w.root ++ place) =
      Action.content p.completed path (t.bytesAt (w.root ++ place)) := by
  refine (run_keeps (fun u actions => u.WellFormed ∧ u.bytesAt (w.root ++ place) =
    Action.content actions path (t.bytesAt (w.root ++ place))) ⟨ht, rfl⟩ ?_ hrun).2.2
  intro report q plan e hplanned _ hkeeps he
  obtain ⟨hwell, hcontent⟩ := execute_content h.proper hplace hout hkeeps.1
    (fun a ha => (h.isOrdinary ht hroot hplanned a ha).isNamed) he
  exact ⟨hwell, by rw [hcontent, hkeeps.2, Action.content_append]⟩

end Run

end Workplace

theorem Workplace.write_of_run {w : Workplace} {t t' : FileTree} {reports : List TargetReport}
    {managed : ManagedDirs} {previous : Option Manifest} {p : Progress} {manifest : Manifest}
    (hload : Manifest.load t w.root = .ok previous)
    (hrun : w.run previous t reports managed = .ok p)
    (hmanifest : p.manifest w.root previous = .ok manifest)
    (hsave : manifest.save p.tree w.root = .ok t') :
    ∃ build, w.write t reports managed = .ok (build, t') ∧ build.targets = p.done := by
  unfold Workplace.write Failure.orHalt
  rw [hload]
  simp only [Except.mapError, bind, Except.bind, hrun, hmanifest, hsave]
  exact ⟨_, rfl, rfl⟩

namespace Progress

variable {w : Workplace} {manifest : Manifest} {managed : ManagedDirs} {p p' : Progress}
  {report : TargetReport}

/-- A target that is planned and whose actions are all completed. -/
structure Succeeds (w : Workplace) (manifest : Manifest) (managed : ManagedDirs) (p : Progress)
    (report : TargetReport) (result : Generated) (plan : Plan) (e : Execution) : Prop where
  result_eq : report.result = some result
  plan_eq : (p.context w manifest).plan report.target result.files (managed.of report.target) =
    .ok plan
  execute_eq : w.execute p.tree plan.actions = .ok e
  failures_eq : e.failures = []

theorem Succeeds.completed_eq {result : Generated} {plan : Plan}
    (h : Succeeds w manifest managed p report result plan e) : e.completed = plan.actions :=
  Workplace.completed_eq_of_failures_eq_nil h.execute_eq h.failures_eq

theorem writeTarget_of_ok (h : writeTarget w manifest managed p report = .ok p')
    (hok : ∀ r ∈ p'.done, r.ok = true) :
    (∀ r ∈ p.done, r.ok = true) ∧
      ((report.result = none ∧ p' = { p with done := p.done ++ [report] }) ∨
        ∃ result plan e, Succeeds w manifest managed p report result plan e ∧
          p' = p.after report plan e) := by
  rcases writeTarget_cases w manifest managed p report with
    ⟨plan, ⟨result, hresult, hplan⟩, hcase⟩ | ⟨failure, hhalt⟩ | ⟨done, hskip, hwhy, -⟩
  · obtain ⟨e, he, rfl⟩ := Outcome.map_eq_ok.mp (hcase.symm.trans h)
    have hdone := (p.after_unchanged report plan e).2.2
    rw [hdone] at hok
    have hlast := hok _ (mem_append_right _ mem_cons_self)
    simp only [TargetReport.ok, reportOf, Bool.and_eq_true, beq_iff_eq] at hlast
    exact ⟨fun r hr => hok r (mem_append_left _ hr),
      .inr ⟨result, plan, e, ⟨hresult, hplan, he, length_eq_zero_iff.mp hlast.2⟩, rfl⟩⟩
  · cases hhalt.symm.trans h
  · cases hskip.symm.trans h
    refine ⟨fun r hr => hok r (mem_append_left _ hr), .inl ?_⟩
    rcases hwhy with ⟨hnone, rfl⟩ | hfailed
    · exact ⟨hnone, rfl⟩
    · simp [hok done (by simp)] at hfailed

end Progress

namespace Workplace

variable {w : Workplace} {t : FileTree} {previous : Option Manifest} {reports : List TargetReport}
  {managed : ManagedDirs} {p : Progress}

/-- What each target keeps that has nothing to write, or whose actions are all completed, holds at
the end of a run without failures. -/
theorem run_induct_succeeds (keeps : List TargetReport → Progress → Prop)
    (hstart : keeps [] { tree := t })
    (hskip : ∀ {before report q}, report ∈ reports → report.result = none → keeps before q →
      keeps (before ++ [report]) { q with done := q.done ++ [report] })
    (hstep : ∀ {before report after q result plan e}, reports = before ++ report :: after →
      w.run previous t before managed = .ok q → (∀ r ∈ q.done, r.ok = true) →
      w.Planned previous t reports managed report q plan →
      Progress.Succeeds w (previous.getD {}) managed q report result plan e → keeps before q →
      keeps (before ++ [report]) (q.after report plan e))
    (hrun : w.run previous t reports managed = .ok p) (hok : ∀ r ∈ p.done, r.ok = true) :
    keeps reports p := by
  have hend : Outcome.Yields (fun p => (∀ r ∈ p.done, r.ok = true) → keeps reports p)
      (fun _ => True) (w.run previous t reports managed) := by
    refine run_induct_targets (fun before p => (∀ r ∈ p.done, r.ok = true) → keeps before p)
      (fun _ => True) (fun _ => hstart) ?_
    intro before report after q hreports hbefore hkeeps
    cases hnext : q.writeTarget w (previous.getD {}) managed report with
    | error halt => trivial
    | ok q' =>
      intro hdone
      obtain ⟨hearlier, ⟨hnone, rfl⟩ | ⟨result, plan, e, hsucceeds, rfl⟩⟩ :=
        Progress.writeTarget_of_ok hnext hdone
      · exact hskip (by simp [hreports]) hnone (hkeeps hearlier)
      · exact hstep hreports hbefore hearlier ⟨⟨before, after, hreports, hbefore⟩, result,
          hsucceeds.result_eq, hsucceeds.plan_eq⟩ hsucceeds (hkeeps hearlier)
  rw [hrun] at hend
  exact hend hok

end Workplace

open Outcome

namespace Workplace

variable {w : Workplace} {t : FileTree} {previous : Option Manifest}
  {reports after before : List TargetReport} {managed : ManagedDirs} {report : TargetReport}
  {p : Progress} {plan : Plan}

/-- The outputs of each target have distinct paths in normal form outside the source directory, and
the managed directories have proper names. -/
structure Layout (w : Workplace) (reports : List TargetReport) (managed : ManagedDirs) : Prop where
  proper : w.IsProper
  outputs : ∀ report ∈ reports, report.StaysOutside
  distinct : ∀ report ∈ reports, report.HasDistinctPaths
  managed : ∀ target, ∀ directory ∈ managed.of target, Path.AreProper (Path.names directory)

theorem Layout.of_isOrderly (hw : (w.stamp :: w.root).all Path.isPlain = true)
    (h : reports.all (·.isOrderly) = true) : w.Layout reports [] :=
  ⟨isProper_of_isPlain hw, fun r hr => (TargetReport.of_isOrderly h r hr).1,
    fun r hr => (TargetReport.of_isOrderly h r hr).2, fun _ _ hmem => by cases hmem⟩

theorem IsCopyPlace.length_le {names place : List Text} (h : w.IsCopyPlace names place) :
    w.root.length + 3 ≤ place.length := by
  have hroot : w.copyRoot.length = w.root.length + 3 := by
    simp [copyRoot, backupNames]
  rcases h with rfl | ⟨name, -, rfl⟩ <;> simp only [length_append, hroot] <;> omega

theorem root_not_isCopyPlace (w : Workplace) (names : List Text) :
    ¬ w.IsCopyPlace names w.root := by
  intro hplace
  have hlength := hplace.length_le
  omega

/-- What holds when named actions were tried: the root is still a directory, and what was written
can be written, at a path that is short enough. -/
structure Tries (w : Workplace) (actions : List Action) (e : Execution) : Prop where
  wellFormed : e.tree.WellFormed
  root : e.tree.bytesAt w.root = none
  sublist : e.completed.Sublist actions
  encodes : ∀ a ∈ e.completed, a.kind.persists = true → a.status ≠ .noop →
    (∃ text bytes, a.payload = some text ∧ Text.bytes? text = some bytes) ∧
      ¬ FileTree.IsTooLong (w.location a.path)

theorem tries_of_execute (hw : w.IsProper) (ht : t.WellFormed) (hroot : t.bytesAt w.root = none)
    {actions : List Action} (hactions : ∀ a ∈ actions, IsNamed a) {e : Execution}
    (he : w.execute t actions = .ok e) : w.Tries actions e := by
  have hstep {u : FileTree} (hu : u.WellFormed) (hdir : u.bytesAt w.root = none) {a : Action}
      (ha : IsNamed a) :
      (w.perform u a).tree.WellFormed ∧ (w.perform u a).tree.bytesAt w.root = none := by
    obtain ⟨names, hleads⟩ := ha.leads
    obtain ⟨hwell, helsewhere⟩ := perform_elsewhere hw hu hleads ha.kind
    refine ⟨hwell, ?_⟩
    rw [helsewhere (by simpa using hleads.ne_nil.symm) (w.root_not_isCopyPlace names), hdir]
  have hend := execute_induct (w := w)
    (fun e pending => ∃ tried, actions = tried ++ pending ∧ w.Tries tried e) (fun _ => True) ?_ ?_
    (fun _ => trivial) (t := t) ⟨[], rfl, ht, hroot, Sublist.refl _, nofun⟩
  · rw [he] at hend
    obtain ⟨tried, hall, htries⟩ := hend
    rwa [hall, append_nil]
  · rintro e a rest changed e' ⟨tried, hall, h⟩ hresult htree hcompleted -
    have ha := hactions a (by simp [hall])
    obtain ⟨hwell, hdir⟩ := hstep h.wellFormed h.root ha
    refine ⟨tried ++ [a], by simp [hall], htree ▸ hwell, htree ▸ hdir, ?_, ?_⟩
    · rw [hcompleted]
      exact h.sublist.append (Sublist.refl [a])
    intro b hb hpersists hstatus
    rw [hcompleted] at hb
    rcases mem_append.mp hb with hb | hb
    · exact h.encodes b hb hpersists hstatus
    obtain rfl := mem_singleton.mp hb
    obtain ⟨names, hleads⟩ := ha.leads
    rw [perform_of_persists hpersists] at hresult
    rcases performWrite_completed hw h.wellFormed hleads hresult with
      ⟨hnoop, -⟩ | ⟨-, text, bytes, hpayload, hbytes, -⟩
    · exact absurd hnoop hstatus
    · refine ⟨⟨text, bytes, hpayload, hbytes⟩, ?_⟩
      rw [w.location_eq hleads]
      exact performWrite_not_isTooLong hw h.wellFormed hleads hstatus hresult
  · rintro e a rest fault e' ⟨tried, hall, h⟩ - - htree hcompleted -
    obtain ⟨hwell, hdir⟩ := hstep h.wellFormed h.root (hactions a (by simp [hall]))
    refine ⟨tried ++ [a], by simp [hall], htree ▸ hwell, htree ▸ hdir, ?_, hcompleted ▸ h.encodes⟩
    rw [hcompleted]
    exact h.sublist.trans (sublist_append_left _ _)

/-- The plan of a target writes each of its files once, and removes stale files that it does not
write. -/
theorem Layout.plan_inv (h : w.Layout reports managed)
    (hplanned : w.Planned previous t reports managed report p plan) (htree : p.tree.WellFormed)
    (hroot : p.tree.bytesAt w.root = none) :
    ∃ result writes removals, report.result = some result ∧ plan.actions = writes ++ removals ∧
      Forall₂ (p.context w (previous.getD {})).PlansWrite result.files writes ∧
      (∀ a ∈ removals, a.kind = .removeFile ∧ a.path ∉ result.files.map (·.path) ∧
        p.ledger.hasPath a.path = false) ∧
      ∀ a ∈ plan.actions, IsNamed a := by
  obtain ⟨result, hresult, hplan⟩ := hplanned.plans
  have hsound : (p.context w (previous.getD {})).IsSound (managed.of report.target) :=
    ⟨htree, h.proper.root, hroot, h.managed _⟩
  obtain ⟨writes, removals, hactions, hwrites, hremovals⟩ := PlanContext.plan_inv hsound hplan
  refine ⟨result, writes, removals, hresult, hactions, hwrites, ?_, ?_⟩
  · intro a ha
    obtain ⟨names, bytes, hremoval⟩ := (hremovals a).mp ha
    exact ⟨hremoval.kind_eq, hremoval.not_desired, hremoval.not_written⟩
  intro a ha
  rw [hactions] at ha
  rcases mem_append.mp ha with ha | ha
  · obtain ⟨f, hf, hwrite⟩ := exists_of_forall₂ hwrites ha
    obtain ⟨names, hleads, -⟩ := h.outputs report hplanned.mem result hresult f hf
    refine ⟨⟨names, hwrite.path_eq ▸ hleads⟩, ?_⟩
    rw [hwrite.kind_eq]
    split <;> simp
  · obtain ⟨names, bytes, hremoval⟩ := (hremovals a).mp ha
    exact ⟨⟨names, hremoval.leads⟩, by simp [hremoval.kind_eq]⟩

theorem Layout.run_sound (h : w.Layout reports managed) (ht : t.WellFormed)
    (hroot : t.bytesAt w.root = none) (hrun : w.run previous t reports managed = .ok p) :
    p.Tallies p.completed ∧ p.tree.WellFormed ∧ p.tree.bytesAt w.root = none := by
  refine run_keeps (fun u _ => u.WellFormed ∧ u.bytesAt w.root = none) ⟨ht, hroot⟩ ?_ hrun
  intro report q plan e hplanned _ hkeeps he
  obtain ⟨-, -, -, -, -, -, -, hnamed⟩ := h.plan_inv hplanned hkeeps.1 hkeeps.2
  have htries := tries_of_execute h.proper hkeeps.1 hkeeps.2 hnamed he
  exact ⟨htries.wellFormed, htries.root⟩

theorem Layout.mono (h : w.Layout (before ++ after) managed) : w.Layout before managed :=
  ⟨h.proper, fun r hr => h.outputs r (mem_append_left _ hr),
    fun r hr => h.distinct r (mem_append_left _ hr), h.managed⟩

theorem Layout.planned_sound (h : w.Layout reports managed) (ht : t.WellFormed)
    (hroot : t.bytesAt w.root = none)
    (hplanned : w.Planned previous t reports managed report p plan) :
    p.Tallies p.completed ∧ p.tree.WellFormed ∧ p.tree.bytesAt w.root = none := by
  obtain ⟨before, after, rfl, hbefore⟩ := hplanned.reached
  exact h.mono.run_sound ht hroot hbefore

end Workplace

end AgentConfig
