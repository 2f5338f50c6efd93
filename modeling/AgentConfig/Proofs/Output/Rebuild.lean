import AgentConfig.Proofs.Output.Settled

namespace AgentConfig

open List Outcome AgentConfig.Action FileTree Manifest AgentConfig.Path PlanContext

variable {names root : List Text} {directory path stamp : Text}

namespace FileTree

/-- Two trees that differ at most in the bytes of files at some places. -/
def OverwrittenAt (places : List Text → Prop) (t t' : FileTree) : Prop :=
  ∀ location, t'.get? location = t.get? location ∨ (places location ∧
    ∃ bytes bytes', t.get? location = some (.file bytes) ∧ t'.get? location = some (.file bytes'))

namespace OverwrittenAt

variable {places more : List Text → Prop} {t u v : FileTree} {location : List Text}
  {bytes : ByteArray}

theorem refl (t : FileTree) : OverwrittenAt places t t := fun _ => .inl rfl

section

variable (h : OverwrittenAt places t u)
include h

theorem mono (hmore : ∀ location, places location → more location) :
    OverwrittenAt more t u := fun location =>
  (h location).imp_right fun ⟨hplace, hfiles⟩ => ⟨hmore location hplace, hfiles⟩

theorem trans (h' : OverwrittenAt places u v) : OverwrittenAt places t v := by
  intro location
  rcases h location, h' location with
    ⟨heq | ⟨hplace, bytes, bytes', hbefore, hafter⟩, heq' | ⟨hplace', found, left, hfound, hleft⟩⟩
  · exact .inl (heq'.trans heq)
  · exact .inr ⟨hplace', found, left, heq ▸ hfound, hleft⟩
  · exact .inr ⟨hplace, bytes, bytes', hbefore, heq'.trans hafter⟩
  · exact .inr ⟨hplace, bytes, left, hbefore, hleft⟩

theorem sameShape : t.SameShape u := fun location =>
  (h location).imp_right And.right

theorem get?_eq (hnot : ¬ places location) : u.get? location = t.get? location :=
  (h location).resolve_right fun hplace => hnot hplace.1

theorem exists_bytesAt (hbytes : t.bytesAt location = some bytes) :
    ∃ bytes', u.bytesAt location = some bytes' := by
  rcases h location with heq | ⟨-, _, bytes', -, hafter⟩
  · exact ⟨bytes, (bytesAt_congr heq).trans hbytes⟩
  · exact ⟨bytes', bytesAt_eq_some_iff.mpr hafter⟩

theorem exists_bytesAt_before (hbytes : u.bytesAt location = some bytes) :
    ∃ bytes', t.bytesAt location = some bytes' := by
  rcases h location with heq | ⟨-, bytes', _, hbefore, -⟩
  · exact ⟨bytes, (bytesAt_congr heq).symm.trans hbytes⟩
  · exact ⟨bytes', bytesAt_eq_some_iff.mpr hbefore⟩

end

theorem put (hne : location ≠ []) (hbytes : t.bytesAt location = some bytes) (bytes' : ByteArray) :
    OverwrittenAt (· = location) t (t.put location (.file bytes')) := by
  intro other
  by_cases heq : other = location
  · subst heq
    exact .inr ⟨rfl, bytes, bytes', bytesAt_eq_some_iff.mp hbytes, get?_put_self t _ hne⟩
  · exact .inl (get?_put_ne t _ heq)

end OverwrittenAt

end FileTree

namespace Workplace

variable {w : Workplace} {t u : FileTree} {a : Action} {actions : List Action}

/-- An action that writes a text over a file and copies nothing away. -/
structure Overwrites (w : Workplace) (t : FileTree) (a : Action) : Prop where
  kind : a.kind = .writeText
  backup : a.backup = false
  payload : ∃ text bytes, a.payload = some text ∧ Text.bytes? text = some bytes
  found : ∃ names bytes, Leads a.path names ∧ ¬ IsTooLong (w.root ++ names) ∧
    t.bytesAt (w.root ++ names) = some bytes

theorem Overwrites.of_overwrittenAt {places : List Text → Prop} (ha : w.Overwrites t a)
    (h : OverwrittenAt places t u) : w.Overwrites u a := by
  obtain ⟨names, bytes, hleads, hshort, hbytes⟩ := ha.found
  obtain ⟨bytes', hbytes'⟩ := h.exists_bytesAt hbytes
  exact ⟨ha.kind, ha.backup, ha.payload, names, bytes', hleads, hshort, hbytes'⟩

theorem Overwrites.perform (ha : w.Overwrites t a) (hw : w.IsProper) (ht : t.WellFormed) :
    (w.perform t a).tree.WellFormed ∧ (w.perform t a).backedUp = false ∧
      (∃ changed, (w.perform t a).result = .ok changed) ∧
      OverwrittenAt (· = w.location a.path) t (w.perform t a).tree := by
  obtain ⟨names, bytes, hleads, hshort, hbytes⟩ := ha.found
  obtain ⟨text, new, htext, hnew⟩ := ha.payload
  have hpersists : a.kind.persists = true := by rw [ha.kind]; rfl
  have hne : w.root ++ names ≠ [] := by simp [hleads.ne_nil]
  refine ⟨(perform_elsewhere hw ht hleads (by simp [ha.kind])).1, ?_⟩
  rw [perform_of_persists hpersists, performWrite, htext, location_eq w hleads]
  by_cases hnoop : a.status = .noop
  · rw [if_pos hnoop]
    exact ⟨rfl, ⟨false, rfl⟩, .refl t⟩
  · simp only [if_neg hnoop, changing, ha.backup, Bool.false_eq_true, if_false]
    rw [ht.overwrite_eq hshort hbytes hnew]
    exact ⟨rfl, ⟨true, rfl⟩, .put hne hbytes new⟩

/-- Actions that write over files all go through, and nothing is copied away. -/
theorem execute_overwrites (hw : w.IsProper) (ht : t.WellFormed)
    (hactions : ∀ a ∈ actions, w.Overwrites t a) :
    ∃ e, w.execute t actions = .ok e ∧ e.failures = [] ∧ e.completed = actions ∧ e.backups = [] ∧
      OverwrittenAt (fun place => ∃ a ∈ actions, place = w.location a.path) t e.tree := by
  -- the induction goes over the actions from any point of the execution
  suffices h : ∀ (rest : List Action) (e : Execution), e.tree.WellFormed →
      (∀ a ∈ rest, w.Overwrites e.tree a) →
      ∃ e', rest.foldlM (Execution.step w) e = .ok e' ∧ e'.failures = e.failures ∧
        e'.completed = e.completed ++ rest ∧ e'.backups = e.backups ∧
        OverwrittenAt (fun place => ∃ a ∈ rest, place = w.location a.path) e.tree e'.tree by
    exact h actions { tree := t } ht hactions
  intro rest
  induction rest with
  | nil => exact fun e _ _ => ⟨e, rfl, rfl, (append_nil _).symm, rfl, .refl _⟩
  | cons a rest ih =>
    intro e he hrest
    obtain ⟨hwell, hbackup, ⟨changed, hresult⟩, hover⟩ :=
      (hrest a mem_cons_self).perform hw he
    obtain ⟨next, hnext, htree, hfailures, hcompleted, hbackups⟩ :
        ∃ next, Execution.step w e a = .ok next ∧ next.tree = (w.perform e.tree a).tree ∧
          next.failures = e.failures ∧ next.completed = e.completed ++ [a] ∧
          next.backups = e.backups := by
      simp [Execution.step, hresult, hbackup]
    obtain ⟨e', he', hfailures', hcompleted', hbackups', hover'⟩ := ih next (htree ▸ hwell)
      fun b hb => htree ▸ (hrest b (mem_cons_of_mem _ hb)).of_overwrittenAt hover
    refine ⟨e', ?_, hfailures'.trans hfailures, ?_, hbackups'.trans hbackups, ?_⟩
    · rw [foldlM_cons, hnext]
      exact he'
    · rw [hcompleted', hcompleted, append_assoc, singleton_append]
    · rw [htree] at hover'
      refine (hover.mono fun _ h => ⟨a, mem_cons_self, h⟩).trans (hover'.mono ?_)
      rintro _ ⟨b, hb, h⟩
      exact ⟨b, mem_cons_of_mem _ hb, h⟩

end Workplace

namespace PlanContext

variable {c : PlanContext} {target directory : Text} {f : OutputFile} {files : List OutputFile}
  {desired dirs names : List Text} {bytes : ByteArray}

/-- A file that an earlier target has written, or that is as the manifest records it, is not copied
away. -/
theorem planOutput_of_known (hplain : f.ownership ≠ .sharedKeys) (hcheck : f.check = .ok ())
    (hentry : c.entry? f.path = .ok (some (.file bytes)))
    (hknown : c.ledger.hasPath f.path = true ∨ c.manifest.Records f.path bytes) :
    ∃ a warnings, c.planOutput target f = .ok (a, warnings) ∧ a.backup = false := by
  have hfile : c.planOutput target f = c.planFile target f := by
    unfold planOutput
    split
    · contradiction
    · rfl
  rw [hfile, planFile, hcheck, hentry]
  cases hledger : c.ledger.get? f.path with
  | some earlier =>
    refine ⟨(planShared target f earlier).1, _, rfl, ?_⟩
    unfold planShared
    split <;> rfl
  | none =>
    obtain ⟨e, hget, hchecksum⟩ := hknown.resolve_left (by simp [Ledger.hasPath, hledger])
    have hover : (some (FileEntry.file bytes)).forM (c.checkOver f) = .ok () := by
      simp [Option.forM, checkOver, hget]
    have hneeds : c.needsBackup f.path (.file bytes) = false := by
      simp [needsBackup, hget, FileEntry.checksum?, hchecksum]
    refine ⟨(c.planOver target f (some (.file bytes))).1,
      (c.planOver target f (some (.file bytes))).2,
      bind_eq_ok.mpr ⟨(), rfl, bind_eq_ok.mpr ⟨_, rfl, bind_eq_ok.mpr ⟨(), hover, rfl⟩⟩⟩, ?_⟩
    simp only [planOver, hneeds, Bool.false_eq_true, if_false]
    split <;> rfl

theorem planStaleFile_eq_none
    (h : relative names ∈ desired ∨ (¬ c.manifest.Generated (relative names) bytes ∧
      checkEntry (relative names) (.file bytes) = .ok ())) :
    c.planStaleFile target desired (c.root ++ names) (.file bytes) = .ok none := by
  rw [planStaleFile, pathOf_append]
  change (if _ then _ else _) = _
  split
  · rfl
  rename_i hkept
  rw [Bool.or_eq_true, contains_iff_mem, not_or] at hkept
  obtain ⟨hgenerated, hcheck⟩ := h.resolve_left hkept.1
  have hnot : c.isGenerated (relative names) (.file bytes) = false :=
    Bool.eq_false_iff.mpr fun hfound => hgenerated (isGenerated_iff.mp hfound)
  have hrecorded : c.isAsRecorded (relative names) (.file bytes) = false :=
    Bool.eq_false_iff.mpr fun hfound => hgenerated (.inl (isAsRecorded_iff.mp hfound))
  rw [hrecorded, hcheck, hnot]
  rfl

theorem planStaleIn_eq_nil (hc : c.IsSound dirs) (hmem : directory ∈ dirs)
    (hshort : ¬ IsTooLong (c.location directory))
    (hstays : ∀ rest bytes, rest ≠ [] → c.tree.bytesAt (c.location directory ++ rest) = some bytes →
      c.planStaleFile target desired (c.location directory ++ rest) (.file bytes) = .ok none) :
    c.planStaleIn target desired directory = .ok [] := by
  have hproper := hc.areProper_join hmem
  obtain ⟨found, hentry⟩ := c.tree.exists_entry? hproper hshort
  obtain rfl := hc.tree.entry?_eq hproper hentry
  have hdir : c.tree.isDir? (c.location directory) =
      .ok (c.tree.get? (c.location directory) == some .dir) := by
    rw [isDir?, hentry]
    rfl
  rw [planStaleIn, hdir]
  by_cases hbase : c.tree.get? (c.location directory) = some .dir
  · have hfiles : (c.tree.filesBelow (c.location directory)).mapM (fun x =>
        c.planStaleFile target desired (c.location directory ++ x.1) (.file x.2)) =
        .ok ((c.tree.filesBelow (c.location directory)).map fun _ => none) := by
      rw [mapM_eq_ok, forall₂_map_right_iff, forall₂_same]
      intro x hx
      obtain ⟨hne, hget⟩ := hc.tree.mem_filesBelow_iff.mp hx
      exact hstays x.1 x.2 hne (bytesAt_eq_some_iff.mpr hget)
    rw [hbase]
    refine bind_eq_ok.mpr ⟨true, rfl, bind_eq_ok.mpr ⟨c.location directory, ?_,
      bind_eq_ok.mpr ⟨_, hfiles, ?_⟩⟩⟩
    · rw [hc.tree.locate_eq_self hshort hbase]
      rfl
    · exact congrArg Except.ok (by simp)
  · rw [beq_false_of_ne hbase]
    rfl

/-- Where each file is planned without a copy, and nothing is to be removed, the plan is to write
the files. -/
theorem plan_of_known
    (hfiles : ∀ f ∈ files, ∃ a warnings, c.planOutput target f = .ok (a, warnings) ∧
      a.backup = false)
    (hdirs : ∀ directory ∈ dirs, c.planStaleIn target (files.map (·.path)) directory = .ok []) :
    ∃ plan, c.plan target files dirs = .ok plan ∧
      ∀ a ∈ plan.actions, ∃ f ∈ files, c.PlansWrite f a ∧ a.backup = false := by
  obtain ⟨written, hwritten⟩ : ∃ written, files.mapM (c.planOutput target) = .ok written := by
    refine FailsOnly.exists_ok (FailsOnly.mapM fun f hf => ?_)
    obtain ⟨a, warnings, hplan, -⟩ := hfiles f hf
    rw [hplan]
    exact .ok _
  have hremoved : dirs.mapM (c.planStaleIn target (files.map (·.path))) =
      .ok (dirs.map fun _ => []) := by
    rw [mapM_eq_ok, forall₂_map_right_iff, forall₂_same]
    exact hdirs
  refine ⟨_, bind_eq_ok.mpr ⟨written, hwritten, bind_eq_ok.mpr ⟨_, hremoved, rfl⟩⟩, fun a ha => ?_⟩
  obtain ⟨⟨a, warnings⟩, hstep, rfl⟩ := mem_map.mp ha
  rcases mem_append.mp hstep with hstep | hstep
  · obtain ⟨f, hf, hplan⟩ := (mem_of_mapM_eq_ok hwritten).mp hstep
    obtain ⟨b, _, hplan', hbackup⟩ := hfiles f hf
    cases hplan.symm.trans hplan'
    exact ⟨f, hf, planOutput_inv hplan, hbackup⟩
  · simp at hstep

end PlanContext

namespace Workplace

variable {w : Workplace} {t : FileTree} {m : Manifest} {managed : ManagedDirs}
  {reports before after : List TargetReport} {report : TargetReport} {q : Progress}

/-- How far a second run has come: it has written over files, and copied nothing away. -/
structure Repeats (w : Workplace) (t : FileTree) (q : Progress) : Prop where
  overwritten : OverwrittenAt (fun place => ∃ a ∈ q.completed, place = w.location a.path) t q.tree
  writes : ∀ a ∈ q.completed, a.kind = .writeText
  done : ∀ r ∈ q.done, r.ok = true ∧ (r.result.isSome = true → r.backups = [])

section Target

variable (h : w.Separates reports managed) (hs : w.IsSettled m managed reports t)
  (hreports : reports = before ++ after) (hrun : w.run (some m) t before managed = .ok q)
  (hq : w.Repeats t q)
include h hs hreports hrun hq

theorem Repeats.get?_eq (hleads : Leads path names) (hnot : ¬ Wrote q.completed path) :
    q.tree.get? (w.root ++ names) = t.get? (w.root ++ names) := by
  subst hreports
  refine hq.overwritten.get?_eq ?_
  rintro ⟨a, ha, hplace⟩
  have hpersists : a.kind.persists = true := by rw [hq.writes a ha]; rfl
  obtain ⟨⟨others, hothers, -⟩, -⟩ :=
    h.layout.mono.run_writes hs.wellFormed hs.root hrun ha hpersists
  rw [location_eq w hothers] at hplace
  obtain rfl := append_cancel_left hplace
  exact hnot ⟨a, ha, hpersists, hothers.unique hleads⟩

end Target

section Target

variable (h : w.Separates reports managed) (hs : w.IsSettled m managed reports t)
  (hreports : reports = before ++ report :: after)
  (hrun : w.run (some m) t before managed = .ok q) (hq : w.Repeats t q)
include h hs hreports hrun hq

theorem Repeats.planOutput {f : OutputFile} (hf : f ∈ report.outputs) :
    ∃ a warnings, (q.context w m).planOutput report.target f = .ok (a, warnings) ∧
      a.backup = false := by
  have hreport : report ∈ reports := by simp [hreports]
  obtain ⟨hcheck, -, names, bytes, hleads, hshort, hbytes, hrecords⟩ :=
    hs.written report hreport f hf
  obtain ⟨htallies, htree, -⟩ :=
    (hreports ▸ h.layout).mono.run_sound hs.wellFormed hs.root hrun
  obtain ⟨found, hfound⟩ := hq.overwritten.exists_bytesAt hbytes
  have hentry : PlanContext.entry? (q.context w m) f.path = .ok (some (.file found)) := by
    unfold PlanContext.entry? PlanContext.location
    rw [hleads.join_eq]
    have hseen : q.tree.entry? (w.root ++ names) = .ok (some (.file found)) :=
      (htree.entry?_eq_some_iff (h.proper.areProper hleads)).mpr
        ⟨bytesAt_eq_some_iff.mp hfound, hshort⟩
    exact mapError_eq_ok.mpr hseen
  refine planOutput_of_known (h.plain report hreport f hf) hcheck hentry ?_
  by_cases hwrote : Wrote q.completed f.path
  · refine .inl (Bool.not_eq_false _ ▸ fun hfresh => ?_)
    exact (hasPath_eq_false_iff htallies f.path).mp hfresh hwrote
  have hsame := hq.get?_eq h hs hreports hrun hleads hwrote
  rw [bytesAt_congr hsame, hbytes] at hfound
  cases hfound
  exact .inr hrecords

theorem Repeats.planStaleIn (hmem : directory ∈ managed.of report.target)
    (hsome : report.result.isSome = true) (hshort : ¬ IsTooLong (w.location directory)) :
    (q.context w m).planStaleIn report.target (report.outputs.map (·.path)) directory = .ok [] := by
  have hreport : report ∈ reports := by simp [hreports]
  obtain ⟨-, htree, hdir⟩ := (hreports ▸ h.layout).mono.run_sound hs.wellFormed hs.root hrun
  refine planStaleIn_eq_nil (h.toSetting.isSound htree hdir) hmem hshort ?_
  intro rest bytes hne hbytes
  change q.tree.bytesAt (w.location directory ++ rest) = some bytes at hbytes
  change (q.context w m).planStaleFile _ _ (w.location directory ++ rest) _ = _
  obtain ⟨found, hfound⟩ := hq.overwritten.exists_bytesAt_before hbytes
  obtain ⟨names, hplace, hclear⟩ :=
    hs.cleared report hreport hsome directory hmem rest found hne hfound
  rw [hplace] at hbytes hfound ⊢
  have hleads : Leads (relative names) names := by
    refine leads_relative ?_
      (hs.wellFormed.areProper_of_bytesAt (hfound ▸ Option.some_ne_none found))
    rintro rfl
    rw [append_nil, hs.root] at hfound
    cases hfound
  refine planStaleFile_eq_none ?_
  by_cases houtput : relative names ∈ outputPaths reports
  · obtain ⟨f, hf, hpath⟩ := mem_map.mp houtput
    obtain ⟨writer, hwriter, hf⟩ := mem_flatMap.mp hf
    refine .inl ((h.generates_or_keepsOff hwriter (mem_map.mpr ⟨f, hf, hpath⟩) hleads
      hreport).resolve_right fun hoff => ?_)
    exact hoff directory hmem ⟨rest, hne, hplace.symm⟩
  · have hnot : ¬ Wrote q.completed (relative names) := fun hwrote =>
      houtput (hreports ▸ mem_outputPaths_append (mem_outputPaths_of_wrote hrun hwrote))
    rw [bytesAt_congr (hq.get?_eq h hs hreports hrun hleads hnot), hfound] at hbytes
    cases hbytes
    exact .inr (hclear houtput)

theorem Repeats.writeTarget
    (hshort : ∀ directory ∈ managed.of report.target, ¬ IsTooLong (w.location directory)) :
    ∃ q', q.writeTarget w m managed report = .ok q' ∧ w.Repeats t q' := by
  have hreport : report ∈ reports := by simp [hreports]
  obtain ⟨-, htree, -⟩ := (hreports ▸ h.layout).mono.run_sound hs.wellFormed hs.root hrun
  obtain ⟨herror, hidle⟩ := hs.flawless report hreport
  cases hresult : report.result with
  | none =>
    refine ⟨{ q with done := q.done ++ [report] }, by rw [Progress.writeTarget, hresult],
      hq.overwritten, hq.writes, ?_⟩
    refine forall_mem_append.mpr ⟨hq.done, forall_mem_singleton.mpr ⟨hidle hresult, ?_⟩⟩
    simp [hresult]
  | some result =>
    have houtputs := TargetReport.outputs_of_result hresult
    obtain ⟨plan, hplan, hactions⟩ := plan_of_known
      (fun f hf => hq.planOutput h hs hreports hrun (houtputs ▸ hf))
      (fun directory hmem => houtputs ▸ hq.planStaleIn h hs hreports hrun hmem (by simp [hresult])
        (hshort directory hmem))
    have hover : ∀ a ∈ plan.actions, w.Overwrites q.tree a := by
      intro a ha
      obtain ⟨f, hf, hwrite, hbackup⟩ := hactions a ha
      rw [← houtputs] at hf
      obtain ⟨-, ⟨new, hnew⟩, names, bytes, hleads, hshort, hbytes, -⟩ :=
        hs.written report hreport f hf
      obtain ⟨found, hfound⟩ := hq.overwritten.exists_bytesAt hbytes
      have hkind : a.kind = .writeText := by
        rw [hwrite.kind_eq, if_neg (h.plain report hreport f hf)]
      exact ⟨hkind, hbackup, ⟨f.desired, new, (hwrite.plain hkind).2, hnew⟩, names, found,
        hwrite.path_eq ▸ hleads, hshort, hfound⟩
    obtain ⟨e, he, hfailures, -, hbackups, hafter⟩ := execute_overwrites h.proper htree hover
    obtain ⟨htree', hcompleted, hdone⟩ := q.after_unchanged report plan e
    rw [completed_eq_of_failures_eq_nil he hfailures] at hcompleted
    refine ⟨q.after report plan e, ?_, ?_, ?_, ?_⟩
    · rw [Progress.writeTarget_of_plans ⟨result, hresult, hplan⟩, he]
      rfl
    · rw [htree', hcompleted]
      refine (hq.overwritten.mono ?_).trans (hafter.mono ?_)
      · exact fun place ⟨a, ha, hplace⟩ => ⟨a, mem_append_left _ ha, hplace⟩
      · exact fun place ⟨a, ha, hplace⟩ => ⟨a, mem_append_right _ ha, hplace⟩
    · rw [hcompleted]
      exact forall_mem_append.mpr ⟨hq.writes, fun a ha => (hover a ha).kind⟩
    · rw [hdone]
      refine forall_mem_append.mpr ⟨hq.done, forall_mem_singleton.mpr ⟨?_, ?_⟩⟩
      · simp [TargetReport.ok, Progress.reportOf, herror, Execution.failed, hfailures]
      · exact fun _ => hbackups

end Target

/-- A second run on what the first has left writes over files, target by target. It finds nothing to
remove, and copies nothing away. -/
theorem Separates.run_repeats (h : w.Separates reports managed)
    (hs : w.IsSettled m managed reports t)
    (hshort : ∀ report ∈ reports, ∀ directory ∈ managed.of report.target,
      ¬ IsTooLong (w.location directory)) :
    ∃ q, w.run (some m) t reports managed = .ok q ∧ w.Repeats t q := by
  suffices hprefix : ∀ before after, reports = before ++ after →
      ∃ q, w.run (some m) t before managed = .ok q ∧ w.Repeats t q from
    hprefix reports [] (append_nil _).symm
  intro before
  induction before using reverseRecOn with
  | nil => exact fun _ _ => ⟨{ tree := t }, rfl, .refl t, by simp, by simp⟩
  | append_singleton before report ih =>
    intro after hreports
    rw [append_assoc, singleton_append] at hreports
    obtain ⟨q, hrun, hq⟩ := ih _ hreports
    obtain ⟨q', hnext, hq'⟩ :=
      hq.writeTarget h hs hreports hrun (hshort report (by simp [hreports]))
    refine ⟨q', ?_, hq'⟩
    rw [run, foldlM_append]
    exact bind_eq_ok.mpr ⟨q, hrun, bind_eq_ok.mpr ⟨q', hnext, rfl⟩⟩

theorem Separates.restamp (h : w.Separates reports managed)
    (hstamp : Path.IsProper stamp) : Separates ⟨w.root, stamp⟩ reports managed :=
  ⟨⟨⟨h.proper.root, hstamp⟩, h.outputs, h.managed⟩, h.distinct, h.plain, h.apart⟩

theorem IsSettled.restamp (hs : w.IsSettled m managed reports t) (stamp : Text) :
    IsSettled ⟨w.root, stamp⟩ m managed reports t :=
  ⟨hs.wellFormed, hs.root, hs.flawless, hs.written, hs.cleared⟩

end Workplace

namespace Manifest

theorem sorted_congr {files files' : List ManifestEntry} (h : (files.map (·.path)).Nodup)
    (h' : (files'.map (·.path)).Nodup) (hsame : ∀ e, e ∈ files ↔ e ∈ files') :
    sorted files = sorted files' := by
  have hperm : (sorted files).Perm (sorted files') :=
    ((mergeSort_perm _ _).trans ((perm_ext_iff_of_nodup h.of_map h'.of_map).mpr hsame)).trans
      (mergeSort_perm _ _).symm
  refine hperm.eq_of_pairwise ?_ (pairwise_sorted h) (pairwise_sorted h')
  exact fun a b _ _ hab hba => absurd (Text.le_antisymm hab.1 hba.1) hab.2

theorem version_of_manifest {p : Progress} {previous : Option Manifest} {manifest : Manifest}
    (h : p.manifest root previous = .ok manifest) : manifest.version = programVersion := by
  obtain ⟨_, -, h⟩ := bind_eq_ok.mp h
  obtain ⟨_, -, h⟩ := bind_eq_ok.mp h
  cases h
  rfl

end Manifest

namespace Workplace

variable {w : Workplace} {t t' : FileTree} {previous : Option Manifest}
  {reports : List TargetReport} {managed : ManagedDirs} {p q : Progress} {manifest : Manifest}

section Listed

variable (h : w.Separates reports managed) (ht : t.WellFormed) (hroot : t.bytesAt w.root = none)
  (hdistinct : (previous.getD {}).paths.Nodup) (hrun : w.run previous t reports managed = .ok p)
  {e : ManifestEntry}
include h hrun

theorem Separates.wrote_iff (hok : ∀ r ∈ p.done, r.ok = true) :
    Wrote p.completed path ↔ path ∈ outputPaths reports := by
  refine ⟨mem_outputPaths_of_wrote hrun, fun hmem => ?_⟩
  obtain ⟨f, hf, rfl⟩ := mem_map.mp hmem
  obtain ⟨report, hreport, hf⟩ := mem_flatMap.mp hf
  obtain ⟨-, a, ha, hkind, hpath, -⟩ := h.run_completes hrun hok report hreport f hf
  exact ⟨a, ha, by rw [hkind]; rfl, hpath⟩

variable (hmanifest : p.manifest w.root previous = .ok manifest)
include ht hroot hdistinct hmanifest

theorem Separates.listed_iff (hok : ∀ r ∈ p.done, r.ok = true)
    (hmem : e.path ∈ outputPaths reports) :
    e ∈ manifest.files ↔ ∃ names bytes, Leads e.path names ∧ IsOutside names ∧
      p.tree.bytesAt (w.root ++ names) = some bytes ∧ e.checksum = Digest.sha256 bytes ∧
      e.ownedKeys = none := by
  have hend := holds_of_run h.toSetting ht hroot hrun
  obtain ⟨-, hlisted, -⟩ := hend.2.manifest_inv h.proper hend.1 hdistinct hmanifest
  obtain ⟨a, hlast⟩ := Option.isSome_iff_exists.mp
    (isSome_lastWrite?.mpr ((h.wrote_iff hrun hok).mpr hmem))
  obtain ⟨ha, hpersists, -⟩ := lastWrite?_eq_some hlast
  have hkeys := (h.run_plain hrun ha hpersists).2
  rw [hlisted]
  constructor
  · rintro (⟨-, -, hnone, -⟩ | ⟨b, hb, names, bytes, hleads, hout, hbytes, hchecksum, howned⟩)
    · cases hnone.symm.trans hlast
    · cases hb.symm.trans hlast
      exact ⟨names, bytes, hleads, hout, hbytes, hchecksum, by rw [howned, hkeys]; rfl⟩
  · rintro ⟨names, bytes, hleads, hout, hbytes, hchecksum, howned⟩
    exact .inr ⟨a, hlast, names, bytes, hleads, hout, hbytes, hchecksum, by rw [howned, hkeys]; rfl⟩

theorem Separates.exists?_of_listed (hload : Manifest.load t w.root = .ok previous)
    (hsave : manifest.save p.tree w.root = .ok t') (he : e ∈ manifest.files)
    (hnot : ¬ Wrote p.completed e.path) : t'.exists? (w.location e.path) = .ok true := by
  obtain ⟨htallies, hholds⟩ := holds_of_run h.toSetting ht hroot hrun
  obtain ⟨-, hlisted, -⟩ := hholds.manifest_inv h.proper htallies hdistinct hmanifest
  rcases (hlisted e).mp he with ⟨hold, -, -, hexists⟩ | ⟨a, hlast, -⟩
  · cases previous with
    | none => cases hold
    | some old =>
      rw [(hholds.save_sameShape h.proper ht hload hsave).exists?_eq]
      exact hexists
  · exact absurd (isSome_lastWrite?.mp (hlast ▸ rfl)) hnot

end Listed

section Again

variable (h : w.Separates reports managed) (ht : t.WellFormed) (hroot : t.bytesAt w.root = none)
  (hload : Manifest.load t w.root = .ok previous) (hdistinct : (previous.getD {}).paths.Nodup)
  (hrun : w.run previous t reports managed = .ok p) (hok : ∀ r ∈ p.done, r.ok = true)
  (hmanifest : p.manifest w.root previous = .ok manifest)
  (hsave : manifest.save p.tree w.root = .ok t') {stamp : Text} (hstamp : Path.IsProper stamp)
  (hagain : run ⟨w.root, stamp⟩ (some manifest.joined) t' reports managed = .ok q)
  (hq : Repeats ⟨w.root, stamp⟩ t' q) {more : Manifest}
include h ht hroot hrun hok hsave hstamp hagain hq

theorem Separates.get?_again (hs : w.IsSettled manifest.joined managed reports t')
    (location : List Text) : q.tree.get? location = t'.get? location := by
  have h' := h.restamp hstamp
  rcases hq.overwritten location with heq | ⟨⟨a, ha, hplace⟩, bytes, bytes', hbefore, hafter⟩
  · exact heq
  have hpersists : a.kind.persists = true := by rw [hq.writes a ha]; rfl
  obtain ⟨⟨names, hleads, hout⟩, -⟩ :=
    h'.layout.run_writes hs.wellFormed hs.root hagain ha hpersists
  have hmem := mem_outputPaths_of_wrote hagain ⟨a, ha, hpersists, rfl⟩
  obtain rfl : location = w.root ++ names := hplace.trans (location_eq _ hleads)
  -- the texts for the path have been written before, one after the other
  have hchange := h.changesAt_of_save ht hroot hrun hsave
  have hfirst := congrArg Prod.snd (h.run_standing ht hroot hleads hout hmem hrun hok)
  have hsecond := congrArg Prod.snd (h'.run_standing hs.wellFormed hs.root hleads hout hmem hagain
    fun r hr => (hq.done r hr).1)
  have hsame : q.tree.bytesAt (w.root ++ names) = t'.bytesAt (w.root ++ names) := by
    change p.tree.bytesAt (w.root ++ names) = _ at hfirst
    change q.tree.bytesAt (w.root ++ names) = _ at hsecond
    rw [hsecond, hchange.elsewhere (hout.ne_manifest w.root), hfirst, foldl_leave_again]
  rw [bytesAt_eq_some_iff.mpr hbefore, bytesAt_eq_some_iff] at hsame
  rw [hsame, hbefore]

include hload hdistinct hmanifest

theorem Separates.exists_manifest_again (hs : w.IsSettled manifest.joined managed reports t') :
    ∃ more, q.manifest w.root (some manifest.joined) = .ok more := by
  have h' := h.restamp hstamp
  have hwrote : ∀ {path}, Wrote q.completed path ↔ path ∈ outputPaths reports :=
    h'.wrote_iff hagain fun r hr => (hq.done r hr).1
  obtain ⟨htallies, -, -⟩ := h'.layout.run_sound hs.wellFormed hs.root hagain
  refine exists_manifest (w := ⟨w.root, stamp⟩) h'.proper (fun e he hnone => ?_)
    fun ⟨path, a⟩ hmem => ?_
  · rw [Option.getD_some, h.files_joined ht hroot hload hrun hmanifest, mem_sorted] at he
    rw [htallies.persisted, lastWrite?_eq_none_iff, hwrote, ← h.wrote_iff hrun hok] at hnone
    have hexists := h.exists?_of_listed ht hroot hdistinct hrun hmanifest hload hsave he hnone
    rw [hq.overwritten.sameShape.exists?_eq]
    change FailsOnly _ (Failure.atPath (w.location e.path) (t'.exists? (w.location e.path)))
    rw [hexists]
    exact .ok _
  · obtain ⟨ha, hpersists, hpath⟩ :=
      lastWrite?_eq_some (htallies.mem_persisted_iff.mp hmem)
    obtain ⟨f, hf, rfl⟩ := mem_map.mp (hwrote.mp ⟨a, ha, hpersists, hpath⟩)
    obtain ⟨report, hreport, hf⟩ := mem_flatMap.mp hf
    obtain ⟨-, -, names, -, hleads, hshort, -⟩ := hs.written report hreport f hf
    refine ⟨⟨names, hleads⟩, ?_⟩
    rwa [IsShort, location_eq _ hleads]

section

variable (hs : w.IsSettled manifest.joined managed reports t')
  (hmore : q.manifest w.root (some manifest.joined) = .ok more)
include hs hmore

theorem Separates.mem_again_iff (e : ManifestEntry) : e ∈ more.files ↔ e ∈ manifest.files := by
  have h' := h.restamp hstamp
  have hok' : ∀ r ∈ q.done, r.ok = true := fun r hr => (hq.done r hr).1
  have hnodup : ((some manifest.joined).getD {}).paths.Nodup :=
    h.nodup_joined ht hroot hload hrun hmanifest hdistinct
  by_cases hmem : e.path ∈ outputPaths reports
  · have hchange := h.changesAt_of_save ht hroot hrun hsave
    have hsame {names : List Text} (hout : IsOutside names) :
        q.tree.bytesAt (w.root ++ names) = p.tree.bytesAt (w.root ++ names) := by
      rw [bytesAt_congr (h.get?_again ht hroot hrun hok hsave hstamp hagain hq hs _),
        hchange.elsewhere (hout.ne_manifest w.root)]
    rw [h'.listed_iff hs.wellFormed hs.root hnodup hagain hmore hok' hmem,
      h.listed_iff ht hroot hdistinct hrun hmanifest hok hmem]
    constructor
    · rintro ⟨names, bytes, hleads, hout, hbytes, hentry⟩
      exact ⟨names, bytes, hleads, hout, (hsame hout).symm.trans hbytes, hentry⟩
    · rintro ⟨names, bytes, hleads, hout, hbytes, hentry⟩
      exact ⟨names, bytes, hleads, hout, (hsame hout).trans hbytes, hentry⟩
  · have hunwritten : lastWrite? q.completed e.path = none :=
      lastWrite?_eq_none_iff.mpr fun hwrote => hmem (mem_outputPaths_of_wrote hagain hwrote)
    have hremoved : e.path ∉ removedBy q.completed := by
      intro hremoved
      obtain ⟨a, ha, -⟩ := mem_map.mp hremoved
      obtain ⟨ha, hkind⟩ := mem_filter.mp ha
      simp [hq.writes a ha] at hkind
    have hend := holds_of_run h'.toSetting hs.wellFormed hs.root hagain
    obtain ⟨-, hlisted, -⟩ := hend.2.manifest_inv h'.proper hend.1 hnodup hmore
    rw [hlisted, Option.getD_some, h.files_joined ht hroot hload hrun hmanifest,
      mem_sorted, hunwritten]
    constructor
    · rintro (⟨he, -⟩ | ⟨a, hlast, -⟩)
      · exact he
      · cases hlast
    · intro he
      refine .inl ⟨he, hremoved, rfl, ?_⟩
      rw [hq.overwritten.sameShape.exists?_eq]
      exact h.exists?_of_listed ht hroot hdistinct hrun hmanifest hload hsave he fun hwrote =>
        hmem (mem_outputPaths_of_wrote hrun hwrote)

theorem Separates.save_again : ∃ t'', more.save q.tree w.root = .ok t'' ∧
      ∀ location, t''.get? location = t'.get? location := by
  have h' := h.restamp hstamp
  have hsame := h.get?_again ht hroot hrun hok hsave hstamp hagain hq hs
  obtain ⟨-, htree, -⟩ := h'.layout.run_sound hs.wellFormed hs.root hagain
  have hend := holds_of_run h.toSetting ht hroot hrun
  obtain ⟨hnodup, -⟩ := hend.2.manifest_inv h.proper hend.1 hdistinct hmanifest
  have hend' := holds_of_run h'.toSetting hs.wellFormed hs.root hagain
  have hjoined : ((some manifest.joined).getD {}).paths.Nodup :=
    h.nodup_joined ht hroot hload hrun hmanifest hdistinct
  obtain ⟨hnodup', -⟩ := hend'.2.manifest_inv h'.proper hend'.1 hjoined hmore
  have hlisted := h.mem_again_iff ht hroot hload hdistinct hrun hok hmanifest hsave hstamp hagain
    hq hs hmore
  have hjson : more.toJson = manifest.toJson := by
    rw [toJson, toJson, version_of_manifest hmore,
      version_of_manifest hmanifest, sorted_congr hnodup' hnodup hlisted]
  have hwrite := mapError_eq_ok.mp hsave
  rw [Manifest.location_eq] at hwrite
  have hproper : AreProper (w.root ++ Manifest.names) :=
    h.proper.root.append areProper_names
  obtain ⟨bytes, hbytes, hleft⟩ := write_inv hend.2.wellFormed hproper hwrite
  have hfound : q.tree.bytesAt (w.root ++ Manifest.names) = some bytes := by
    rw [bytesAt_congr (hsame _), hleft]
  obtain ⟨t'', hwritten, hstill⟩ :=
    htree.write_same (write_not_isTooLong hproper hwrite) hfound hbytes
  refine ⟨t'', ?_, fun location => (hstill location).trans (hsame location)⟩
  rw [Manifest.save, Manifest.location_eq, hjson, hwritten]
  rfl

end

end Again

/-- Rebuilding from unchanged sources changes nothing. After a build without failures a second one,
at whatever time, has no failures either, makes no copies, and leaves every file and directory as it
was, the manifest included. -/
theorem rebuild_changes_nothing {build : BuildReport} (h : w.Separates reports managed)
    (hshort : ∀ report ∈ reports, ∀ directory ∈ managed.of report.target,
      ¬ FileTree.IsTooLong (w.location directory))
    (ht : t.WellFormed) (hroot : t.bytesAt w.root = none)
    (hload : Manifest.load t w.root = .ok previous) (hdistinct : (previous.getD {}).paths.Nodup)
    (hwrite : w.write t reports managed = .ok (build, t')) (hok : build.ok = true) {stamp : Text}
    (hstamp : Path.IsProper stamp) :
    ∃ again t'', Workplace.write ⟨w.root, stamp⟩ t' reports managed = .ok (again, t'') ∧
      again.ok = true ∧ (∀ r ∈ again.targets, r.result.isSome = true → r.backups = []) ∧
      ∀ location, t''.get? location = t'.get? location := by
  obtain ⟨found, p, manifest, hfound, hrun, hmanifest, hsave, htargets⟩ := write_ok hwrite
  cases hload.symm.trans hfound
  have hok : ∀ r ∈ p.done, r.ok = true := by
    rw [BuildReport.ok, htargets] at hok
    exact List.all_eq_true.mp hok
  have hs := h.isSettled ht hroot hload hrun hmanifest hdistinct hok hsave
  obtain ⟨q, hagain, hq⟩ := (h.restamp hstamp).run_repeats (hs.restamp stamp) hshort
  obtain ⟨more, hmore⟩ := h.exists_manifest_again ht hroot hload hdistinct hrun hok hmanifest hsave
    hstamp hagain hq hs
  obtain ⟨t'', hsave', hsame⟩ := h.save_again ht hroot hload hdistinct hrun hok hmanifest hsave
    hstamp hagain hq hs hmore
  have hload' := h.load_of_save ht hroot hload hrun hmanifest hsave
  obtain ⟨again, hwrite', hdone⟩ :=
    write_of_run (w := ⟨w.root, stamp⟩) hload' hagain hmore hsave'
  refine ⟨again, t'', hwrite', ?_, ?_, hsame⟩
  · rw [BuildReport.ok, hdone]
    exact List.all_eq_true.mpr fun r hr => (hq.done r hr).1
  · rw [hdone]
    exact fun r hr => (hq.done r hr).2

/-- A project with a file of the user's and a stale one. -/
def contestedFiles : FileTree :=
  ⟨[(["p", "d", "x.md"], .ofText (OutputFile.desired ⟨"d/x.md", "", .full⟩)),
    (["p", "c"], .file ⟨#[117]⟩), (["p", "d"], .dir), (["p"], .dir)]⟩

private theorem contestedSeparates : Separates ⟨["p"], "S"⟩ contestedReports [("t", ["d"])] := by
  have hcalled : Leads "c" ["c"] := leads_of_isPlain (by decide +kernel)
  have hoff : ∀ names, Leads "c" names → ¬ LiesIn ["p"] "d" names := by
    rintro names hleads ⟨rest, -, hplace⟩
    obtain rfl : names = ["c"] := hleads.names_eq.symm.trans hcalled.names_eq
    have hjoin : join ["p"] "d" = ["p", "d"] := by decide +kernel
    have hother : ("c" : Text) ≠ "d" := by decide +kernel
    simp [hjoin, hother] at hplace
  have houtputs : ∀ report ∈ contestedReports, ∀ f ∈ report.outputs,
      f.path = "c" ∧ f.ownership = .unmarked := by
    simp [contestedReports, TargetReport.outputs]
  have horderly : ∀ r ∈ contestedReports, r.StaysOutside ∧ r.HasDistinctPaths :=
    TargetReport.of_isOrderly (by decide +kernel)
  have hkeeps : ∀ report ∈ contestedReports, ∀ other ∈ contestedReports,
      report.KeepsOff ["p"] [("t", ["d"])] other := by
    intro report hreport other hother directory hmem f hf names hleads
    have hdirectory : directory = "d" := by
      simp only [contestedReports, mem_cons, not_mem_nil, or_false] at hreport
      rcases hreport with rfl | rfl
      · simpa [ManagedDirs.of] using hmem
      · cases hmem
    rw [hdirectory]
    exact hoff names ((houtputs other hother f hf).1 ▸ hleads)
  refine ⟨⟨isProper_of_isPlain (by decide +kernel), fun r hr => (horderly r hr).1, ?_⟩,
    fun r hr => (horderly r hr).2, ?_, ?_⟩
  · apply ManagedDirs.spares_of_forall
    intro e he directory hmem
    obtain rfl := mem_singleton.mp he
    obtain rfl := mem_singleton.mp hmem
    exact ⟨areProper_of_isPlain (by decide +kernel), by decide +kernel, by decide +kernel⟩
  · intro report hreport f hf
    rw [(houtputs report hreport f hf).2]
    decide
  · refine pairwise_iff_forall_sublist.mpr fun {report other} hsub => ?_
    have hreport := hsub.subset mem_cons_self
    have hother := hsub.subset (mem_cons_of_mem _ (mem_singleton_self other))
    exact ⟨hkeeps report hreport other hother, hkeeps other hother report hreport⟩

/-- Two targets contest a file of the user's, and one of them removes a stale file. A second build
an hour later changes nothing. -/
theorem rebuild_changes_nothing_of_contested :
    ∃ build t' again t'',
      Workplace.write ⟨["p"], "S"⟩ contestedFiles contestedReports [("t", ["d"])] =
        .ok (build, t') ∧ build.backups = ["c", "d/x.md"] ∧
      Workplace.write ⟨["p"], "T"⟩ t' contestedReports [("t", ["d"])] = .ok (again, t'') ∧
      again.ok = true ∧ (∀ r ∈ again.targets, r.result.isSome = true → r.backups = []) ∧
      ∀ location, t''.get? location = t'.get? location := by
  have hwrite : Outcome.checks (fun result =>
        result.1.ok && result.1.backups == (["c", "d/x.md"] : List Text))
      (Workplace.write ⟨["p"], "S"⟩ contestedFiles contestedReports [("t", ["d"])]) = true := by
    decide +kernel
  obtain ⟨⟨build, t'⟩, hwritten, hchecked⟩ := Outcome.exists_of_checks hwrite
  rw [Bool.and_eq_true, beq_iff_eq] at hchecked
  have hload : Manifest.load contestedFiles ["p"] = .ok none := rfl
  have hstamp : Path.IsProper "T" := (isFileName_of_isPlain (by decide +kernel)).toIsProper
  obtain ⟨again, t'', hagain⟩ := rebuild_changes_nothing contestedSeparates (by decide +kernel)
    (FileTree.wellFormed_of_isPlain (by decide +kernel))
    (FileTree.bytesAt_of_dir (t := contestedFiles) (by decide +kernel)) hload List.nodup_nil
    hwritten hchecked.1 hstamp
  exact ⟨build, t', again, t'', hwritten, hchecked.2, hagain⟩

/-- A manifest that lists a file twice, first without its digest. -/
def doublyListedTree : FileTree :=
  ⟨[(["p", ".agentrc", ".manifest.json"], .ofText (
      "\x7b\"files\":[\x7b\"path\":\"d/x\"\x7d,\x7b\"path\":\"d/x\",\"checksum\":\"" ++
      "0bfe935e70c321c7ca3afc75ce0d0ca2f98b5422e008bb31c00c6d7f1f1c0ad6\"\x7d]\x7d")),
    (["p", ".agentrc"], .dir), (["p", "d", "x"], .file ⟨#[117]⟩), (["p", "d"], .dir),
    (["p"], .dir)]⟩

/-- The first entry counts for the first build, and the last one is saved: the second build takes
the file for one that it has left. -/
theorem doubly_listed_file_is_removed :
    ∃ build t' again t'',
      Workplace.write ⟨["p"], "S"⟩ doublyListedTree [{ target := "t", result := some {} }]
        [("t", ["d"])] = .ok (build, t') ∧
      build.ok = true ∧ t'.bytesAt ["p", "d", "x"] ≠ none ∧
      Workplace.write ⟨["p"], "S"⟩ t' [{ target := "t", result := some {} }] [("t", ["d"])] =
        .ok (again, t'') ∧
      t''.bytesAt ["p", "d", "x"] = none := by
  have hwrite : Outcome.checks (fun first =>
      (first.1.ok && (first.2.bytesAt ["p", "d", "x"]).isSome) &&
      Outcome.checks (fun second => (second.2.bytesAt ["p", "d", "x"]).isNone)
        (Workplace.write ⟨["p"], "S"⟩ first.2 [{ target := "t", result := some {} }]
          [("t", ["d"])]))
      (Workplace.write ⟨["p"], "S"⟩ doublyListedTree [{ target := "t", result := some {} }]
        [("t", ["d"])]) = true := by
    decide +kernel
  obtain ⟨⟨build, t'⟩, hfirst, hchecked⟩ := Outcome.exists_of_checks hwrite
  rw [Bool.and_eq_true, Bool.and_eq_true, Option.isSome_iff_ne_none] at hchecked
  obtain ⟨⟨again, t''⟩, hsecond, hnone⟩ := Outcome.exists_of_checks hchecked.2
  exact ⟨build, t', again, t'', hfirst, hchecked.1.1, hchecked.1.2, hsecond,
    Option.isNone_iff_eq_none.mp hnone⟩

end Workplace

end AgentConfig
