import AgentConfig.Proofs.Output.Independence

namespace AgentConfig

open List Outcome PlanContext Progress AgentConfig.Action FileTree AgentConfig.Path

/-- The first names of the files of a target and of the directories that are managed for it. -/
def TargetReport.Uses (managed : ManagedDirs) (report : TargetReport) (first : Text) : Prop :=
  (∃ f ∈ report.outputs, top f.path = first) ∨
    ∃ directory ∈ managed.of report.target, top directory = first

/-- Two targets use no first name in common. -/
def TargetReport.Apart (managed : ManagedDirs) (a b : TargetReport) : Prop :=
  ∀ first, a.Uses managed first → ¬ b.Uses managed first

namespace Workplace

variable {w : Workplace} {managed : ManagedDirs} {report r : TargetReport} {t : FileTree}

theorem IsFor.uses {a : Action} (h : IsFor managed report a) :
    report.Uses managed (top a.path) := by
  cases h with
  | write hmem hpath _ => exact .inl ⟨_, hmem, by rw [hpath]⟩
  | removal hmem htop _ => exact .inr ⟨_, hmem, htop.symm⟩

section Target

variable (h : Setting w [report] managed) (hdirs : managed.StayOutside)
include h hdirs

theorem not_uses_directory : ¬ report.Uses managed Source.directory := by
  rintro (⟨f, hf, htop⟩ | ⟨directory, hdirectory, htop⟩)
  · unfold TargetReport.outputs at hf
    cases hresult : report.result with
    | none => simp [hresult] at hf
    | some result =>
      rw [hresult] at hf
      obtain ⟨names, hleads, hout⟩ := h.outputs report mem_cons_self result hresult f hf
      exact hout (by rw [hleads.head?_eq, htop])
  · obtain ⟨names, hleads, hout⟩ := hdirs _ directory hdirectory
    exact hout (by rw [hleads.head?_eq, htop])

variable {p : Progress} (ht : t.WellFormed)
  (hagrees : w.Agrees (report.Uses managed) p.tree t p.tree)
  (hledger : ∀ path, report.Uses managed (top path) → p.ledger.hasPath path = false)
include ht hagrees hledger

theorem plan_eq_alone {manifest : Manifest} {result : Generated}
    (hresult : report.result = some result) :
    (p.context w manifest).plan report.target result.files (managed.of report.target) =
      (⟨w.root, t, manifest, []⟩ : PlanContext).plan report.target result.files
        (managed.of report.target) := by
  let c : PlanContext := ⟨w.root, t, manifest, []⟩
  have hfiles : ∀ f ∈ result.files, (c.inTree p.tree p.ledger).planOutput report.target f =
      c.planOutput report.target f := by
    intro f hf
    have huses : report.Uses managed (top f.path) :=
      .inl ⟨f, by rwa [TargetReport.outputs, hresult], rfl⟩
    obtain ⟨names, hleads, -⟩ := h.outputs report mem_cons_self result hresult f hf
    refine planOutput_inTree ?_ ?_
    · exact Option.not_isSome_iff_eq_none.mp (by simpa [Ledger.hasPath] using hledger _ huses)
    · have hsame := entry?_congr (h.proper.areProper hleads) (hagrees.same hleads huses)
      rw [← hleads.join_eq w.root] at hsame
      exact congrArg (Failure.atPath (Path.join w.root f.path)) hsame
  have hstale : ∀ directory ∈ managed.of report.target,
      (c.inTree p.tree p.ledger).planStaleIn report.target (result.files.map (·.path)) directory =
        c.planStaleIn report.target (result.files.map (·.path)) directory := by
    intro directory hdirectory
    have huses : report.Uses managed (top directory) := .inr ⟨directory, hdirectory, rfl⟩
    obtain ⟨names, hleads, -⟩ := hdirs _ directory hdirectory
    have hproper := h.proper.areProper hleads
    refine planStaleIn_inTree (hleads.join_eq w.root) hproper (fun rest => hledger _ ?_)
      (entry?_congr hproper (hagrees.same hleads huses))
      (ht.filesBelow_congr hagrees.right fun rest _ => ?_)
    · obtain ⟨more, hmore⟩ := head?_eq_some_iff.mp hleads.head?_eq
      have hname := hleads.proper (top directory) (by simp [hmore])
      rwa [hmore, cons_append, top_relative hname.no_slash]
    · exact bytesAt_congr (hagrees.alike_eq (.inr (isPlaceOf_location hleads huses rest)))
  show (c.inTree p.tree p.ledger).plan _ _ _ = c.plan _ _ _
  unfold plan
  rw [mapM_congr hfiles, mapM_congr hstale]

theorem writeTarget_alike (hroot : t.bytesAt w.root = none) (manifest : Manifest) :
    Both (fun q p' => w.Agrees (report.Uses managed) p.tree q.tree p'.tree ∧
        p'.completed = p.completed ++ q.completed ∧
        ∀ a ∈ q.completed, report.Uses managed (top a.path))
      (writeTarget w manifest managed { tree := t } report)
      (writeTarget w manifest managed p report) := by
  unfold writeTarget
  cases hresult : report.result with
  | none => exact ⟨hagrees, by simp, nofun⟩
  | some result =>
    have hplans : (⟨w.root, p.tree, manifest, p.ledger⟩ : PlanContext).plan _ _ _ = _ :=
      plan_eq_alone h hdirs ht hagrees hledger hresult
    dsimp only
    rw [hplans]
    cases hplan : (⟨w.root, t, manifest, []⟩ : PlanContext).plan report.target result.files
      (managed.of report.target) with
    | error failure =>
      dsimp only
      split
      · exact ⟨hagrees, by simp, nofun⟩
      · trivial
    | ok plan =>
      have hplanned : w.Planned (some manifest) t [report] managed report { tree := t } plan :=
        ⟨⟨[], [], rfl, rfl⟩, result, hresult, hplan⟩
      have hactions : ∀ a ∈ plan.actions, IsOrdinary a ∧ report.Uses managed (top a.path) :=
        fun a ha => ⟨h.isOrdinary ht hroot hplanned a ha,
          (hplanned.isFor h hdirs ht hroot a ha).uses⟩
      refine (hagrees.execute h.proper (not_uses_directory h hdirs) hactions).bind ?_
      rintro e f he - ⟨htree, hcompleted⟩
      refine ⟨?_, ?_, ?_⟩
      · rw [(foldl_note_unchanged _ _).1, (foldl_note_unchanged _ _).1]
        exact htree
      · rw [(foldl_note_unchanged _ _).2.1, (foldl_note_unchanged _ _).2.1, hcompleted]
        rfl
      · rw [(foldl_note_unchanged _ _).2.1]
        exact fun a ha => (hactions a (execute_completed he a ha)).2

end Target

/-- A run has come to what comes of its targets one by one: for each target what `alone` leaves in
its places, and elsewhere what was there before, but for the directories on the way to the
copies. -/
structure Merges (w : Workplace) (managed : ManagedDirs) (t : FileTree)
    (alone : TargetReport → Except Halt Progress) (reports : List TargetReport) (p : Progress) :
    Prop where
  wellFormed : p.tree.WellFormed
  places : ∀ {report q place}, report ∈ reports → alone report = .ok q →
    w.IsPlaceOf (report.Uses managed) place → p.tree.get? place = q.tree.get? place
  dirs : ∀ {place}, place <+: w.copyRoot → (p.tree.get? place = some .dir ↔
    t.get? place = some .dir ∨
      ∃ report ∈ reports, ∃ q, alone report = .ok q ∧ q.tree.get? place = some .dir)
  bytes : ∀ {place}, place <+: w.copyRoot → p.tree.bytesAt place = t.bytesAt place
  others : ∀ {place}, ¬ place <+: w.copyRoot →
    (∀ report ∈ reports, ¬ w.IsPlaceOf (report.Uses managed) place) →
    p.tree.get? place = t.get? place
  uses : ∀ {report q}, report ∈ reports → alone report = .ok q →
    ∀ a ∈ q.completed, report.Uses managed (top a.path)
  writes : ∀ {path a}, lastWrite? p.completed path = some a ↔
    ∃ report ∈ reports, ∃ q, alone report = .ok q ∧ lastWrite? q.completed path = some a
  removals : ∀ {path}, path ∈ removedBy p.completed ↔
    ∃ report ∈ reports, ∃ q, alone report = .ok q ∧ path ∈ removedBy q.completed

variable {reports others : List TargetReport} {alone : TargetReport → Except Halt Progress}
  {p p' q : Progress}

namespace Merges

theorem get?_eq (h : Merges w managed t alone reports p) (h' : Merges w managed t alone reports p')
    (hreturns : ∀ report ∈ reports, ∃ q, alone report = .ok q) (place : List Text) :
    p'.tree.get? place = p.tree.get? place := by
  by_cases hway : place <+: w.copyRoot
  · ext entry
    cases entry with
    | dir => rw [h.dirs hway, h'.dirs hway]
    | file bytes =>
      rw [← bytesAt_eq_some_iff, ← bytesAt_eq_some_iff, h.bytes hway, h'.bytes hway]
  by_cases hplace : ∃ report ∈ reports, w.IsPlaceOf (report.Uses managed) place
  · obtain ⟨report, hreport, hplace⟩ := hplace
    obtain ⟨q, hq⟩ := hreturns report hreport
    rw [h.places hreport hq hplace, h'.places hreport hq hplace]
  · have hnone : ∀ report ∈ reports, ¬ w.IsPlaceOf (report.Uses managed) place :=
      fun report hreport hat => hplace ⟨report, hreport, hat⟩
    rw [h.others hway hnone, h'.others hway hnone]

theorem of_mem_iff (h : Merges w managed t alone reports p)
    (hmem : ∀ report, report ∈ reports ↔ report ∈ others) : Merges w managed t alone others p := by
  obtain ⟨hwellFormed, hplaces, hdirs, hbytes, hothers, huses, hwrites, hremovals⟩ := h
  simp only [hmem] at hplaces hdirs hothers huses hwrites hremovals
  exact ⟨hwellFormed, hplaces, hdirs, hbytes, hothers, huses, hwrites, hremovals⟩

theorem start (ht : t.WellFormed) : Merges w managed t alone [] { tree := t } where
  wellFormed := ht
  places := nofun
  dirs _ := by simp
  bytes _ := rfl
  others _ _ := rfl
  uses := nofun
  writes := by simp [lastWrite?]
  removals := by simp [removedBy]

section Step

variable {before : List TargetReport} (h : Merges w managed t alone before p)
  (hout : ∀ r ∈ before ++ [report], ¬ r.Uses managed Source.directory)
  (hapart : ∀ r ∈ before, r.Apart managed report)
include h hout hapart

omit h in
theorem not_isPlaceOf {place : List Text} (hr : r ∈ before)
    (hplace : w.IsPlaceOf (r.Uses managed) place) : ¬ w.IsPlaceOf (report.Uses managed) place := by
  intro hnext
  obtain ⟨first, hfirst, hfirst'⟩ :=
    hplace.exists_common hnext (hout r (mem_append_left _ hr)) (hout report (by simp))
  exact hapart r hr first hfirst hfirst'

theorem agrees (ht : t.WellFormed) (hroot : t.get? w.root = some .dir) :
    w.Agrees (report.Uses managed) p.tree t p.tree := by
  refine ⟨ht, h.wellFormed, fun {place} hplace => ?_, fun {place} hplace => ?_, h.bytes,
    fun _ _ => rfl⟩
  · rcases hplace with habove | hplace
    · have hdir := (h.dirs (root_prefix_copyRoot w)).mpr (.inl hroot)
      rw [ht.get?_of_prefix hroot habove, h.wellFormed.get?_of_prefix hdir habove]
    · exact h.others (hplace.not_above (hout report (by simp)))
        fun r hr hat => not_isPlaceOf hout hapart hr hat hplace
  · cases hget : p.tree.get? place with
    | some entry => rfl
    | none =>
      refine (Option.eq_none_iff_forall_ne_some.mpr fun entry hentry => ?_).symm
      cases entry with
      | dir => simp [(h.dirs hplace).mpr (.inl hentry)] at hget
      | file bytes =>
        have hbytes := h.bytes hplace
        rw [bytesAt_eq_some_iff.mpr hentry, bytesAt_eq_some_iff, hget] at hbytes
        cases hbytes

omit hout in
theorem lastWrite?_eq_none {path : Text} (huses : report.Uses managed (top path)) :
    lastWrite? p.completed path = none := by
  refine Option.eq_none_iff_forall_ne_some.mpr fun a hlast => ?_
  obtain ⟨r, hr, q, hq, hwrite⟩ := h.writes.mp hlast
  obtain ⟨ha, -, rfl⟩ := lastWrite?_eq_some hwrite
  exact hapart r hr _ (h.uses hr hq a ha) huses

theorem step (hq : alone report = .ok q)
    (hagrees : w.Agrees (report.Uses managed) p.tree q.tree p'.tree)
    (hcompleted : p'.completed = p.completed ++ q.completed)
    (huses : ∀ a ∈ q.completed, report.Uses managed (top a.path)) :
    Merges w managed t alone (before ++ [report]) p' := by
  have hmem {P : TargetReport → Prop} :
      (∃ r ∈ before ++ [report], P r) ↔ (∃ r ∈ before, P r) ∨ P report := by
    simp [or_and_right, exists_or]
  have hall {P : TargetReport → Progress → Prop}
      (hbefore : ∀ r ∈ before, ∀ q, alone r = .ok q → P r q) (hreport : P report q) :
      ∀ {r q}, r ∈ before ++ [report] → alone r = .ok q → P r q := by
    intro r q' hr hq'
    rcases mem_append.mp hr with hr | hr
    · exact hbefore r hr q' hq'
    · obtain rfl := mem_singleton.mp hr
      cases hq.symm.trans hq'
      exact hreport
  refine ⟨hagrees.right, ?_, ?_, ?_, ?_, ?_, ?_, ?_⟩
  · intro r q' place hr hq'
    refine hall (P := fun r q => w.IsPlaceOf (r.Uses managed) place →
      p'.tree.get? place = q.tree.get? place) (fun r hr q' hq' hplace => ?_)
      (fun hplace => hagrees.alike_eq (.inr hplace)) hr hq'
    rw [← h.places hr hq' hplace]
    exact hagrees.get?_of_other (hplace.not_above (hout r (mem_append_left _ hr)))
      (not_isPlaceOf hout hapart hr hplace)
  · intro place hplace
    rw [hmem, ← or_assoc, ← h.dirs hplace, hagrees.dir_iff hplace]
    simp [hq]
  · intro place hplace
    rw [hagrees.bytesAt_eq (.inr hplace), ← hagrees.bytes_eq hplace, h.bytes hplace]
  · intro place hway hnone
    rw [hagrees.get?_of_other hway (hnone report (by simp)),
      h.others hway fun r hr => hnone r (mem_append_left _ hr)]
  · exact hall (fun r hr q' hq' => h.uses hr hq') huses
  · intro path a
    rw [hmem, hcompleted, lastWrite?_append, ← h.writes]
    cases hwrite : lastWrite? q.completed path with
    | none => simp [hq, hwrite]
    | some b =>
      obtain ⟨hb, -, rfl⟩ := lastWrite?_eq_some hwrite
      simp [hq, hwrite, h.lastWrite?_eq_none hapart (huses b hb)]
  · intro path
    rw [hmem, ← h.removals, hcompleted]
    simp [removedBy, hq]

end Step

end Merges

/-- A run comes to what comes of its targets one by one, each on the tree before the run, and it
ends early if one of them does. -/
theorem run_merges (h : Setting w reports managed) (hdirs : managed.StayOutside)
    (ht : t.WellFormed) (hroot : t.get? w.root = some .dir)
    (hapart : reports.Pairwise (TargetReport.Apart managed)) (previous : Option Manifest) :
    let alone := writeTarget w (previous.getD {}) managed { tree := t }
    Yields (fun p => Merges w managed t alone reports p ∧ ∀ r ∈ reports, ∃ q, alone r = .ok q)
      (fun _ => ∃ r ∈ reports, ∃ halt, alone r = .error halt)
      (w.run previous t reports managed) := by
  intro alone
  refine run_induct_targets (fun before p => Merges w managed t alone before p ∧
    ∀ r ∈ before, ∃ q, alone r = .ok q) (fun _ => ∃ r ∈ reports, ∃ halt, alone r = .error halt)
    ⟨.start ht, nofun⟩ ?_
  rintro before report after p rfl hbefore ⟨hmerges, hreturns⟩
  have hout : ∀ r ∈ before ++ [report], ¬ r.Uses managed Source.directory := fun r hr =>
    not_uses_directory (h.mono (by simp at hr ⊢; tauto)) hdirs
  have hnone : ∀ r ∈ before, r.Apart managed report := fun r hr =>
    (pairwise_append.mp hapart).2.2 r hr report mem_cons_self
  have htallies : p.Tallies p.completed :=
    run_tallies hbefore
  have hboth : Both _ (alone report) _ := writeTarget_alike (h.mono (by simp)) hdirs ht
    (hmerges.agrees hout hnone ht hroot) (fun path huses => by
      rw [htallies.ledger, hmerges.lastWrite?_eq_none hnone huses]
      rfl) (bytesAt_of_dir hroot) (previous.getD {})
  cases halone : alone report <;>
  cases hnext : p.writeTarget w (previous.getD {}) managed report <;>
  rw [halone, hnext] at hboth
  · exact ⟨report, by simp, _, halone⟩
  · exact hboth.elim
  · exact hboth.elim
  · obtain ⟨hagrees, hcompleted, huses⟩ := hboth
    refine ⟨hmerges.step hout hnone halone hagrees hcompleted huses, fun r hr => ?_⟩
    rcases mem_append.mp hr with hr | hr
    · exact hreturns r hr
    · exact ⟨_, mem_singleton.mp hr ▸ halone⟩

end Workplace

end AgentConfig
