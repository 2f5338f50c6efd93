import AgentConfig.Proofs.Output.Sound

namespace AgentConfig.Workplace

open List Outcome AgentConfig.Action AgentConfig.Path

variable {w : Workplace} {t₀ t : FileTree} {actions before more : List Action} {a b : Action}
  {names : List Text}

/-- A file stands at a path that leads out of the source directory. -/
def IsPresent (w : Workplace) (t : FileTree) (path : Text) : Prop :=
  ∃ names bytes, Path.Leads path names ∧ IsOutside names ∧ t.bytesAt (w.root ++ names) = some bytes

/-- The tree of a run that began with the tree `t₀`: the source directory is as it was, but for
copies. -/
structure Guards (w : Workplace) (t₀ t : FileTree) : Prop where
  wellFormed : t.WellFormed
  root : t.bytesAt w.root = none
  inside : ∀ {names}, ¬ IsOutside names → ¬ IsBelowCopies names →
    t.bytesAt (w.root ++ names) = t₀.bytesAt (w.root ++ names)

theorem Guards.bytesAt_manifest (h : w.Guards t₀ t) :
    t.bytesAt (w.root ++ Manifest.names) = t₀.bytesAt (w.root ++ Manifest.names) :=
  h.inside (by decide +kernel) (by decide +kernel)

/-- What holds between the actions of a run that began with the tree `t₀`: each path that was
written has its file, and any other file was there at first and was not removed. -/
structure Holds (w : Workplace) (t₀ t : FileTree) (actions : List Action) : Prop
    extends Guards w t₀ t where
  present : ∀ {path}, Wrote actions path → w.IsPresent t path
  unwritten : ∀ {names bytes}, IsOutside names → ¬ Wrote actions (relative names) →
    t.bytesAt (w.root ++ names) = some bytes →
    t₀.bytesAt (w.root ++ names) = some bytes ∧ relative names ∉ removedBy actions
  plain : ∀ a ∈ actions, a.kind = .writeText → a.ownedKeys = none

/-- An action that may be taken next: a write that has nothing to do finds its file, and a removal
is of a file that was not written. -/
structure Follows (w : Workplace) (t : FileTree) (actions : List Action) (a : Action)
    (names : List Text) : Prop where
  leads : Path.Leads a.path names
  outside : IsOutside names
  kind : a.kind ≠ .removeKeys
  plain : a.kind = .writeText → a.ownedKeys = none
  found : a.kind.persists = true → a.status = .noop → t.bytesAt (w.root ++ names) ≠ none
  unwritten : a.kind = .removeFile → ¬ Wrote actions a.path

section Step

variable (hw : w.IsProper) (hholds : w.Holds t₀ t actions) (hnext : w.Follows t actions a names)
  {changed : Bool} {others : List Text}
include hw hholds hnext

theorem Holds.effect : w.Effect names a.backup t (w.perform t a).tree :=
  perform_effect hw hholds.wellFormed hnext.leads hnext.outside hnext.kind

theorem Holds.written (hpersists : a.kind.persists = true)
    (hresult : (w.perform t a).result = .ok changed) : w.IsPresent (w.perform t a).tree a.path := by
  rw [perform_of_persists hpersists] at hresult ⊢
  rcases performWrite_completed hw hholds.wellFormed hnext.leads hresult with
    ⟨hnoop, htree⟩ | ⟨-, text, bytes, -, -, hbytes⟩
  · rw [htree]
    obtain ⟨bytes, hbytes⟩ := Option.ne_none_iff_exists'.mp (hnext.found hpersists hnoop)
    exact ⟨names, bytes, hnext.leads, hnext.outside, hbytes⟩
  · exact ⟨names, bytes, hnext.leads, hnext.outside, hbytes⟩

theorem Holds.stays (hout : IsOutside others) (hfound : t.bytesAt (w.root ++ others) ≠ none)
    (hkeep : others = names → a.kind.persists = true)
    (hsystem : ∀ {fault}, (w.perform t a).result = .error fault →
      ∀ f, fault = .file f → f.isSystem = true) :
    (w.perform t a).tree.bytesAt (w.root ++ others) ≠ none := by
  by_cases hothers : others = names
  · subst hothers
    cases hresult : (w.perform t a).result with
    | error fault =>
      rw [perform_failed hw hholds.wellFormed hnext.leads hout hnext.kind hresult (hsystem hresult)]
      exact hfound
    | ok changed =>
      obtain ⟨others', bytes, hleads, -, hbytes⟩ := hholds.written hw hnext (hkeep rfl) hresult
      obtain rfl : others' = others := by rw [← hleads.names_eq, hnext.leads.names_eq]
      simp [hbytes]
  · rw [(hholds.effect hw hnext).bytesAt_other hout hothers]
    exact hfound

theorem Holds.keeps_present {path : Text} (hpresent : w.IsPresent t path)
    (hwrote : Wrote actions path)
    (hsystem : ∀ {fault}, (w.perform t a).result = .error fault →
      ∀ f, fault = .file f → f.isSystem = true) : w.IsPresent (w.perform t a).tree path := by
  obtain ⟨others, bytes, hleads, hout, hbytes⟩ := hpresent
  have hkeep : others = names → a.kind.persists = true := by
    rintro rfl
    refine (persists_or_removeFile hnext.kind).resolve_right fun hremove => ?_
    exact hnext.unwritten hremove (hleads.unique hnext.leads ▸ hwrote)
  have hstays := hholds.stays hw hnext hout (by simp [hbytes]) hkeep hsystem
  obtain ⟨after, hafter⟩ := Option.ne_none_iff_exists'.mp hstays
  exact ⟨others, after, hleads, hout, hafter⟩

theorem Holds.guards : w.Guards t₀ (w.perform t a).tree := by
  have heffect := hholds.effect hw hnext
  refine ⟨heffect.wellFormed, (heffect.bytesAt_root hnext.leads.ne_nil).trans hholds.root, ?_⟩
  intro others hin hcopies
  rw [heffect.bytesAt_inside hnext.outside hin hcopies, hholds.inside hin hcopies]

theorem Holds.refused {fault : ActionFault} (hresult : (w.perform t a).result = .error fault)
    (hsystem : ∀ f, fault = .file f → f.isSystem = true) :
    w.Holds t₀ (w.perform t a).tree actions := by
  refine ⟨hholds.guards hw hnext, ?_, ?_, hholds.plain⟩
  · intro path hwrote
    refine hholds.keeps_present hw hnext (hholds.present hwrote) hwrote fun hother => ?_
    rw [hresult] at hother
    cases hother
    exact hsystem
  · intro others bytes hout hwrote hbytes
    refine hholds.unwritten hout hwrote ?_
    rw [← hbytes]
    by_cases hothers : others = names
    · subst hothers
      exact (perform_failed hw hholds.wellFormed hnext.leads hout hnext.kind hresult hsystem).symm
    · exact ((hholds.effect hw hnext).bytesAt_other hout hothers).symm

private theorem Holds.unwritten_done (hresult : (w.perform t a).result = .ok changed)
    {bytes : ByteArray} (hout : IsOutside others)
    (hwrote : ¬ Wrote (actions ++ [a]) (relative others))
    (hbytes : (w.perform t a).tree.bytesAt (w.root ++ others) = some bytes) :
    t₀.bytesAt (w.root ++ others) = some bytes ∧
      relative others ∉ removedBy (actions ++ [a]) := by
  have hproper : Path.AreProper others := (hholds.guards hw hnext).wellFormed.areProper_below
    (FileTree.bytesAt_eq_some_iff.mp hbytes)
  have hothers : others ≠ names := by
    rintro rfl
    rcases persists_or_removeFile hnext.kind with hpersists | hremove
    · exact hwrote ⟨a, by simp, hpersists, hnext.leads.path_eq⟩
    · rw [perform_of_removeFile hremove] at hresult hbytes
      rw [performRemoval_completed hw hholds.wellFormed hnext.leads hresult] at hbytes
      cases hbytes
  have hpath : a.path ≠ relative others := fun heq => hothers
    (Path.relative_injective hproper hnext.leads.proper (heq.symm.trans hnext.leads.path_eq))
  rw [(hholds.effect hw hnext).bytesAt_other hout hothers] at hbytes
  obtain ⟨hsame, hremoved⟩ := hholds.unwritten hout (fun h => hwrote h.append) hbytes
  refine ⟨hsame, fun hmem => ?_⟩
  rw [removedBy, filter_append, map_append, mem_append] at hmem
  rcases hmem with hmem | hmem
  · exact hremoved hmem
  · obtain ⟨b, hb, hb'⟩ := mem_map.mp hmem
    rw [mem_singleton.mp (mem_filter.mp hb).1] at hb'
    exact hpath hb'

theorem Holds.done (hresult : (w.perform t a).result = .ok changed) :
    w.Holds t₀ (w.perform t a).tree (actions ++ [a]) := by
  refine ⟨hholds.guards hw hnext, ?_, fun hout => hholds.unwritten_done hw hnext hresult hout, ?_⟩
  · intro path hwrote
    rcases wrote_append_singleton.mp hwrote with hbefore | ⟨hpersists, rfl⟩
    · refine hholds.keeps_present hw hnext (hholds.present hbefore) hbefore fun hother => ?_
      rw [hresult] at hother
      cases hother
    · exact hholds.written hw hnext hpersists hresult
  · intro b hb
    rcases mem_append.mp hb with hb | hb
    · exact hholds.plain b hb
    · rw [mem_singleton.mp hb]
      exact hnext.plain

theorem Follows.later (hlater : w.Follows t actions b others)
    (hmore : ∀ path, Wrote more path →
      Wrote actions path ∨ (a.kind.persists = true ∧ a.path = path))
    (horder : if a.kind.persists then b.kind = .removeFile → a.path ≠ b.path
      else b.kind = .removeFile) (hsystem : ∀ {fault}, (w.perform t a).result = .error fault →
      ∀ f, fault = .file f → f.isSystem = true) : w.Follows (w.perform t a).tree more b others := by
  refine ⟨hlater.leads, hlater.outside, hlater.kind, hlater.plain, ?_, ?_⟩
  · intro hpersists hnoop
    have ha : a.kind.persists = true := by
      by_contra hnot
      rw [if_neg hnot] at horder
      simp [horder, ActionKind.persists] at hpersists
    exact hholds.stays hw hnext hlater.outside (hlater.found hpersists hnoop) (fun _ => ha) hsystem
  · intro hremove hwrote
    rcases hmore _ hwrote with h | ⟨hpersists, h⟩
    · exact hlater.unwritten hremove h
    · rw [if_pos hpersists] at horder
      exact horder hremove h

end Step

/-- Writes come before removals, and no removal is of a path that was written before it. -/
def WritesFirst (actions : List Action) : Prop :=
  actions.Pairwise fun a b => if a.kind.persists then b.kind = .removeFile → a.path ≠ b.path
    else b.kind = .removeFile

theorem Holds.execute (hw : w.IsProper) (hholds : w.Holds t₀ t before)
    (hnext : ∀ a ∈ actions, ∃ names, w.Follows t before a names) (horder : WritesFirst actions) :
    Yields (fun e => w.Holds t₀ e.tree (before ++ e.completed))
      (fun halt => w.Guards t₀ halt.tree) (w.execute t actions) := by
  have hrun := execute_induct (w := w) (fun e pending => w.Holds t₀ e.tree (before ++ e.completed) ∧
      (∀ a ∈ pending, ∃ names, w.Follows e.tree (before ++ e.completed) a names) ∧
      WritesFirst pending)
    (w.Guards t₀) ?_ ?_ ?_ ⟨by simpa using hholds, by simpa using hnext, horder⟩
  · exact hrun.imp (fun _ h => h.1) fun _ h => h
  · rintro e a rest changed e' ⟨hholds, hnext, horder⟩ hresult htree hcompleted -
    obtain ⟨names, ha⟩ := hnext a mem_cons_self
    obtain ⟨hfirst, hrest⟩ := pairwise_cons.mp horder
    rw [htree, hcompleted, ← append_assoc]
    refine ⟨hholds.done hw ha hresult, ?_, hrest⟩
    intro b hb
    obtain ⟨others, hlater⟩ := hnext b (mem_cons_of_mem _ hb)
    refine ⟨others, Follows.later hw hholds ha hlater
      (fun _ => wrote_append_singleton.mp) (hfirst b hb) fun hother => ?_⟩
    rw [hresult] at hother
    cases hother
  · rintro e a rest fault e' ⟨hholds, hnext, horder⟩ hresult hsystem htree hcompleted -
    obtain ⟨names, ha⟩ := hnext a mem_cons_self
    obtain ⟨hfirst, hrest⟩ := pairwise_cons.mp horder
    rw [htree, hcompleted]
    refine ⟨hholds.refused hw ha hresult hsystem, ?_, hrest⟩
    intro b hb
    obtain ⟨others, hlater⟩ := hnext b (mem_cons_of_mem _ hb)
    refine ⟨others, Follows.later hw hholds ha hlater (fun _ => .inl) (hfirst b hb)
      fun hother => ?_⟩
    rw [hresult] at hother
    cases hother
    exact hsystem
  · rintro e a rest ⟨hholds, hnext, -⟩
    obtain ⟨names, ha⟩ := hnext a mem_cons_self
    exact hholds.guards hw ha

section Run

variable {previous : Option Manifest} {reports : List TargetReport} {managed : ManagedDirs}
  {report : TargetReport} {p : Progress} {plan : Plan}

section

variable (h : Setting w reports managed)
  (hplanned : w.Planned previous t₀ reports managed report p plan)
include h hplanned

theorem Holds.follows (htallies : p.Tallies p.completed) (hholds : w.Holds t₀ p.tree p.completed)
    (ha : a ∈ plan.actions) : ∃ names, w.Follows p.tree p.completed a names := by
  obtain ⟨result, -, -, -, -, -, -, hall⟩ := h.plan_inv hplanned hholds.wellFormed hholds.root
  obtain ⟨names, hout, hplans⟩ := hall a ha
  have hledger := hasPath_eq_false_iff htallies a.path
  refine ⟨names, hplans.leads, hout, hplans.kind_ne, ?_, ?_, ?_⟩
  · intro hkind
    cases hplans with
    | write _ _ hplan => exact (hplan.plain hkind).1
    | removal hplan => simp [hplan.kind_eq] at hkind
  · intro hpersists hnoop
    cases hplans with
    | write _ hleads hplan =>
      by_cases hwrote : Wrote p.completed a.path
      · obtain ⟨others, bytes, hothers, -, hbytes⟩ := hholds.present hwrote
        obtain rfl : others = names := by rw [← hothers.names_eq, hleads.names_eq]
        simp [hbytes]
      have hmatch := hplan.respects hholds.wellFormed h.proper.root hleads (hledger.mpr hwrote)
      obtain ⟨text, htext⟩ := hplan.payload
      cases hget : p.tree.get? (w.root ++ names) with
      | none => simp [Progress.context, hget, hnoop] at hmatch
      | some entry =>
        simp only [Progress.context, hget] at hmatch
        rcases hmatch with ⟨-, hsame⟩ | ⟨hstatus, -⟩
        · cases entry with
          | file bytes => simp [FileTree.bytesAt, hget]
          | dir =>
            rw [htext] at hsame
            cases hsame
        · contradiction
    | removal hplan => simp [hplan.kind_eq, ActionKind.persists] at hpersists
  · intro hremove
    rw [← hledger]
    cases hplans with
    | write _ _ hplan =>
      have hpersists := hplan.persists
      simp [hremove, ActionKind.persists] at hpersists
    | removal hplan => exact hplan.not_written

theorem Setting.writesFirst (htree : p.tree.WellFormed) (hroot : p.tree.bytesAt w.root = none) :
    WritesFirst plan.actions := by
  obtain ⟨result, writes, removals, -, hactions, hwrites, hremovals, -⟩ :=
    h.plan_inv hplanned htree hroot
  have hkind : ∀ b ∈ removals, b.kind = .removeFile := fun b hb =>
    ((hremovals b).mp hb).choose_spec.choose_spec.kind_eq
  have hpersists : ∀ a ∈ writes, a.kind.persists = true := fun a ha =>
    (exists_of_forall₂ hwrites ha).choose_spec.2.persists
  rw [WritesFirst, hactions, pairwise_append]
  refine ⟨pairwise_of_forall_mem_list ?_, pairwise_of_forall_mem_list ?_, ?_⟩
  · intro a ha b hb
    have hb := hpersists b hb
    rw [if_pos (hpersists a ha)]
    intro hremove
    simp [hremove, ActionKind.persists] at hb
  · intro a ha b hb
    simp [hkind a ha, hkind b hb, ActionKind.persists]
  · intro a ha b hb
    rw [if_pos (hpersists a ha)]
    intro _ heq
    obtain ⟨names, bytes, hremoval⟩ := (hremovals b).mp hb
    exact hremoval.not_desired (PlanContext.map_path_eq hwrites ▸ heq ▸ mem_map_of_mem ha)

end

theorem run_holds (previous : Option Manifest) (h : Setting w reports managed)
    (ht : t₀.WellFormed) (hroot : t₀.bytesAt w.root = none) :
    Yields (fun p => p.Tallies p.completed ∧ w.Holds t₀ p.tree p.completed)
      (fun halt => w.Guards t₀ halt.tree) (w.run previous t₀ reports managed) := by
  refine run_induct (w.Holds t₀) (w.Guards t₀) ?_ Holds.toGuards ?_
  · refine ⟨⟨ht, hroot, fun _ _ => rfl⟩, ?_, fun _ _ hbytes => ⟨hbytes, by simp [removedBy]⟩,
      by simp⟩
    rintro path ⟨a, ha, -⟩
    cases ha
  · intro report p plan hplanned htallies hholds
    exact hholds.execute h.proper (fun a ha => hholds.follows h hplanned htallies ha)
      (h.writesFirst hplanned hholds.wellFormed hholds.root)

theorem holds_of_run (h : Setting w reports managed) (ht : t₀.WellFormed)
    (hroot : t₀.bytesAt w.root = none) (hrun : w.run previous t₀ reports managed = .ok p) :
    p.Tallies p.completed ∧ w.Holds t₀ p.tree p.completed := by
  have hend := run_holds previous h ht hroot
  rwa [hrun] at hend

theorem run_completed (hrun : w.run previous t₀ reports managed = .ok p) :
    ∀ a ∈ p.completed, ∃ report q plan, w.Planned previous t₀ reports managed report q plan ∧
      a ∈ plan.actions := by
  refine (run_keeps (fun _ actions => ∀ a ∈ actions, ∃ report q plan,
    w.Planned previous t₀ reports managed report q plan ∧ a ∈ plan.actions) (by simp) ?_ hrun).2
  intro report p plan e hplanned _ hall he a ha
  rcases mem_append.mp ha with ha | ha
  · exact hall a ha
  · exact ⟨report, p, plan, hplanned, execute_completed he a ha⟩

theorem Planned.holds (h : Setting w reports managed) (ht : t₀.WellFormed)
    (hroot : t₀.bytesAt w.root = none)
    (hplanned : w.Planned previous t₀ reports managed report p plan) :
    w.Holds t₀ p.tree p.completed := by
  obtain ⟨before, after, rfl, hbefore⟩ := hplanned.reached
  have hsetting : Setting w before managed :=
    ⟨h.proper, fun r hr => h.outputs r (mem_append_left _ hr), h.managed⟩
  exact (holds_of_run hsetting ht hroot hbefore).2

end Run

end AgentConfig.Workplace
