import AgentConfig.Proofs.Json.KeyPaths
import AgentConfig.Proofs.Output.Reload

namespace AgentConfig

open List Outcome

/-- A plan of actions, each with what is said about it. -/
def Plan.ofSteps (steps : List (Action × List Text)) : Plan :=
  { actions := steps.map (·.1), warnings := steps.flatMap (·.2) }

/-- What is said when a target replaces what another one has written at a path. -/
def sharedWarning (path writer target : Text) : Text :=
  path ++ " is generated by both " ++ writer ++ " and " ++ target ++ "; " ++ target ++
    "'s content replaces " ++ writer ++ "'s"

namespace PlanContext

variable {c : PlanContext} {target : Text} {f : OutputFile} {files after before : List OutputFile}
  {dirs : List Text} {planned : List (Action × List Text)} {step : Action × List Text} {plan : Plan}
  {a : Action}

/-- The actions for a target, each with what is said about it. -/
def steps (c : PlanContext) (target : Text) (files : List OutputFile) (dirs : List Text) :
    Except Failure (List (Action × List Text)) := do
  let written ← files.mapM (c.planOutput target)
  let removed ← dirs.mapM (c.planStaleIn target (files.map (·.path)))
  return written ++ removed.flatten

theorem plan_eq_map_steps :
    c.plan target files dirs = (c.steps target files dirs).map Plan.ofSteps := by
  unfold plan steps
  cases files.mapM (c.planOutput target) with
  | error failure => rfl
  | ok written => cases dirs.mapM (c.planStaleIn target (files.map (·.path))) <;> rfl

theorem steps_inv (hsteps : c.steps target files dirs = .ok planned) :
    ∃ written removed, planned = written ++ removed ∧
      Forall₂ (fun f step => c.planOutput target f = .ok step) files written ∧
      ∀ step ∈ removed, ∃ path entry, c.isStale (files.map (·.path)) path entry = true ∧
        step = c.planRemoval target path entry := by
  obtain ⟨written, hwritten, hsteps⟩ := bind_eq_ok.mp hsteps
  obtain ⟨removed, hremoved, hsteps⟩ := bind_eq_ok.mp hsteps
  refine ⟨written, removed.flatten, (Except.ok.inj hsteps).symm, mapM_eq_ok.mp hwritten, ?_⟩
  intro step hstep
  obtain ⟨found, hfound, hmem⟩ := mem_flatten.mp hstep
  obtain ⟨directory, -, hstale⟩ := (mem_of_mapM_eq_ok hremoved).mp hfound
  exact exists_of_planStaleIn hstale hmem

theorem steps_alone (hsteps : c.steps target (before ++ f :: after) dirs = .ok planned)
    (halone : ∀ g ∈ before ++ after, g.path ≠ f.path) :
    ∃ first step rest, planned = first ++ step :: rest ∧ c.planOutput target f = .ok step ∧
      ∀ other ∈ first ++ rest, other.1.path ≠ f.path := by
  obtain ⟨written, removed, rfl, hwritten, hremoved⟩ := steps_inv hsteps
  obtain ⟨first, step, more, rfl, hfirst, hstep, hmore⟩ := forall₂_append_cons hwritten
  refine ⟨first, step, more ++ removed, by simp, hstep, ?_⟩
  have hpath {g : OutputFile} {other : Action × List Text}
      (hother : c.planOutput target g = .ok other) : other.1.path = g.path :=
    (planOutput_inv hother).path_eq
  intro other hother
  rcases mem_append.mp hother with hother | hother
  · obtain ⟨g, hg, hplan⟩ := exists_of_forall₂ hfirst hother
    exact hpath hplan ▸ halone g (mem_append_left _ hg)
  rcases mem_append.mp hother with hother | hother
  · obtain ⟨g, hg, hplan⟩ := exists_of_forall₂ hmore hother
    exact hpath hplan ▸ halone g (mem_append_right _ hg)
  · obtain ⟨path, entry, hstale, rfl⟩ := hremoved other hother
    rintro rfl
    simp [isStale] at hstale

/-- Over what an earlier target of the run has written nothing is copied away, and something is said
only if it is replaced. -/
theorem planOutput_of_get? {earlier : LedgerEntry} (hledger : c.ledger.get? f.path = some earlier)
    (hplain : f.ownership ≠ .sharedKeys) (hplan : c.planOutput target f = .ok step) :
    step.1.path = f.path ∧ step.1.payload = some f.desired ∧ step.1.backup = false ∧
      step.2 = if earlier.content = some f.desired then []
        else [sharedWarning f.path earlier.writer target] := by
  rw [planOutput_eq_planFile hplain] at hplan
  obtain ⟨-, found, -, hstep⟩ := planFile_ok hplan
  rw [hledger] at hstep
  rw [← hstep, planShared]
  split
  · exact ⟨rfl, rfl, rfl, rfl⟩
  · exact ⟨rfl, rfl, rfl, rfl⟩

theorem target_of_planOutput (hplan : c.planOutput target f = .ok step) :
    step.1.target = some target := by
  unfold planOutput at hplan
  split at hplan
  · obtain ⟨overlay, base, stored, owned, merged, found, -, hstep⟩ := planSettings_ok hplan
    rw [hstep, (c.settle_fields _ _ _ _).2.2.1]
    rfl
  obtain ⟨-, found, -, hstep⟩ := planFile_ok hplan
  split at hstep
  · rw [← hstep, planShared]
    split <;> rfl
  rw [← hstep]
  unfold planOver
  cases found with
  | none => rfl
  | some entry =>
    dsimp only
    split
    · rfl
    · split <;> rfl

section

variable (hplan : c.plan target files dirs = .ok plan)
include hplan

theorem plan_cases (ha : a ∈ plan.actions) :
    (∃ f ∈ files, ∃ warnings, c.planOutput target f = .ok (a, warnings)) ∨
      ∃ path entry, a = (c.planRemoval target path entry).1 := by
  rw [plan_eq_map_steps] at hplan
  obtain ⟨planned, hsteps, rfl⟩ := map_eq_ok.mp hplan
  obtain ⟨written, removed, rfl, hwritten, hremoved⟩ := steps_inv hsteps
  obtain ⟨step, hstep, rfl⟩ := mem_map.mp ha
  rcases mem_append.mp hstep with hstep | hstep
  · obtain ⟨f, hf, houtput⟩ := exists_of_forall₂ hwritten hstep
    exact .inl ⟨f, hf, step.2, houtput⟩
  · obtain ⟨path, entry, -, rfl⟩ := hremoved step hstep
    exact .inr ⟨path, entry, rfl⟩

theorem target_of_plan : ∀ a ∈ plan.actions, a.target = some target := by
  intro a ha
  rcases plan_cases hplan ha with ⟨f, -, warnings, houtput⟩ | ⟨path, entry, rfl⟩
  · exact target_of_planOutput houtput
  · rfl

theorem exists_planOutput (ha : a ∈ plan.actions) (hpersists : a.kind.persists = true) :
    ∃ f ∈ files, ∃ warnings, c.planOutput target f = .ok (a, warnings) := by
  refine (plan_cases hplan ha).resolve_right ?_
  rintro ⟨path, entry, rfl⟩
  cases hpersists

end

/-- A file is left as it is if the last target that wrote it meant the same text, or if it holds the
text. -/
theorem planOutput_noop (hplan : c.planOutput target f = .ok step) (hnoop : step.1.status = .noop) :
    (∃ earlier, c.ledger.get? f.path = some earlier ∧ earlier.content = step.1.payload) ∨
      ∃ entry, c.entry? f.path = .ok (some entry) ∧ entry.text? = step.1.payload := by
  unfold planOutput at hplan
  split at hplan
  · obtain ⟨overlay, base, stored, owned, merged, found, hsettles, hstep⟩ := planSettings_ok hplan
    have hpayload :=
      (c.settle_fields (settingsAction target f) (Json.write merged) owned found).2.2.2.1
    have hstatus := c.settle_status target f (Json.write merged) owned found
    rw [← hstep] at hpayload hstatus
    cases found with
    | none => cases hnoop.symm.trans hstatus.1
    | some entry =>
      rcases hstatus with ⟨htext, -, -⟩ | ⟨-, hupdate, -⟩
      · exact .inr ⟨entry, hsettles.found_eq, htext.trans hpayload.symm⟩
      · cases hnoop.symm.trans hupdate
  · obtain ⟨-, found, hfound, hstep⟩ := planFile_ok hplan
    split at hstep
    · rename_i earlier hledger
      subst hstep
      rw [planShared] at hnoop ⊢
      split at hnoop
      · rename_i hsame
        rw [if_pos hsame]
        exact .inl ⟨earlier, hledger, hsame⟩
      · cases hnoop
    · subst hstep
      unfold planOver at hnoop ⊢
      cases found with
      | none => cases hnoop
      | some entry =>
        dsimp only at hnoop ⊢
        split at hnoop
        · rename_i htext
          rw [if_pos htext]
          exact .inr ⟨entry, hfound, htext⟩
        · split at hnoop <;> cases hnoop

end PlanContext

open Json PlanContext

namespace PlanContext

variable {c : PlanContext} {target content path : Text} {f : OutputFile} {a : Action}
  {warnings owned : List Text} {overlay base : Json.Members} {stored : StoredJson} {merged : Json}
  {found : Option FileEntry}

/-- How an action for a settings document comes about, when no target of the run has written it. -/
structure PlansSettings (c : PlanContext) (f : OutputFile) (a : Action) (overlay base : Members)
    (stored : StoredJson) : Prop where
  overlay_eq : overlayOf f.content = .ok overlay
  stored_eq : c.tree.storedJson (c.location f.path) = .ok stored
  base_eq : c.withoutOwned f.path (baseOf stored).1 = .ok base
  merged : Json.overlay (.obj base) overlay = .ok (.obj (Json.merge base overlay))
  payload_eq : a.payload = some (Json.write (.obj (Json.merge base overlay)))
  owned_eq : a.ownedKeys = some (keyPaths keyDepth overlay)

theorem Settles.plansSettings (h : c.Settles f overlay base stored owned merged found)
    (hfresh : c.ledger.hasPath f.path = false) (hpayload : a.payload = some (Json.write merged))
    (howned : a.ownedKeys = some owned) : c.PlansSettings f a overlay base stored := by
  have hnone : c.ledger.get? f.path = none := by simpa [Ledger.hasPath] using hfresh
  have hbase := h.base_eq
  rw [hnone] at hbase
  obtain ⟨hbase, rfl⟩ := hbase
  obtain ⟨rfl, -⟩ := overlay_eq_ok h.merged_eq
  exact ⟨h.overlay_eq, h.stored_eq, hbase, h.merged_eq, hpayload, howned⟩

theorem withoutOwned_inv {members : Members} (h : c.withoutOwned path members = .ok base) :
    ((c.manifest.get? path).bind (·.ownedKeys) = none ∧ base = members) ∨
      ∃ keys texts, (c.manifest.get? path).bind (·.ownedKeys) = some keys ∧
        keyTexts keys = some texts ∧ base = (removePaths texts members).1 := by
  unfold withoutOwned at h
  split at h
  · rename_i hnone
    exact .inl ⟨hnone, (Except.ok.inj h).symm⟩
  rename_i keys hkeys
  split at h
  · rename_i texts htexts
    exact .inr ⟨keys, texts, hkeys, htexts, (Except.ok.inj h).symm⟩
  · cases h

theorem areReadable_baseOf {t : FileTree} (ht : t.WellFormed) {path : List Text}
    (hpath : Path.AreProper path) (h : t.storedJson path = .ok stored) :
    AreReadable (maxLevels - 1) (baseOf stored).1 := by
  have hnil : AreReadable (maxLevels - 1) [] :=
    ⟨nodup_nil, (fun _ hm => nomatch hm), (fun _ hm => nomatch hm)⟩
  unfold baseOf
  split
  · obtain ⟨-, bytes, -, hstored⟩ := (ht.storedJson_eq_value_iff hpath).mp h
    exact areReadable_iff.mpr hstored.isReadable
  · exact hnil
  · exact hnil
  · exact hnil

theorem areReadable_overlayOf (hcontent : content.IsChars)
    (h : overlayOf content = .ok overlay) : AreReadable (maxLevels - 1) overlay := by
  unfold overlayOf at h
  split at h
  · rename_i members hmembers
    obtain rfl := Except.ok.inj h
    exact areReadable_iff.mpr (isReadable_of_read hcontent hmembers)
  · cases h
  · cases h

theorem Settles.isReadable
    (h : c.Settles f overlay base stored owned merged found) (ht : c.tree.WellFormed)
    (hpath : Path.AreProper (c.location f.path))
    (hoverlay : AreReadable (maxLevels - 1) overlay) :
    IsReadableIn maxLevels merged := by
  have hstored := areReadable_baseOf ht hpath h.stored_eq
  have hbase : AreReadable (maxLevels - 1) base := by
    have hcase := h.base_eq
    split at hcase
    · exact hcase.1 ▸ hstored
    · rcases withoutOwned_inv hcase.1 with ⟨-, rfl⟩ | ⟨keys, texts, -, -, rfl⟩
      · exact hstored
      · exact hstored.removePaths texts
  exact isReadable_overlay hbase hoverlay h.merged_eq

end PlanContext

namespace Workplace

variable {w : Workplace} {t : FileTree} {previous : Option Manifest} {managed : ManagedDirs}
  {report : TargetReport} {p : Progress}

theorem run_singleton (hrun : w.run previous t [report] managed = .ok p)
    (hok : ∀ r ∈ p.done, r.ok = true) {result : Generated} (hresult : report.result = some result) :
    ∃ plan e, w.Planned previous t [report] managed report { tree := t } plan ∧
      w.execute t plan.actions = .ok e ∧ e.failures = [] ∧ p.tree = e.tree ∧
      p.completed = plan.actions := by
  have hnext : Progress.writeTarget w (previous.getD {}) managed { tree := t } report = .ok p := by
    obtain ⟨q, hq, hrest⟩ := bind_eq_ok.mp hrun
    cases hrest
    exact hq
  obtain ⟨-, ⟨hnone, -⟩ | ⟨other, plan, e, hsucceeds, rfl⟩⟩ := Progress.writeTarget_of_ok hnext hok
  · cases hresult.symm.trans hnone
  cases hresult.symm.trans hsucceeds.result_eq
  obtain ⟨htree, hcompleted, -⟩ := Progress.after_unchanged { tree := t } report plan e
  exact ⟨plan, e, ⟨⟨[], [], rfl, rfl⟩, result, hresult, hsucceeds.plan_eq⟩, hsucceeds.execute_eq,
    hsucceeds.failures_eq, htree, hcompleted.trans hsucceeds.completed_eq⟩

section Alone

variable {reports : List TargetReport} {plan : Plan} {result : Generated}
  {before after : List OutputFile} {f : OutputFile} {names : List Text}

theorem Planned.plan_alone (hplanned : w.Planned previous t reports managed report p plan)
    (hresult : report.result = some result) (hfiles : result.files = before ++ f :: after)
    (halone : ∀ g ∈ before ++ after, g.path ≠ f.path) :
    ∃ a warnings first last,
      (p.context w (previous.getD {})).planOutput report.target f = .ok (a, warnings) ∧
      plan.actions = first ++ a :: last ∧ ∀ b ∈ first ++ last, b.path ≠ a.path := by
  obtain ⟨_, hresult', hplan⟩ := hplanned.plans
  cases hresult.symm.trans hresult'
  rw [plan_eq_map_steps, hfiles] at hplan
  obtain ⟨planned, hsteps, rfl⟩ := map_eq_ok.mp hplan
  obtain ⟨first, ⟨a, warnings⟩, rest, rfl, ha, hother⟩ := steps_alone hsteps halone
  refine ⟨a, warnings, first.map (·.1), rest.map (·.1), ha, by simp [Plan.ofSteps], ?_⟩
  rw [(planOutput_inv ha).path_eq, ← map_append]
  exact forall_mem_map.mpr hother

/-- The settings document that a target leaves when all its actions are completed: its own settings,
laid over what was found. -/
theorem Planned.merges (hplanned : w.Planned previous t reports managed report p plan)
    (hw : w.IsProper) (htree : p.tree.WellFormed) (hnamed : ∀ a ∈ plan.actions, IsNamed a)
    {e : Execution} (he : w.execute p.tree plan.actions = .ok e) (hfailures : e.failures = [])
    (hresult : report.result = some result) (hfiles : result.files = before ++ f :: after)
    (halone : ∀ g ∈ before ++ after, g.path ≠ f.path) (hshared : f.ownership = .sharedKeys)
    (hcontent : ∀ overlay, overlayOf f.content = .ok overlay → AreReadable (maxLevels - 1) overlay)
    (hplace : Path.Leads f.path names) (hout : IsOutside names) :
    ∃ first a last overlay base stored owned found bytes,
      plan.actions = first ++ a :: last ∧ (∀ b ∈ first ++ last, b.path ≠ f.path) ∧
      (p.context w (previous.getD {})).PlansWrite f a ∧
      (p.context w (previous.getD {})).Settles f overlay base stored owned
        (.obj (Json.merge base overlay)) found ∧
      a.payload = some (Json.write (.obj (Json.merge base overlay))) ∧ a.ownedKeys = some owned ∧
      e.tree.bytesAt (w.root ++ names) = some bytes ∧
      IsWritten bytes (.obj (Json.merge base overlay)) := by
  obtain ⟨a, warnings, first, last, ha, hactions, hother⟩ :=
    hplanned.plan_alone hresult hfiles halone
  have hwrite := planOutput_inv ha
  rw [planOutput, hshared] at ha
  obtain ⟨overlay, base, stored, owned, merged, found, hsettles, haction⟩ :=
    planSettings_ok ha
  obtain ⟨rfl, -⟩ := overlay_eq_ok hsettles.merged_eq
  obtain ⟨-, -, -, hpayload, howned⟩ :=
    (p.context w (previous.getD {})).settle_fields (settingsAction report.target f)
      (Json.write (.obj (Json.merge base overlay))) owned found
  have hstatus := (p.context w (previous.getD {})).settle_status report.target f
    (Json.write (.obj (Json.merge base overlay))) owned found
  rw [← haction] at hpayload howned hstatus
  have hlocation : (p.context w (previous.getD {})).location f.path = w.root ++ names :=
    hplace.join_eq _
  have hreadable := hsettles.isReadable htree (hlocation ▸ hw.areProper hplace)
    (hcontent overlay hsettles.overlay_eq)
  have hleft := (execute_content hw hplace hout htree hnamed he).2
  rw [completed_eq_of_failures_eq_nil he hfailures, hactions, ← hwrite.path_eq,
    Action.content_append_cons (fun b hb => hother b (mem_append_left _ hb))
      fun b hb => hother b (mem_append_right _ hb),
    Action.leaves, if_pos rfl, if_pos hwrite.persists] at hleft
  have hstored : ∃ bytes, e.tree.bytesAt (w.root ++ names) = some bytes ∧
      IsWritten bytes (.obj (Json.merge base overlay)) := by
    by_cases hnoop : a.status = .noop
    · -- What the file holds is what would have been written.
      rw [if_pos hnoop] at hleft
      cases found with
      | none => cases hnoop.symm.trans hstatus.1
      | some entry =>
        rcases hstatus with ⟨htext, -⟩ | ⟨-, hupdate, -⟩
        · have hfound := mapError_eq_ok.mp hsettles.found_eq
          rw [hlocation] at hfound
          have hget := htree.entry?_eq (hw.areProper hplace) hfound
          cases entry with
          | dir => cases htext
          | file bytes =>
            exact ⟨bytes, hleft.trans (FileTree.bytesAt_eq_some_iff.mpr hget.symm),
              hreadable, FileEntry.text?_eq_some_iff.mp htext⟩
        · cases hnoop.symm.trans hupdate
    · obtain ⟨bytes, hbytes, -⟩ := hreadable.1.exists_bytes
      rw [if_neg hnoop, hpayload, Option.bind_some, hbytes] at hleft
      exact ⟨bytes, hleft, hreadable.isWritten hbytes⟩
  obtain ⟨bytes, hbytes, hstored⟩ := hstored
  exact ⟨first, a, last, overlay, base, stored, owned, found, bytes, hactions,
    hwrite.path_eq ▸ hother, hwrite, hsettles, hpayload, howned, hbytes, hstored⟩

theorem run_settings (h : Setting w [report] managed) (ht : t.WellFormed)
    (hroot : t.bytesAt w.root = none) (hrun : w.run previous t [report] managed = .ok p)
    (hok : ∀ r ∈ p.done, r.ok = true) (hresult : report.result = some result)
    (hfiles : result.files = before ++ f :: after)
    (halone : ∀ g ∈ before ++ after, g.path ≠ f.path) (hshared : f.ownership = .sharedKeys)
    (hcontent : f.content.IsChars) (hplace : Path.Leads f.path names) (hout : IsOutside names) :
    ∃ a overlay base stored bytes,
      (PlanContext.mk w.root t (previous.getD {}) []).PlansSettings f a overlay base stored ∧
      Action.lastWrite? p.completed f.path = some a ∧
      p.tree.bytesAt (w.root ++ names) = some bytes ∧
      IsWritten bytes (.obj (Json.merge base overlay)) := by
  obtain ⟨plan, e, hplanned, he, hfailures, htree, hcompleted⟩ := run_singleton hrun hok hresult
  obtain ⟨first, a, last, overlay, base, stored, owned, found, bytes, hactions, hother, hwrite,
      hsettles, hpayload, howned, hbytes, hstored⟩ :=
    hplanned.merges h.proper ht (fun a ha => (h.isOrdinary ht hroot hplanned a ha).isNamed) he
      hfailures hresult hfiles halone hshared
      (fun _ => areReadable_overlayOf hcontent) hplace hout
  refine ⟨a, overlay, base, stored, bytes, hsettles.plansSettings rfl hpayload howned, ?_,
    htree ▸ hbytes, hstored⟩
  rw [hcompleted, hactions, ← hwrite.path_eq]
  exact Action.lastWrite?_append_cons hwrite.persists fun b hb =>
    hwrite.path_eq ▸ hother b (mem_append_right _ hb)

end Alone

end Workplace

end AgentConfig
