import AgentConfig.Proofs.Output.Agreement
import AgentConfig.Proofs.Output.Settings
import AgentConfig.Proofs.Output.Spared

namespace AgentConfig

open List Outcome Failure FileTree AgentConfig.Path PlanContext

variable {actions : List Action} {path target : Text}

namespace Failure

def isOfPlanning : Failure → Bool
  | .file _ _ => true
  | .outside _ _ => true
  | .json _ _ => true
  | .tooDeep => true
  | _ => false

def isTooDeep : Failure → Bool
  | .json _ e => !e.isMalformed
  | .tooDeep => true
  | _ => false

theorem isTooDeep_of_planning {root : List Text} {failure : Failure}
    (h : failure.isOfPlanning = true) (hnone : planningError? root failure = none) :
    failure.isTooDeep = true := by
  cases failure with
  | file fault path =>
    unfold planningError? at hnone
    dsimp only at hnone
    split at hnone <;> cases hnone
  | json text e =>
    unfold planningError? at hnone
    dsimp only at hnone
    split at hnone
    · cases hnone
    · rename_i hmalformed
      simpa [isTooDeep] using hmalformed
  | tooDeep => rfl
  | outside path base => cases hnone
  | _ => cases h

end Failure

namespace PlanContext

variable {c : PlanContext} {target content : Text} {f : OutputFile}

abbrev OfPlanning (failure : Failure) : Prop := failure.isOfPlanning = true

theorem atPath_failsOnly {α : Type} (path : List Text) (r : Except FileFault α) :
    FailsOnly OfPlanning (atPath path r) :=
  FailsOnly.mapError fun _ _ => rfl

theorem checkMarkable_failsOnly (path content : Text) :
    FailsOnly OfPlanning (checkMarkable path content) := by
  unfold checkMarkable
  split
  · exact .error rfl
  · exact .ok _

theorem checkEntry_failsOnly (path : Text) (entry : FileEntry) :
    FailsOnly OfPlanning (checkEntry path entry) := by
  unfold checkEntry
  split
  · exact checkMarkable_failsOnly _ _
  · exact .ok _

theorem planFile_failsOnly : FailsOnly OfPlanning (c.planFile target f) := by
  refine FailsOnly.bind ?_ fun _ _ => ?_
  · unfold OutputFile.check
    split
    · exact checkMarkable_failsOnly _ _
    · exact .ok _
  refine (atPath_failsOnly _ _).bind fun entry _ => ?_
  split
  · exact .ok _
  refine FailsOnly.bind ?_ fun _ _ => .ok _
  cases entry with
  | none => exact .ok _
  | some entry =>
    show FailsOnly OfPlanning (c.checkOver f entry)
    unfold checkOver
    split
    · exact .ok _
    · exact checkEntry_failsOnly _ _

theorem storedJson_failsOnly (t : FileTree) (path : List Text) :
    FailsOnly OfPlanning (t.storedJson path) := by
  refine (atPath_failsOnly _ _).bind fun found _ => ?_
  split
  · exact .ok _
  · exact .ok _
  split
  · exact .ok _
  split
  · exact .ok _
  split
  · exact .ok _
  · split
    · exact .ok _
    · exact .error rfl

/-- A settings document that is an object, if it is JSON at all. -/
def IsObjectIfJson (content : Text) : Prop :=
  ∀ v, Json.read content = .ok v → ∃ members, v = .obj members

theorem overlayOf_failsOnly (h : IsObjectIfJson content) :
    FailsOnly OfPlanning (overlayOf content) := by
  unfold overlayOf
  split
  · exact .ok _
  · rename_i v hno hread
    obtain ⟨members, rfl⟩ := h v hread
    exact absurd rfl (hno members)
  · exact .error rfl

theorem exists_keyTexts {e : ManifestEntry} (h : e.HasTextKeys) {keys : List Json}
    (hkeys : e.ownedKeys = some keys) : ∃ texts, keyTexts keys = some texts := by
  have hall := h keys hkeys
  clear hkeys
  unfold keyTexts
  induction keys with
  | nil => exact ⟨[], rfl⟩
  | cons v rest ih =>
    obtain ⟨text, rfl⟩ := hall v mem_cons_self
    obtain ⟨texts, htexts⟩ := ih fun u hu => hall u (mem_cons_of_mem _ hu)
    exact ⟨text :: texts, by simp [Json.text?, htexts]⟩

theorem withoutOwned_failsOnly (hkeys : ∀ e ∈ c.manifest.files, e.HasTextKeys) (path : Text)
    (base : Json.Members) : FailsOnly OfPlanning (c.withoutOwned path base) := by
  unfold withoutOwned
  split
  · exact .ok _
  rename_i keys howned
  obtain ⟨e, he, hsome⟩ := Option.bind_eq_some_iff.mp howned
  obtain ⟨texts, htexts⟩ := exists_keyTexts (hkeys e (mem_of_find?_eq_some he)) hsome
  rw [htexts]
  exact .ok _

theorem overlay_failsOnly (base overlay : Json.Members) :
    FailsOnly OfPlanning (ofOverlay (Json.overlay (.obj base) overlay)) := by
  unfold Json.overlay
  split
  · exact .error rfl
  dsimp only
  split
  · exact .error rfl
  · exact .ok _

theorem planSettings_failsOnly (hkeys : ∀ e ∈ c.manifest.files, e.HasTextKeys)
    (hcontent : IsObjectIfJson f.content) :
    FailsOnly OfPlanning (c.planSettings target f) := by
  refine (overlayOf_failsOnly hcontent).bind fun overlay _ => ?_
  refine (storedJson_failsOnly _ _).bind fun stored _ => ?_
  dsimp only
  have hrest (base : Json.Members) (owned : List Text) (action : Action) (warnings : List Text) :
      FailsOnly OfPlanning (do
        let merged ← ofOverlay (Json.overlay (.obj base) overlay)
        let found ← c.entry? f.path
        pure ((c.settle action (Json.write merged) owned found).1,
          warnings ++ (c.settle action (Json.write merged) owned found).2)) :=
    (overlay_failsOnly base overlay).bind fun _ _ => (atPath_failsOnly _ _).bind fun _ _ => .ok _
  split
  · exact hrest _ _ _ _
  · exact (withoutOwned_failsOnly hkeys _ _).bind fun base _ => hrest base _ _ _

theorem planStaleIn_failsOnly (desired : List Text) (directory : Text) :
    FailsOnly OfPlanning (c.planStaleIn target desired directory) := by
  refine (atPath_failsOnly _ _).bind fun isDir _ => ?_
  split
  · exact .ok _
  refine (atPath_failsOnly _ _).bind fun location _ => ?_
  refine (FailsOnly.mapM fun below _ => ?_).bind fun _ _ => .ok _
  refine FailsOnly.bind ?_ fun path _ => ?_
  · unfold pathOf
    split
    · exact .ok _
    · exact .error rfl
  · split
    · exact .ok _
    · split
      · exact .ok _
      · exact (checkEntry_failsOnly _ _).bind fun _ _ => .ok _

/-- Planning fails only in its own ways, if the keys in the manifest are texts and the settings
documents are objects or not JSON. -/
theorem plan_failsOnly (hkeys : ∀ e ∈ c.manifest.files, e.HasTextKeys) {files : List OutputFile}
    (hcontents : ∀ f ∈ files, f.ownership = .sharedKeys → IsObjectIfJson f.content)
    (dirs : List Text) : FailsOnly OfPlanning (c.plan target files dirs) := by
  refine (FailsOnly.mapM fun f hf => ?_).bind fun written _ => ?_
  · unfold planOutput
    split
    · rename_i hshared
      exact planSettings_failsOnly hkeys (hcontents f hf hshared)
    · exact planFile_failsOnly
  · exact (FailsOnly.mapM fun directory _ => planStaleIn_failsOnly _ _).bind fun _ _ => .ok _

end PlanContext

namespace Workplace

variable {w : Workplace} {t : FileTree} {a : Action}

/-- A workplace with names that files can have. -/
structure IsNameable (w : Workplace) : Prop where
  root : ∀ name ∈ w.root, IsFileName name
  stamp : IsFileName w.stamp

theorem IsNameable.isProper (h : w.IsNameable) : w.IsProper :=
  ⟨fun name hname => (h.root name hname).toIsProper, h.stamp.toIsProper⟩

/-- An action on a path that a file can have, with a text that a file can hold. -/
structure IsFeasible (a : Action) : Prop where
  leads : ∃ names, Leads a.path names ∧ ∀ name ∈ names, IsFileName name
  kind : a.kind ≠ .removeKeys
  encodes : ∀ text, a.payload = some text → ∃ bytes, Text.bytes? text = some bytes

section Feasible

variable (hw : w.IsNameable) (ha : IsFeasible a)
include hw ha

theorem IsFeasible.location :
    w.location a.path ≠ [] ∧ ∀ name ∈ w.location a.path, IsFileName name := by
  obtain ⟨names, hleads, hnames⟩ := ha.leads
  rw [w.location_eq hleads]
  exact ⟨by simp [hleads.ne_nil], forall_mem_append.mpr ⟨hw.root, hnames⟩⟩

theorem IsFeasible.backupLocation : ∀ name ∈ w.backupLocation a.path, IsFileName name := by
  obtain ⟨names, hleads, hnames⟩ := ha.leads
  have hbackup : ∀ name ∈ backupNames, IsFileName name := by
    intro name hname
    refine isFileName_of_isPlain ?_
    revert name
    decide +kernel
  rw [hw.isProper.backupLocation_eq hleads]
  simp only [copyRoot, forall_mem_append, forall_mem_singleton]
  exact ⟨⟨⟨hw.root, hbackup⟩, hw.stamp⟩, hnames⟩

theorem backUp_failsOnly : FailsOnly (fun e => OfSystem e.1) (w.backUp t a.path) := by
  obtain ⟨hne, hsource⟩ := ha.location hw
  have htarget := ha.backupLocation hw
  refine FailsOnly.bind ?_ fun found _ => ?_
  · exact FailsOnly.mapError (f := (·, t)) ((entry?_failsOnly t _).map _)
  split
  · refine (makeDirs_failsOnly fun name hname =>
      htarget name (dropLast_subset _ hname)).bind fun u _ => ?_
    refine FailsOnly.bind ?_ fun _ _ => .ok _
    exact FailsOnly.mapError (f := (·, u)) (copy_failsOnly hsource htarget hne)
  · exact .ok _

/-- What stands in the way of a feasible action is the file system, or that it has no text. -/
def IsSpared (fault : ActionFault) : Prop :=
  (∃ f, fault = .file f ∧ f.isSystem = true) ∨ ∃ message, fault = .refused message

theorem changing_failsOnly {change : FileTree → TreeChange}
    (hchange : ∀ u, FailsOnly (fun e => OfSystem e.1) (change u)) :
    FailsOnly IsSpared (w.changing t a change).result := by
  have hof (made : Bool) (u : FileTree) :
      FailsOnly IsSpared (Performed.ofChange made (change u)).result := by
    cases h : change u with
    | ok u' => exact .ok _
    | error e => exact .error (.inl ⟨e.1, rfl, hchange u e h⟩)
  unfold changing
  split
  · split
    · exact hof _ _
    · rename_i fault u hcopy
      exact .error (.inl ⟨fault, rfl, backUp_failsOnly hw ha _ hcopy⟩)
  · exact hof _ _

theorem perform_failsOnly : FailsOnly IsSpared (w.perform t a).result := by
  obtain ⟨-, hnames⟩ := ha.location hw
  rcases Action.persists_or_removeFile ha.kind with hpersists | hremove
  · rw [perform_of_persists hpersists]
    unfold performWrite
    split
    · exact .ok _
    split
    · exact .error (.inr ⟨_, rfl⟩)
    · rename_i text htext
      obtain ⟨bytes, hbytes⟩ := ha.encodes text htext
      exact changing_failsOnly hw ha fun u => write_failsOnly hnames hbytes
  · rw [perform_of_removeFile hremove]
    unfold performRemoval
    split
    · rename_i fault hexists
      have hsystem := ((entry?_failsOnly t (w.location a.path)).map _) fault hexists
      exact .error (.inl ⟨fault, rfl, hsystem⟩)
    · exact .ok _
    · refine changing_failsOnly hw ha fun u => ?_
      exact (FailsOnly.mapError (f := (·, u)) (unlink_failsOnly hnames)).map _

end Feasible

theorem exists_execute (hw : w.IsNameable)
    (hactions : ∀ a ∈ actions, IsFeasible a) : ∃ e, w.execute t actions = .ok e := by
  have hrun := foldlM_induct (Execution.step w)
    (fun _ pending => ∀ a ∈ pending, IsFeasible a) (fun _ : Halt => False) ?_
    (b := { tree := t }) hactions
  · cases he : w.execute t actions with
    | ok e => exact ⟨e, rfl⟩
    | error halt =>
      unfold execute at he
      rw [he] at hrun
      exact hrun.elim
  · intro e a rest hpending
    have hfails := perform_failsOnly (t := e.tree) hw (hpending a mem_cons_self)
    have hrest : ∀ b ∈ rest, IsFeasible b := fun b hb => hpending b (mem_cons_of_mem _ hb)
    unfold Execution.step
    dsimp only
    split
    · exact hrest
    · rename_i fault hresult
      rcases hfails _ hresult with ⟨f, heq, hsystem⟩ | ⟨message, heq⟩
      · cases heq
        rw [if_pos hsystem]
        exact hrest
      · cases heq
    · exact hrest
    · rename_i hresult
      rcases hfails _ hresult with ⟨f, heq, -⟩ | ⟨message, heq⟩ <;> cases heq

end Workplace

/-- A target whose files have names that files can have and texts that files can hold; its settings
documents are objects or not JSON. -/
def TargetReport.IsFeasible (report : TargetReport) : Prop :=
  ∀ result, report.result = some result → ∀ f ∈ result.files,
    (∃ names, Leads f.path names ∧ ∀ name ∈ names, IsFileName name) ∧ f.desired.IsChars ∧
      (f.ownership = .sharedKeys → IsObjectIfJson f.content)

theorem PlanContext.encodes_of_planOutput {c : PlanContext} {f : OutputFile}
    {step : Action × List Text} (ht : c.tree.WellFormed) (hpath : AreProper (c.location f.path))
    (hchars : f.desired.IsChars) (hplan : c.planOutput target f = .ok step) :
    ∀ text, step.1.payload = some text → ∃ bytes, Text.bytes? text = some bytes := by
  intro text htext
  by_cases hshared : f.ownership = .sharedKeys
  · rw [planOutput, hshared] at hplan
    obtain ⟨overlay, base, stored, owned, merged, found, hsettles, hstep⟩ := planSettings_ok hplan
    have hcontent : f.content.IsChars := by simpa [OutputFile.desired, hshared] using hchars
    have hreadable :=
      hsettles.isReadable ht hpath (areReadable_overlayOf hcontent hsettles.overlay_eq)
    rw [hstep, (c.settle_fields _ _ _ _).2.2.2.1, Option.some.injEq] at htext
    obtain ⟨bytes, hbytes, -⟩ := hreadable.1.exists_bytes
    exact ⟨bytes, htext ▸ hbytes⟩
  · have hwrite := planOutput_inv hplan
    have hkind : step.1.kind = .writeText := by rw [hwrite.kind_eq, if_neg hshared]
    obtain rfl := Option.some.inj ((hwrite.plain hkind).2.symm.trans htext)
    exact hchars.exists_bytes

namespace Workplace

variable {w : Workplace} {t : FileTree} {previous : Option Manifest} {reports : List TargetReport}
  {managed : ManagedDirs} {report : TargetReport} {p : Progress} {plan : Plan} {m : Manifest}

theorem Setting.isFeasible_of_planned (h : Setting w reports managed)
    (hreport : report.IsFeasible) (htree : p.tree.WellFormed) (hroot : p.tree.bytesAt w.root = none)
    (hplanned : w.Planned previous t reports managed report p plan) :
    ∀ a ∈ plan.actions, IsFeasible a := by
  obtain ⟨result, writes, removals, hresult, -, -, -, hplans⟩ := h.plan_inv hplanned htree hroot
  obtain ⟨_, hresult', hplan⟩ := hplanned.plans
  cases hresult.symm.trans hresult'
  intro a ha
  obtain ⟨names, -, hcase⟩ := hplans a ha
  rcases plan_cases hplan ha with ⟨f, hf, warnings, houtput⟩ | ⟨path, entry, rfl⟩
  · obtain ⟨⟨others, hleads, hnames⟩, hchars, -⟩ := hreport result hresult f hf
    have hwrite := planOutput_inv houtput
    have hlocation : (p.context w (previous.getD {})).location f.path = w.root ++ others :=
      hleads.join_eq _
    refine ⟨⟨others, hwrite.path_eq ▸ hleads, hnames⟩, ?_, ?_⟩
    · rw [hwrite.kind_eq]
      split <;> simp
    · exact encodes_of_planOutput htree (hlocation ▸ h.proper.areProper hleads) hchars houtput
  · cases hcase with
    | write _ _ hwrite =>
      have hpersists := hwrite.persists
      cases hpersists
    | removal hremoval =>
      have hnames := htree.isFileName hremoval.get?_eq
      exact ⟨⟨names, hremoval.leads, fun name hname => hnames name (mem_append_right _ hname)⟩,
        nofun, nofun⟩

/-- A tree in which the manifest can be saved: the source directory is there or can be made, and
nothing but a file is in the way. -/
structure CanSave (w : Workplace) (t : FileTree) : Prop where
  wellFormed : t.WellFormed
  root : t.get? w.root = some .dir
  source : t.bytesAt (w.root ++ [Source.directory]) = none
  free : t.get? (w.root ++ Manifest.names) ≠ some .dir

theorem CanSave.of_load (hroot : AreProper w.root) (ht : t.WellFormed)
    (hload : Manifest.load t w.root = .ok (some m)) :
    w.CanSave t ∧ ¬ IsTooLong (w.root ++ Manifest.names) := by
  obtain ⟨bytes, hentry⟩ := Manifest.entry?_of_load hload
  obtain ⟨hget, hshort⟩ :=
    (ht.entry?_eq_some_iff (hroot.append Manifest.areProper_names)).mp hentry
  have hdir : t.get? (w.root ++ [Source.directory]) = some .dir := by
    simpa [Manifest.names] using ht.get?_dropLast hget
  exact ⟨⟨ht, ht.get?_above (by decide) hget, bytesAt_of_dir hdir, by simp [hget]⟩, hshort⟩

theorem CanSave.perform (h : w.CanSave t) (hw : w.IsProper) {a : Action} (ha : IsOrdinary a) :
    w.CanSave (w.perform t a).tree := by
  obtain ⟨names, hleads, -⟩ := ha.outside
  have hagrees : w.Agrees (top a.path = ·) t (w.perform t a).tree (w.perform t a).tree :=
    (Agrees.perform hw ha.top_ne hleads rfl (.refl h.wellFormed) ha.kind).tree
  have hcopies (rest : List Text) : ¬ w.root ++ Manifest.names <+: w.copyRoot ++ rest := by
    rw [copyRoot, append_assoc, append_assoc, prefix_append_right_inj]
    rintro ⟨more, hmore⟩
    simp [Manifest.names, backupNames] at hmore
    exact absurd hmore.1 (by decide +kernel)
  have hway := append_nil w.copyRoot ▸ hcopies []
  refine ⟨hagrees.left, ?_, ?_, ?_⟩
  · rw [hagrees.way_eq (root_prefix_copyRoot w), h.root, Option.some_or]
  · have hsource : w.root ++ [Source.directory] <+: w.copyRoot := by
      simp [copyRoot, backupNames, prefix_append_right_inj]
    rw [← hagrees.bytes_eq hsource, h.source]
  · rw [hagrees.other_eq ?_ hway]
    · exact h.free
    rintro (habove | ⟨_, rest, rfl, heq | heq⟩)
    · exact hway (habove.trans (root_prefix_copyRoot w))
    · rw [append_cancel_left_eq, Manifest.names, cons_eq_cons] at heq
      exact ha.top_ne heq.1.symm
    · exact hcopies (top a.path :: rest) (heq ▸ prefix_rfl)

theorem CanSave.execute (h : w.CanSave t) (hw : w.IsProper) (hactions : ∀ a ∈ actions, IsOrdinary a)
    {e : Execution} (he : w.execute t actions = .ok e) : w.CanSave e.tree :=
  execute_keeps_tree w.CanSave h (fun ha hkept => hkept.perform hw (hactions _ ha)) he

/-- What is written or found to be up to date has a path that is short enough. -/
def IsShort (w : Workplace) (path : Text) : Prop := ¬ IsTooLong (w.location path)

/-- Throughout a run the manifest can be saved, and the paths it is to list are short enough. -/
theorem Setting.run_canSave (h : Setting w reports managed) (hsave : w.CanSave t)
    (hrun : w.run previous t reports managed = .ok p) :
    p.Tallies p.completed ∧ w.CanSave p.tree ∧
      ∀ path, Action.Wrote p.completed path → w.IsShort path := by
  have hroot := bytesAt_of_dir hsave.root
  refine run_keeps
    (fun u actions => w.CanSave u ∧ ∀ path, Action.Wrote actions path → w.IsShort path)
    ⟨hsave, nofun⟩ ?_ hrun
  intro report q plan e hplanned htallies ⟨hcan, hshort⟩ he
  have hordinary := h.isOrdinary hsave.wellFormed hroot hplanned
  have htries := tries_of_execute h.proper hcan.wellFormed (bytesAt_of_dir hcan.root)
    (fun a ha => (hordinary a ha).isNamed) he
  refine ⟨hcan.execute h.proper hordinary he, ?_⟩
  rintro path ⟨a, ha, hpersists, rfl⟩
  rcases mem_append.mp ha with ha | ha
  · exact hshort a.path ⟨a, ha, hpersists, rfl⟩
  by_cases hnoop : a.status = .noop
  · obtain ⟨result, -, hplan⟩ := hplanned.plans
    obtain ⟨f, -, warnings, houtput⟩ :=
      exists_planOutput hplan (htries.sublist.mem ha) hpersists
    have hpath : f.path = a.path := (planOutput_inv houtput).path_eq.symm
    rcases planOutput_noop houtput hnoop with
      ⟨earlier, hledger, -⟩ | ⟨entry, hentry, -⟩
    · exact hshort a.path (wrote_of_get? htallies (hpath ▸ hledger))
    obtain ⟨names, hleads⟩ := (hordinary a (htries.sublist.mem ha)).isNamed.leads
    have hfound := mapError_eq_ok.mp hentry
    rw [hpath, PlanContext.location, hleads.join_eq] at hfound
    rw [IsShort, w.location_eq hleads]
    exact ((hcan.wellFormed.entry?_eq_some_iff (h.proper.areProper hleads)).mp hfound).2
  · exact (htries.encodes a ha hpersists hnoop).2

theorem run_failsOnly_of_targets {bad : Halt → Prop}
    (hstep : ∀ {before report after p}, reports = before ++ report :: after →
      w.run previous t before managed = .ok p →
      FailsOnly bad (p.writeTarget w (previous.getD {}) managed report)) :
    FailsOnly bad (w.run previous t reports managed) := by
  induction reports using reverseRecOn with
  | nil => exact .ok _
  | append_singleton before report ih =>
    have hbefore := ih fun hsplit hrun => hstep (by rw [hsplit, append_assoc]; rfl) hrun
    unfold run at hbefore ⊢
    rw [foldlM_append]
    refine hbefore.bind fun p hp => ?_
    exact (hstep rfl hp).bind fun _ _ => .ok _

/-- A run comes to a target that cannot be planned because a document has too many levels. -/
def MeetsTooDeep (w : Workplace) (previous : Option Manifest) (t : FileTree)
    (reports : List TargetReport) (managed : ManagedDirs) : Prop :=
  ∃ before report after p result failure, reports = before ++ report :: after ∧
    w.run previous t before managed = .ok p ∧ report.result = some result ∧
    (p.context w (previous.getD {})).plan report.target result.files (managed.of report.target) =
      .error failure ∧
    failure.isTooDeep = true

theorem MeetsTooDeep.run_ne_ok (h : w.MeetsTooDeep previous t reports managed) :
    w.run previous t reports managed ≠ .ok p := by
  obtain ⟨before, report, after, q, result, failure, rfl, hbefore, hresult, hplan, hdeep⟩ := h
  have hnone : planningError? w.root failure = none := by
    cases failure with
    | json text e => simpa [isTooDeep, planningError?] using hdeep
    | tooDeep => rfl
    | _ => cases hdeep
  have hstep : q.writeTarget w (previous.getD {}) managed report = .error ⟨failure, q.tree⟩ := by
    rw [Progress.context] at hplan
    unfold Progress.writeTarget
    rw [hresult]
    dsimp only
    rw [hplan]
    dsimp only
    rw [hnone]
  unfold run at hbefore ⊢
  rw [foldlM_append, hbefore]
  simp [bind, Except.bind, hstep]

/-- Where names and texts are such as files can have and hold, only a document of too many levels
ends a run early. -/
theorem Setting.run_failsOnly (h : Setting w reports managed) (hw : w.IsNameable)
    (hsave : w.CanSave t) (hreports : ∀ report ∈ reports, report.IsFeasible)
    (hkeys : ∀ e ∈ (previous.getD {}).files, e.HasTextKeys) :
    FailsOnly (fun _ => w.MeetsTooDeep previous t reports managed)
      (w.run previous t reports managed) := by
  refine run_failsOnly_of_targets ?_
  intro before report after p hsplit hbefore
  have hfirst : Setting w before managed :=
    ⟨h.proper, fun r hr => h.outputs r (by simp [hsplit, hr]), h.managed⟩
  obtain ⟨-, hcan, -⟩ := hfirst.run_canSave hsave hbefore
  have hreport := hreports report (by simp [hsplit])
  unfold Progress.writeTarget
  split
  · exact .ok _
  rename_i result hresult
  dsimp only
  split
  · rename_i failure hplan
    have hplanning := plan_failsOnly hkeys
      (fun f hf => (hreport result hresult f hf).2.2) (managed.of report.target) failure hplan
    split
    · exact .ok _
    · exact .error ⟨before, report, after, p, result, failure, hsplit, hbefore, hresult, hplan,
        isTooDeep_of_planning hplanning ‹_›⟩
  · rename_i plan hplan
    have hplanned : w.Planned previous t reports managed report p plan :=
      ⟨⟨before, after, hsplit, hbefore⟩, result, hresult, hplan⟩
    obtain ⟨e, he⟩ := exists_execute (t := p.tree) hw (h.isFeasible_of_planned hreport
      hcan.wellFormed (bytesAt_of_dir hcan.root) hplanned)
    rw [he]
    exact .ok _

/-- A path in normal form that is short enough to be looked for. -/
def IsListable (w : Workplace) (path : Text) : Prop :=
  (∃ names, Leads path names) ∧ w.IsShort path

theorem IsListable.looked (h : w.IsListable path) (hw : w.IsProper) {α : Type}
    (f : Option FileEntry → α) (t : FileTree) :
    FailsOnly (fun _ => False) (atPath (w.location path) ((t.entry? (w.location path)).map f)) := by
  obtain ⟨⟨names, hleads⟩, hshort⟩ := h
  rw [IsShort, w.location_eq hleads] at hshort
  obtain ⟨found, hfound⟩ := t.exists_entry? (hw.areProper hleads) hshort
  rw [w.location_eq hleads, hfound]
  exact .ok _

theorem exists_manifest (hw : w.IsProper)
    (hold : ∀ e ∈ (previous.getD {}).files, p.persisted.lookup e.path = none →
      FailsOnly (fun _ => False) (atPath (w.location e.path) (p.tree.exists? (w.location e.path))))
    (hnew : ∀ e ∈ p.persisted, w.IsListable e.1) :
    ∃ manifest, p.manifest w.root previous = .ok manifest := by
  refine FailsOnly.exists_ok ?_
  have hfiles : ((previous.map (·.files)).getD []) = (previous.getD {}).files := by
    cases previous <;> rfl
  unfold Progress.manifest
  rw [hfiles]
  refine FailsOnly.bind (FailsOnly.filterM fun e he => ?_) fun _ _ => ?_
  · split
    · exact .ok _
    · rename_i hkept
      rw [Bool.or_eq_true, not_or, Option.not_isSome_iff_eq_none] at hkept
      exact hold e he hkept.2
  refine (FailsOnly.mapM fun e he => ?_).bind fun _ _ => .ok _
  refine FailsOnly.bind ((hnew e he).looked hw _ p.tree) fun found _ => ?_
  cases found <;> exact .ok _

theorem CanSave.exists_save (h : w.CanSave t)
    (hshort : ¬ FileTree.IsTooLong (w.root ++ Manifest.names)) (hm : ∀ e ∈ m.files, e.IsStorable) :
    ∃ t', m.save t w.root = .ok t' := by
  obtain ⟨bytes, hbytes, -⟩ := Manifest.exists_bytes hm
  have hnames : ∀ name ∈ w.root ++ Manifest.names, IsFileName name := by
    refine forall_mem_append.mpr ⟨h.wellFormed.isFileName h.root, fun name hname => ?_⟩
    refine isFileName_of_isPlain ?_
    revert name
    decide +kernel
  obtain ⟨u, hwrite⟩ := h.wellFormed.exists_write hshort hnames h.root h.source h.free hbytes
  refine ⟨u, mapError_eq_ok.mpr ?_⟩
  rw [Manifest.location_eq]
  exact hwrite

/-- A build that can do its work: the files are named as files can be, outside the source directory,
and hold texts; the manifest of the last build can be read, its paths looked for, and the next one
saved in its place. -/
structure IsViable (w : Workplace) (t : FileTree) (reports : List TargetReport)
    (managed : ManagedDirs) (previous : Option Manifest) : Prop where
  nameable : w.IsNameable
  setting : Setting w reports managed
  feasible : ∀ report ∈ reports, report.IsFeasible
  load_eq : Manifest.load t w.root = .ok previous
  keys : ∀ e ∈ (previous.getD {}).files, e.HasTextKeys
  paths : ∀ e ∈ (previous.getD {}).files, w.IsListable e.path
  saves : w.CanSave t
  short : ¬ IsTooLong (w.root ++ Manifest.names)

/-- A build returns once its run has, if every path that the last manifest lists can be looked for
and the manifest can be saved. -/
theorem Setting.exists_write_of_run (h : Setting w reports managed) (hsaves : w.CanSave t)
    (hload : Manifest.load t w.root = .ok previous)
    (hpaths : ∀ e ∈ (previous.getD {}).files, w.IsListable e.path)
    (hnames : ¬ IsTooLong (w.root ++ Manifest.names))
    (hrun : w.run previous t reports managed = .ok p) :
    ∃ build t' manifest, w.write t reports managed = .ok (build, t') ∧
      Manifest.load t' w.root = .ok (some manifest) ∧ build.targets = p.done ∧
      p.tree.ChangesAt t' (w.root ++ Manifest.names) := by
  have ht := hsaves.wellFormed
  have hroot := bytesAt_of_dir hsaves.root
  obtain ⟨htallies, hcan, hshort⟩ := h.run_canSave hsaves hrun
  obtain ⟨manifest, hmanifest⟩ : ∃ manifest, p.manifest w.root previous = .ok manifest := by
    refine exists_manifest h.proper (fun e he _ => (hpaths e he).looked h.proper _ p.tree) ?_
    rintro ⟨path, a⟩ hmem
    obtain ⟨ha, hpersists, hpath⟩ :=
      Action.lastWrite?_eq_some (htallies.mem_persisted_iff.mp hmem)
    have hordinary := isOrdinary_completed h ht hroot hrun a ha
    exact ⟨hpath ▸ hordinary.isNamed.leads, hshort path ⟨a, ha, hpersists, hpath⟩⟩
  obtain ⟨t', hsave⟩ :=
    hcan.exists_save hnames (h.isStorable_manifest ht hroot hload hrun hmanifest)
  obtain ⟨build, hwrite, htargets⟩ := write_of_run hload hrun hmanifest hsave
  exact ⟨build, t', _, hwrite, h.load_of_save ht hroot hload hrun hmanifest hsave, htargets,
    h.changesAt_of_save ht hroot hrun hsave⟩

theorem MeetsTooDeep.write_ne_ok (h : w.MeetsTooDeep previous t reports managed)
    (hload : Manifest.load t w.root = .ok previous) {done : BuildReport × FileTree} :
    w.write t reports managed ≠ .ok done := by
  intro hwrite
  obtain ⟨previous', p, -, hload', hrun, -⟩ := write_ok hwrite
  cases hload.symm.trans hload'
  exact h.run_ne_ok hrun

/-- A viable build returns, and has saved its manifest, unless it meets a document of too many
levels. -/
theorem IsViable.returns_iff (h : w.IsViable t reports managed previous) :
    (∃ build t' manifest, w.write t reports managed = .ok (build, t') ∧
      Manifest.load t' w.root = .ok (some manifest)) ↔
      ¬ w.MeetsTooDeep previous t reports managed := by
  constructor
  · exact fun ⟨build, t', _, hwrite, _⟩ hdeep => hdeep.write_ne_ok h.load_eq hwrite
  · intro hshallow
    have hfails := h.setting.run_failsOnly h.nameable h.saves h.feasible h.keys
    cases hrun : w.run previous t reports managed with
    | ok p =>
      obtain ⟨build, t', manifest, hwrite, hsaved, -⟩ :=
        h.setting.exists_write_of_run h.saves h.load_eq h.paths h.short hrun
      exact ⟨build, t', manifest, hwrite, hsaved⟩
    | error halt => exact absurd (hfails halt hrun) hshallow

theorem IsViable.exists_write_iff (h : w.IsViable t reports managed previous) :
    (∃ done, w.write t reports managed = .ok done) ↔
      ¬ w.MeetsTooDeep previous t reports managed := by
  constructor
  · exact fun ⟨_, hwrite⟩ hdeep => hdeep.write_ne_ok h.load_eq hwrite
  · intro hshallow
    obtain ⟨build, t', -, hwrite, -⟩ := h.returns_iff.mpr hshallow
    exact ⟨_, hwrite⟩

theorem Planned.kind_ne (hplanned : w.Planned previous t reports managed report p plan) :
    ∀ a ∈ plan.actions, a.kind ≠ .removeKeys := by
  obtain ⟨result, -, hplan⟩ := hplanned.plans
  intro a ha
  rcases plan_cases hplan ha with ⟨f, -, warnings, houtput⟩ | ⟨path, entry, rfl⟩
  · rw [(planOutput_inv houtput).kind_eq]
    split <;> simp
  · nofun

/-- A target that fails spares the rest. A build does the same without the targets that it passes
over, which get an error and no plan. Of each plan that is carried out all actions are tried and
each is counted once; one that fails touches no file. A viable build returns and saves its manifest,
unless it meets a document of too many levels. -/
theorem failing_target_spares_the_rest (w : Workplace) (t : FileTree) (reports : List TargetReport)
    (managed : ManagedDirs) :
    (match w.write t reports managed with
      | .error halt =>
        w.write t (unmarked reports (w.passedOver t reports managed)) managed = .error halt
      | .ok (build, t') =>
        List.Forall₂ Progress.Becomes (reports.zip (w.passedOver t reports managed))
          build.targets ∧
        ∃ others,
          w.write t (unmarked reports (w.passedOver t reports managed)) managed =
            .ok (others, t') ∧
          others.targets = unmarked build.targets (w.passedOver t reports managed) ∧
          others.written = build.written ∧ others.merged = build.merged ∧
          others.removed = build.removed) ∧
    (∀ previous report p plan e, w.Planned previous t reports managed report p plan →
      w.execute p.tree plan.actions = .ok e → w.Accounts p.tree plan.actions e) ∧
    ∀ previous, w.IsViable t reports managed previous →
      ((∃ build t' manifest, w.write t reports managed = .ok (build, t') ∧
        Manifest.load t' w.root = .ok (some manifest)) ↔
          ¬ w.MeetsTooDeep previous t reports managed) := by
  refine ⟨write_unmarked w t reports managed, ?_, ?_⟩
  · intro previous report p plan e hplanned he
    exact accounts_of_execute hplanned.kind_ne he
  · intro previous hviable
    exact hviable.returns_iff

def emptyTree : FileTree := ⟨[(["p"], .dir)]⟩

/-- A target whose settings are not JSON, and one with a file. -/
def brokenReports : List TargetReport :=
  [{ target := "t", result := some { files := [⟨"s", "\x7b", .sharedKeys⟩] } },
    { target := "u", result := some { files := [⟨"c", "y", .unmarked⟩] } }]

private theorem brokenViable : IsViable ⟨["p"], "S"⟩ emptyTree brokenReports [] none := by
  have hnamed {name : Text} (h : Path.isPlain name = true) :
      ∀ other ∈ [name], IsFileName other := by
    intro other hother
    rw [mem_singleton.mp hother]
    exact isFileName_of_isPlain h
  have hnotJson : fails (fun _ => true) (Json.read "\x7b") = true := by decide +kernel
  have hsettings : Leads "s" ["s"] := leads_of_isPlain (by decide +kernel)
  have hfile : Leads "c" ["c"] := leads_of_isPlain (by decide +kernel)
  refine ⟨⟨hnamed (by decide +kernel), isFileName_of_isPlain (by decide +kernel)⟩,
    ⟨isProper_of_isPlain (by decide +kernel),
      fun r hr => (TargetReport.of_isOrderly (by decide +kernel) r hr).1,
      fun _ _ hmem => by cases hmem⟩, ?_, by rfl,
    by simp, by simp, ⟨wellFormed_of_isPlain (by decide +kernel), by decide +kernel,
      by decide +kernel, by decide +kernel⟩, by decide +kernel⟩
  · intro report hreport result hresult f hf
    simp only [brokenReports, mem_cons, not_mem_nil, or_false] at hreport
    rcases hreport with rfl | rfl <;> cases hresult <;> obtain rfl := mem_singleton.mp hf
    · refine ⟨⟨["s"], hsettings, hnamed (by decide +kernel)⟩, ?_, ?_⟩
      · exact Text.isChars_ofChars ['\x7b']
      · intro _ v hread
        obtain ⟨e, herror, -⟩ := exists_of_fails hnotJson
        cases herror.symm.trans hread
    · exact ⟨⟨["c"], hfile, hnamed (by decide +kernel)⟩, Text.isChars_ofChars ['y'], nofun⟩

/-- The target whose settings are not JSON gets an error; the file of the other one is written as it
would be without it. -/
theorem failing_target_spares_the_rest_of_broken :
    Workplace.passedOver ⟨["p"], "S"⟩ emptyTree brokenReports [] = [true, false] ∧
    ∃ build others t' manifest,
      Workplace.write ⟨["p"], "S"⟩ emptyTree brokenReports [] = .ok (build, t') ∧
      Manifest.load t' ["p"] = .ok (some manifest) ∧
      Workplace.write ⟨["p"], "S"⟩ emptyTree (brokenReports.drop 1) [] = .ok (others, t') ∧
      t'.bytesAt ["p", "c"] ≠ none := by
  have hmarks : Workplace.passedOver ⟨["p"], "S"⟩ emptyTree brokenReports [] = [true, false] := by
    decide +kernel
  have hrun : Outcome.checks (fun _ => true)
      (Workplace.run ⟨["p"], "S"⟩ none emptyTree brokenReports []) = true := by decide +kernel
  have hthere : Outcome.checks (fun result => (result.2.bytesAt ["p", "c"]).isSome)
      (Workplace.write ⟨["p"], "S"⟩ emptyTree brokenReports []) = true := by decide +kernel
  obtain ⟨p, hrun, -⟩ := Outcome.exists_of_checks hrun
  obtain ⟨⟨build, t'⟩, hwrite, hthere⟩ := Outcome.exists_of_checks hthere
  obtain ⟨hsame, -, hreturns⟩ :=
    failing_target_spares_the_rest ⟨["p"], "S"⟩ emptyTree brokenReports []
  obtain ⟨_, _, manifest, hreturned, hload⟩ :=
    (hreturns none brokenViable).mpr fun hdeep => hdeep.run_ne_ok hrun
  cases hwrite.symm.trans hreturned
  rw [hwrite, hmarks] at hsame
  obtain ⟨-, others, hothers, -⟩ := hsame
  exact ⟨hmarks, build, others, t', manifest, hwrite, hload, hothers,
    Option.isSome_iff_ne_none.mp hthere⟩

/-- A target with a name that no file can have, and one with a file. -/
def unnameableReports : List TargetReport :=
  [{ target := "t", result := some { files := [⟨"a\x00", "x", .unmarked⟩] } },
    { target := "u", result := some { files := [⟨"c", "y", .unmarked⟩] } }]

/-- A name that no file can have is only found when its file is written. That ends the build: the
other target is not written, and no manifest is saved. -/
theorem unnameable_file_ends_the_build :
    Workplace.passedOver ⟨["p"], "S"⟩ emptyTree unnameableReports [] = [false, false] ∧
    ∃ halt, Workplace.write ⟨["p"], "S"⟩ emptyTree unnameableReports [] = .error halt ∧
      halt.failure.isTooDeep = false ∧ halt.tree.bytesAt ["p", "c"] = none ∧
      halt.tree.bytesAt ["p", ".agentrc", ".manifest.json"] = none := by
  have hwrite : Outcome.fails (fun halt => !halt.failure.isTooDeep &&
        (halt.tree.bytesAt ["p", "c"]).isNone &&
        (halt.tree.bytesAt ["p", ".agentrc", ".manifest.json"]).isNone)
      (Workplace.write ⟨["p"], "S"⟩ emptyTree unnameableReports []) = true := by decide +kernel
  obtain ⟨halt, hhalt, hleft⟩ := Outcome.exists_of_fails hwrite
  simp only [Bool.and_eq_true, Bool.not_eq_true', Option.isNone_iff_eq_none] at hleft
  exact ⟨by decide +kernel, halt, hhalt, hleft.1.1, hleft.1.2, hleft.2⟩

end Workplace

end AgentConfig
