import AgentConfig.Output.Plan
import AgentConfig.Proofs.Output.Perform

namespace AgentConfig

open List Outcome AgentConfig.Path

variable {c : PlanContext}

/-- The manifest has the digest of these bytes for the path. -/
def Manifest.Records (m : Manifest) (path : Text) (bytes : ByteArray) : Prop :=
  ∃ e, m.get? path = some e ∧ e.checksum = Digest.sha256 bytes

/-- A build has left these bytes at the path: they are as recorded, or a text with the marker. -/
def Manifest.Generated (m : Manifest) (path : Text) (bytes : ByteArray) : Prop :=
  m.Records path bytes ∨ ∃ text, Text.readText bytes = .ok text ∧ Marker.has path text = true

theorem FileEntry.text?_eq_some_iff {bytes : ByteArray} {text : Text} :
    FileEntry.text? (.file bytes) = some text ↔ Text.readText bytes = .ok text := by
  change (Text.readText bytes).toOption = some text ↔ _
  cases Text.readText bytes <;> simp [Except.toOption]

namespace PlanContext

variable {dirs desired location names owned : List Text} {bytes : ByteArray}
  {path directory text : Text} {entry : FileEntry} {removals : List (Action × List Text)}
  {files : List OutputFile} {plan : Plan}

theorem isAsRecorded_iff :
    c.isAsRecorded path (.file bytes) = true ↔ c.manifest.Records path bytes := by
  unfold isAsRecorded Manifest.Records
  cases c.manifest.get? path with
  | none => simp
  | some e =>
    simp only [FileEntry.checksum?, beq_iff_eq, Option.some.injEq, exists_eq_left']
    exact eq_comm

theorem isGenerated_iff :
    c.isGenerated path (.file bytes) = true ↔ c.manifest.Generated path bytes := by
  simp only [isGenerated, Manifest.Generated, Bool.or_eq_true, isAsRecorded_iff,
    ← FileEntry.text?_eq_some_iff]
  cases FileEntry.text? (.file bytes) <;> simp

/-- An action that leaves what stands at its path alone because it is what was wanted, copies it
away first, or finds that a build has left it there. -/
def Respects (c : PlanContext) (a : Action) (entry : FileEntry) : Prop :=
  (a.status = .noop ∧ entry.text? = a.payload) ∨
  (a.status ≠ .noop ∧ (a.backup = true ∨ c.isAsRecorded a.path entry = true ∨
    (c.manifest.get? a.path = none ∧
      ∃ text, entry.text? = some text ∧ Marker.has a.path text = true)))

/-- An action that is planned for a generated file. -/
structure PlansWrite (c : PlanContext) (f : OutputFile) (a : Action) : Prop where
  path_eq : a.path = f.path
  kind_eq : a.kind = if f.ownership = .sharedKeys then .mergeJson else .writeText
  plain : a.kind = .writeText → a.ownedKeys = none ∧ a.payload = some f.desired
  payload : ∃ text, a.payload = some text
  copies_fresh : a.backup = true → c.ledger.hasPath f.path = false
  fresh : c.ledger.hasPath f.path = false → ∃ found, c.entry? f.path = .ok found ∧
    match found with
    | none => a.status ≠ .noop
    | some entry => c.Respects a entry

variable {c : PlanContext} {target : Text} {f : OutputFile} {a : Action} {warnings : List Text}

private theorem respects_of_not_needsBackup (hpath : a.path = path)
    (hstatus : a.status ≠ .noop) (hneeds : c.needsBackup path entry = false) :
    c.Respects a entry := by
  subst hpath
  refine .inr ⟨hstatus, .inr ?_⟩
  unfold needsBackup at hneeds
  split at hneeds
  · rename_i e he
    exact .inl (by simpa [isAsRecorded, he] using hneeds)
  rename_i hnone
  refine .inr ⟨hnone, ?_⟩
  split at hneeds
  · rename_i text htext
    exact ⟨text, htext, by simpa using hneeds⟩
  · cases hneeds

theorem planOutput_eq_planFile (hfull : f.ownership ≠ .sharedKeys) :
    c.planOutput target f = c.planFile target f := by
  unfold planOutput
  split
  · contradiction
  · rfl

theorem planFile_ok {step : Action × List Text} (hplan : c.planFile target f = .ok step) :
    f.check = .ok () ∧ ∃ found, c.entry? f.path = .ok found ∧ match c.ledger.get? f.path with
      | some earlier => planShared target f earlier = step
      | none => c.planOver target f found = step := by
  obtain ⟨⟨⟩, hcheck, hplan⟩ := bind_eq_ok.mp hplan
  obtain ⟨found, hfound, hplan⟩ := bind_eq_ok.mp hplan
  refine ⟨hcheck, found, hfound, ?_⟩
  cases hledger : c.ledger.get? f.path with
  | some earlier =>
    rw [hledger] at hplan
    exact Except.ok.inj hplan
  | none =>
    rw [hledger] at hplan
    obtain ⟨_, -, hplan⟩ := bind_eq_ok.mp hplan
    exact Except.ok.inj hplan

theorem planFile_inv (hfull : f.ownership ≠ .sharedKeys)
    (hplan : c.planFile target f = .ok (a, warnings)) : c.PlansWrite f a := by
  obtain ⟨-, found, hfound, hstep⟩ := planFile_ok hplan
  cases hledger : c.ledger.get? f.path with
  | some earlier =>
    have hhas : c.ledger.hasPath f.path = true := by simp [Ledger.hasPath, hledger]
    have hshared : planShared target f earlier = (a, warnings) := by rwa [hledger] at hstep
    unfold planShared at hshared
    split at hshared <;> cases hshared <;>
      exact ⟨rfl, by simp [hfull], fun _ => ⟨rfl, rfl⟩, ⟨_, rfl⟩, by simp, by simp [hhas]⟩
  | none =>
    have hfresh : c.ledger.hasPath f.path = false := by simp [Ledger.hasPath, hledger]
    have hover : c.planOver target f found = (a, warnings) := by rwa [hledger] at hstep
    unfold planOver at hover
    cases found with
    | none =>
      cases hover
      exact ⟨rfl, by simp [hfull], fun _ => ⟨rfl, rfl⟩, ⟨_, rfl⟩, fun _ => hfresh,
        fun _ => ⟨none, hfound, by simp⟩⟩
    | some entry =>
      dsimp only at hover
      split at hover
      · rename_i htext
        cases hover
        exact ⟨rfl, by simp [hfull], fun _ => ⟨rfl, rfl⟩, ⟨_, rfl⟩, fun _ => hfresh,
          fun _ => ⟨some entry, hfound, .inl ⟨rfl, htext⟩⟩⟩
      · split at hover
        · cases hover
          exact ⟨rfl, by simp [hfull], fun _ => ⟨rfl, rfl⟩, ⟨_, rfl⟩, fun _ => hfresh,
            fun _ => ⟨some entry, hfound, .inr ⟨by simp, .inl rfl⟩⟩⟩
        rename_i hneeds
        cases hover
        exact ⟨rfl, by simp [hfull], fun _ => ⟨rfl, rfl⟩, ⟨_, rfl⟩, fun _ => hfresh,
          fun _ => ⟨some entry, hfound,
            respects_of_not_needsBackup rfl (by simp) (by simpa using hneeds)⟩⟩

/-- What is done for a settings document, before it is known what stands there. -/
def settingsAction (target : Text) (f : OutputFile) : Action :=
  { kind := .mergeJson, path := f.path, status := .create
    detail := "Create shared settings", target }

/-- How an action for a settings document comes about: over which base the overlay is laid, and
which keys are noted. -/
structure Settles (c : PlanContext) (f : OutputFile) (overlay base : Json.Members)
    (stored : StoredJson) (owned : List Text) (merged : Json) (found : Option FileEntry) :
    Prop where
  overlay_eq : overlayOf f.content = .ok overlay
  stored_eq : c.tree.storedJson (c.location f.path) = .ok stored
  base_eq : match c.ledger.get? f.path with
    | some earlier => base = (baseOf stored).1 ∧
      owned = distinctSorted (earlier.ownedKeys.getD [] ++ Json.keyPaths keyDepth overlay)
    | none => c.withoutOwned f.path (baseOf stored).1 = .ok base ∧
      owned = Json.keyPaths keyDepth overlay
  merged_eq : Json.overlay (.obj base) overlay = .ok merged
  found_eq : c.entry? f.path = .ok found

theorem planSettings_ok (hplan : c.planSettings target f = .ok (a, warnings)) :
    ∃ overlay base stored owned merged found, c.Settles f overlay base stored owned merged found ∧
      a = (c.settle (settingsAction target f) (Json.write merged) owned found).1 := by
  obtain ⟨overlay, hoverlay, hplan⟩ := bind_eq_ok.mp hplan
  obtain ⟨stored, hstored, hplan⟩ := bind_eq_ok.mp hplan
  dsimp only at hplan
  cases hledger : c.ledger.get? f.path with
  | some earlier =>
    rw [hledger] at hplan
    obtain ⟨⟨base, owned⟩, hbase, hplan⟩ := bind_eq_ok.mp hplan
    obtain ⟨merged, hmerged, hplan⟩ := bind_eq_ok.mp hplan
    obtain ⟨found, hfound, hplan⟩ := bind_eq_ok.mp hplan
    cases hbase
    cases hplan
    exact ⟨overlay, _, stored, _, merged, found, ⟨hoverlay, hstored, by simp [hledger],
      mapError_eq_ok.mp hmerged, hfound⟩, rfl⟩
  | none =>
    rw [hledger] at hplan
    obtain ⟨base, hbase, hplan⟩ := bind_eq_ok.mp hplan
    obtain ⟨_, hpair, hplan⟩ := bind_eq_ok.mp hplan
    cases hpair
    obtain ⟨merged, hmerged, hplan⟩ := bind_eq_ok.mp hplan
    obtain ⟨found, hfound, hplan⟩ := bind_eq_ok.mp hplan
    cases hplan
    exact ⟨overlay, base, stored, _, merged, found, ⟨hoverlay, hstored, by simp [hledger, hbase],
      mapError_eq_ok.mp hmerged, hfound⟩, rfl⟩

theorem Settles.exists_planSettings {overlay base : Json.Members} {stored : StoredJson}
    {merged : Json} {found : Option FileEntry}
    (h : c.Settles f overlay base stored owned merged found) (target : Text) :
    ∃ warnings, c.planSettings target f =
      .ok ((c.settle (settingsAction target f) (Json.write merged) owned found).1, warnings) := by
  have hbase := h.base_eq
  have hmerged : Failure.ofOverlay (Json.overlay (.obj base) overlay) = .ok merged :=
    mapError_eq_ok.mpr h.merged_eq
  simp only [planSettings, h.overlay_eq, h.stored_eq, bind, Except.bind]
  cases hledger : c.ledger.get? f.path with
  | some earlier =>
    rw [hledger] at hbase
    obtain ⟨rfl, rfl⟩ := hbase
    simp only [pure, Except.pure, hmerged, h.found_eq]
    exact ⟨_, rfl⟩
  | none =>
    rw [hledger] at hbase
    simp only [pure, Except.pure, hbase, hmerged, h.found_eq]
    exact ⟨_, rfl⟩

theorem settle_fields (action : Action) (desired : Text) (owned : List Text)
    (found : Option FileEntry) :
    (c.settle action desired owned found).1.kind = action.kind ∧
      (c.settle action desired owned found).1.path = action.path ∧
      (c.settle action desired owned found).1.target = action.target ∧
      (c.settle action desired owned found).1.payload = some desired ∧
      (c.settle action desired owned found).1.ownedKeys = some owned := by
  unfold settle
  cases found with
  | none => exact ⟨rfl, rfl, rfl, rfl, rfl⟩
  | some entry =>
    dsimp only
    split <;> exact ⟨rfl, rfl, rfl, rfl, rfl⟩

theorem settle_status (c : PlanContext) (target : Text) (f : OutputFile) (desired : Text)
    (owned : List Text) (found : Option FileEntry) :
    let a := (c.settle (settingsAction target f) desired owned found).1
    match found with
    | none => a.status = .create ∧ a.backup = false
    | some entry =>
      (entry.text? = some desired ∧ a.status = .noop ∧ a.backup = false) ∨
      (entry.text? ≠ some desired ∧ a.status = .update ∧
        a.backup = (!c.ledger.hasPath f.path && !c.isAsRecorded f.path entry)) := by
  unfold settle
  cases found with
  | none => exact ⟨rfl, rfl⟩
  | some entry =>
    dsimp only
    split
    · exact .inl ⟨‹_›, rfl, rfl⟩
    · exact .inr ⟨‹_›, rfl, rfl⟩

theorem planSettings_inv (hshared : f.ownership = .sharedKeys)
    (hplan : c.planSettings target f = .ok (a, warnings)) : c.PlansWrite f a := by
  obtain ⟨overlay, base, stored, owned, merged, found, hsettles, rfl⟩ := planSettings_ok hplan
  obtain ⟨hkind, hpath, -, hpayload, -⟩ :=
    c.settle_fields (settingsAction target f) (Json.write merged) owned found
  have hstatus := c.settle_status target f (Json.write merged) owned found
  refine ⟨hpath, by rw [hkind, if_pos hshared]; rfl, by rw [hkind]; exact nofun,
    ⟨_, hpayload⟩, ?_, ?_⟩
  · intro hbackup
    cases found with
    | none => simp [hstatus.2] at hbackup
    | some entry =>
      rcases hstatus with ⟨-, -, hno⟩ | ⟨-, -, hcopied⟩
      · simp [hno] at hbackup
      · simp only [hcopied, Bool.and_eq_true, Bool.not_eq_true'] at hbackup
        exact hbackup.1
  · intro hfresh
    refine ⟨found, hsettles.found_eq, ?_⟩
    cases found with
    | none => simp [hstatus.1]
    | some entry =>
      rcases hstatus with ⟨htext, hnoop, -⟩ | ⟨-, hupdate, hcopied⟩
      · exact .inl ⟨hnoop, htext.trans hpayload.symm⟩
      refine .inr ⟨by simp [hupdate], ?_⟩
      by_cases hrecorded : c.isAsRecorded f.path entry = true
      · exact .inr (.inl (hpath ▸ hrecorded))
      · exact .inl (by simp [hcopied, hfresh, hrecorded])

theorem planOutput_inv (hplan : c.planOutput target f = .ok (a, warnings)) : c.PlansWrite f a := by
  unfold planOutput at hplan
  split at hplan
  · exact planSettings_inv ‹_› hplan
  · exact planFile_inv ‹_› hplan

/-- The location of `names` below the root lies in the directory, at any depth. -/
def LiesIn (root : List Text) (directory : Text) (names : List Text) : Prop :=
  ∃ rest, rest ≠ [] ∧ root ++ names = join root directory ++ rest

/-- An action that removes a generated file which the run does not write. -/
structure PlansRemoval (c : PlanContext) (target : Text) (desired dirs : List Text) (a : Action)
    (names : List Text) (bytes : ByteArray) : Prop where
  leads : Leads a.path names
  get?_eq : c.tree.get? (c.root ++ names) = some (.file bytes)
  liesIn : ∃ directory ∈ dirs, LiesIn c.root directory names
  not_desired : a.path ∉ desired
  not_written : c.ledger.hasPath a.path = false
  generated : c.isGenerated a.path (.file bytes) = true
  action_eq : a = (c.planRemoval target a.path (.file bytes)).1

/-- Where a plan is made: the root is a directory, and managed directories are named by proper
names. -/
structure IsSound (c : PlanContext) (dirs : List Text) : Prop where
  tree : c.tree.WellFormed
  root : AreProper c.root
  rootDir : c.tree.bytesAt c.root = none
  dirs : ∀ directory ∈ dirs, AreProper (Path.names directory)

theorem IsSound.areProper_join (hc : c.IsSound dirs) (hmem : directory ∈ dirs) :
    AreProper (c.location directory) := by
  unfold location join
  split
  · exact hc.dirs directory hmem
  · exact hc.root.append (hc.dirs directory hmem)

/-- Whether a path is one that a run does not write though a build has left a file there. -/
def isStale (c : PlanContext) (desired : List Text) (path : Text) (entry : FileEntry) : Bool :=
  !desired.contains path && !c.ledger.hasPath path && c.isGenerated path entry

private theorem planStaleFile_inv {result : Option (Action × List Text)}
    (hplan : c.planStaleFile target desired location entry = .ok result) :
    ∃ path, c.pathOf location = .ok path ∧
      result = if c.isStale desired path entry then some (c.planRemoval target path entry)
        else none := by
  obtain ⟨path, hpath, hplan⟩ := bind_eq_ok.mp hplan
  refine ⟨path, hpath, ?_⟩
  split at hplan
  · rename_i hidle
    cases hplan
    simp only [Bool.or_eq_true] at hidle
    rcases hidle with h | h <;> simp only [isStale, h] <;> simp
  · rename_i hidle
    simp only [Bool.or_eq_true, not_or, Bool.not_eq_true] at hidle
    split at hplan
    · rename_i hrecorded
      cases hplan
      simp only [isStale, hidle, isGenerated, hrecorded]
      simp
    · obtain ⟨_, _, hplan⟩ := bind_eq_ok.mp hplan
      cases hplan
      simp only [isStale, hidle]
      simp

theorem pathOf_append (c : PlanContext) (names : List Text) :
    c.pathOf (c.root ++ names) = .ok (Path.relative names) := by
  simp [pathOf]

theorem pathOf_inv (hpath : c.pathOf location = .ok path) :
    ∃ names, location = c.root ++ names ∧ path = relative names := by
  unfold pathOf at hpath
  split at hpath
  · rename_i hprefix
    obtain ⟨names, rfl⟩ := isPrefixOf_iff_prefix.mp hprefix
    refine ⟨names, rfl, ?_⟩
    rw [← Except.ok.inj hpath, drop_left]
  · cases hpath

private theorem mem_planStaleIn_iff (hc : c.IsSound dirs)
    (hmem : directory ∈ dirs) (hplan : c.planStaleIn target desired directory = .ok removals) :
    a ∈ removals.map (·.1) ↔ ∃ names bytes, LiesIn c.root directory names ∧
      c.tree.get? (c.root ++ names) = some (.file bytes) ∧
      c.isStale desired (relative names) (.file bytes) = true ∧
      a = (c.planRemoval target (relative names) (.file bytes)).1 := by
  have hproper := hc.areProper_join hmem
  obtain ⟨isDir, hisDir, hplan⟩ := bind_eq_ok.mp hplan
  have hdir := hc.tree.isDir?_eq hproper (mapError_eq_ok.mp hisDir)
  split at hplan
  · rename_i hnot
    cases hplan
    simp only [map_nil, not_mem_nil, false_iff]
    rintro ⟨names, bytes, ⟨rest, hrest, heq⟩, hget, -⟩
    rw [heq] at hget
    have habove := hc.tree.get?_above hrest hget
    simp [location, habove, hdir] at hnot
  · obtain ⟨place, hplace, hplan⟩ := bind_eq_ok.mp hplan
    obtain rfl := FileTree.locate_eq hproper (mapError_eq_ok.mp hplace)
    obtain ⟨found, hfound, hplan⟩ := bind_eq_ok.mp hplan
    cases hplan
    simp only [mem_map, mem_filterMap, id_eq]
    constructor
    · rintro ⟨_, ⟨_, hresult, rfl⟩, rfl⟩
      obtain ⟨⟨rest, bytes⟩, hbelow, hstale⟩ := (mem_of_mapM_eq_ok hfound).mp hresult
      obtain ⟨hrest, hget⟩ := hc.tree.mem_filesBelow_iff.mp hbelow
      obtain ⟨path, hpath, hif⟩ := planStaleFile_inv hstale
      obtain ⟨names, hnames, rfl⟩ := pathOf_inv hpath
      split at hif
      · rename_i hisStale
        cases hif
        exact ⟨names, bytes, ⟨rest, hrest, hnames.symm⟩, hnames ▸ hget, hisStale, rfl⟩
      · cases hif
    · rintro ⟨names, bytes, ⟨rest, hrest, heq⟩, hget, hisStale, rfl⟩
      have hbelow : (rest, bytes) ∈ c.tree.filesBelow (c.location directory) :=
        hc.tree.mem_filesBelow_iff.mpr ⟨hrest, by rw [← hget, heq]; rfl⟩
      obtain ⟨result, hresult, hstale⟩ := exists_of_mapM_eq_ok hfound hbelow
      obtain ⟨path, hpath, hif⟩ := planStaleFile_inv hstale
      obtain ⟨others, hothers, rfl⟩ := pathOf_inv hpath
      obtain rfl : others = names := append_cancel_left (hothers.symm.trans heq.symm)
      rw [if_pos hisStale] at hif
      exact ⟨_, ⟨result, hresult, hif⟩, rfl⟩

theorem exists_of_planStaleIn {planned : Action × List Text}
    (hplan : c.planStaleIn target desired directory = .ok removals) (hmem : planned ∈ removals) :
    ∃ path entry, c.isStale desired path entry = true ∧
      planned = c.planRemoval target path entry := by
  obtain ⟨isDir, -, hplan⟩ := bind_eq_ok.mp hplan
  split at hplan
  · cases hplan
    cases hmem
  obtain ⟨place, -, hplan⟩ := bind_eq_ok.mp hplan
  obtain ⟨found, hfound, hplan⟩ := bind_eq_ok.mp hplan
  cases hplan
  obtain ⟨_, hresult, rfl⟩ := mem_filterMap.mp hmem
  obtain ⟨⟨names, bytes⟩, -, hstale⟩ := (mem_of_mapM_eq_ok hfound).mp hresult
  obtain ⟨path, -, hif⟩ := planStaleFile_inv hstale
  split at hif
  · cases hif
    exact ⟨path, .file bytes, ‹_›, rfl⟩
  · cases hif

private theorem plansRemoval_of_isStale (hc : c.IsSound dirs)
    (hlies : ∃ directory ∈ dirs, LiesIn c.root directory names)
    (hget : c.tree.get? (c.root ++ names) = some (.file bytes))
    (hstale : c.isStale desired (relative names) (.file bytes) = true) :
    c.PlansRemoval target desired dirs
      (c.planRemoval target (relative names) (.file bytes)).1 names bytes := by
  have hne : names ≠ [] := by
    rintro rfl
    have hroot := hc.rootDir
    rw [FileTree.bytesAt_eq_some_iff.mpr (by simpa using hget)] at hroot
    cases hroot
  have hproper : AreProper names := hc.tree.areProper_below hget
  simp only [isStale, Bool.and_eq_true, Bool.not_eq_true', contains_eq_mem,
    decide_eq_false_iff_not] at hstale
  exact ⟨leads_relative hne hproper, hget, hlies, hstale.1.1, hstale.1.2, hstale.2, rfl⟩

theorem plan_payload (hplan : c.plan target files dirs = .ok plan) (ha : a ∈ plan.actions)
    (hpayload : a.payload = some text) : ∃ f ∈ files, c.PlansWrite f a := by
  obtain ⟨written, hwritten, hplan⟩ := bind_eq_ok.mp hplan
  obtain ⟨removed, hremoved, hplan⟩ := bind_eq_ok.mp hplan
  cases hplan
  simp only [map_append, mem_append, mem_map] at ha
  rcases ha with ⟨planned, hmem, rfl⟩ | ⟨planned, hmem, rfl⟩
  · obtain ⟨f, hf, hplanned⟩ := (mem_of_mapM_eq_ok hwritten).mp hmem
    exact ⟨f, hf, planOutput_inv hplanned⟩
  obtain ⟨found, hfound, hmem⟩ := mem_flatten.mp hmem
  obtain ⟨directory, -, hstale⟩ := (mem_of_mapM_eq_ok hremoved).mp hfound
  obtain ⟨path, entry, -, rfl⟩ := exists_of_planStaleIn hstale hmem
  cases hpayload

theorem plan_inv (hc : c.IsSound dirs) (hplan : c.plan target files dirs = .ok plan) :
    ∃ writes removals, plan.actions = writes ++ removals ∧ Forall₂ c.PlansWrite files writes ∧
      ∀ a, a ∈ removals ↔
        ∃ names bytes, c.PlansRemoval target (files.map (·.path)) dirs a names bytes := by
  obtain ⟨written, hwritten, hplan⟩ := bind_eq_ok.mp hplan
  obtain ⟨removed, hremoved, hplan⟩ := bind_eq_ok.mp hplan
  cases hplan
  refine ⟨written.map (·.1), removed.flatten.map (·.1), map_append, ?_, fun a => ?_⟩
  · rw [forall₂_map_right_iff]
    exact (mapM_eq_ok.mp hwritten).imp fun _ _ h => planOutput_inv h
  have hflatten : a ∈ removed.flatten.map (·.1) ↔ ∃ found ∈ removed, a ∈ found.map (·.1) := by
    simp only [mem_map, mem_flatten]
    exact ⟨fun ⟨x, ⟨l, hl, hx⟩, h⟩ => ⟨l, hl, x, hx, h⟩,
      fun ⟨l, hl, x, hx, h⟩ => ⟨x, ⟨l, hl, hx⟩, h⟩⟩
  rw [hflatten]
  constructor
  · rintro ⟨found, hfound, ha⟩
    obtain ⟨directory, hmem, hstale⟩ := (mem_of_mapM_eq_ok hremoved).mp hfound
    obtain ⟨names, bytes, hlies, hget, hisStale, rfl⟩ :=
      (mem_planStaleIn_iff hc hmem hstale).mp ha
    exact ⟨names, bytes, plansRemoval_of_isStale hc ⟨directory, hmem, hlies⟩ hget hisStale⟩
  · rintro ⟨names, bytes, h⟩
    obtain ⟨directory, hmem, hlies⟩ := h.liesIn
    obtain ⟨found, hfound, hstale⟩ := exists_of_mapM_eq_ok hremoved hmem
    refine ⟨found, hfound, (mem_planStaleIn_iff hc hmem hstale).mpr
      ⟨names, bytes, hlies, h.get?_eq, ?_, ?_⟩⟩
    · rw [← h.leads.path_eq]
      simp [isStale, h.not_desired, h.not_written, h.generated]
    · rw [← h.leads.path_eq]
      exact h.action_eq

end PlanContext

end AgentConfig
