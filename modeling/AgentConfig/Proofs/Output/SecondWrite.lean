import AgentConfig.Proofs.Hook.Reapplied
import AgentConfig.Proofs.Output.UserKeys

namespace AgentConfig

open List Outcome Hook Json PlanContext Progress Workplace

variable {merged v w : Json}

namespace Json

mutual

theorem levels_joined : (v : Json) → v.joined.levels = v.levels
  | .null | .bool _ | .int _ | .real _ | .str _ => rfl
  | .arr items => by rw [joined, levels, levels, itemLevels_joined items]
  | .obj members => by rw [joined, levels, levels, memberLevels_joined members]

theorem itemLevels_joined : (items : List Json) → itemLevels (joinedItems items) = itemLevels items
  | [] => rfl
  | v :: items => by
    rw [joinedItems, itemLevels, itemLevels, levels_joined v, itemLevels_joined items]

theorem memberLevels_joined : (members : List (Text × Json)) →
    memberLevels (joinedMembers members) = memberLevels members
  | [] => rfl
  | (k, v) :: members => by
    rw [joinedMembers, memberLevels, memberLevels, levels_joined v, memberLevels_joined members]

end

theorem overlay_again {n k : Nat} {base overlay : Members} (hbase : AreReadable n base)
    (hoverlay : AreReadable k overlay) (hlevels : memberLevels overlay < maxMergeLevels)
    (h : Json.overlay (.obj base) overlay = .ok merged) (paths : List Text) :
    let rest := (removePaths paths (merge base overlay)).1
    Json.overlay (.obj rest) overlay = .ok (.obj (merge rest overlay)) := by
  intro rest
  obtain ⟨-, hlow, -⟩ := overlay_eq_ok h
  have hrest : AreReadable (maxMergeLevels - 1) rest :=
    ((hbase.of_levels (Nat.le_sub_one_of_lt hlow)).merge
      (hoverlay.of_levels (Nat.le_sub_one_of_lt hlevels))).removePaths paths
  have hlow : (Json.obj rest).levels ≤ maxMergeLevels := (areReadable_iff.mp hrest).2
  rw [Json.overlay, if_neg (Nat.not_lt.mpr hlow)]
  exact if_neg (Nat.not_lt.mpr hlevels.le)

theorem IsReadableIn.write_inj (hv : IsReadableIn maxLevels v)
    (hw : IsReadableIn maxLevels w) : write v = write w ↔ v = w := by
  refine ⟨fun h => ?_, congrArg write⟩
  have hread := hv.1.read_write hv.2
  rw [h, hw.1.read_write hw.2] at hread
  exact (Except.ok.inj hread).symm

end Json

theorem Workplace.run_of_plan (w : Workplace) (previous : Option Manifest) (managed : ManagedDirs)
    {t : FileTree} {report : TargetReport} {result : Generated} {plan : Plan} {e : Execution}
    (hresult : report.result = some result)
    (hplan : (PlanContext.mk w.root t (previous.getD {}) []).plan report.target result.files
      (managed.of report.target) = .ok plan) (he : w.execute t plan.actions = .ok e) :
    ∃ p, w.run previous t [report] managed = .ok p ∧ p.tree = e.tree ∧
      p.done = [reportOf report plan e] := by
  have hnext : writeTarget w (previous.getD {}) managed { tree := t } report = _ :=
    writeTarget_of_plans ⟨result, hresult, hplan⟩
  rw [he] at hnext
  obtain ⟨htree, -, hdone⟩ := after_unchanged { tree := t } report plan e
  exact ⟨_, bind_eq_ok.mpr ⟨_, hnext, rfl⟩, htree, hdone⟩

namespace HookBuilds

variable {root location : List Text} {path stamp : Text} {place : List Text} {base : Json.Members}
  {hooks : List Hook} {t : FileTree} {m : Manifest} {bytes : ByteArray} {report : TargetReport}
  {result : Generated}

/-- A document with the settings of hooks laid over it. -/
abbrev laidOn (base : Members) (hooks : List Hook) : Members :=
  Json.merge base (joinedMembers (Hook.settings hooks))

/-- A project after the settings of hooks were written over a document, with the manifest and the
bytes of the document that were left. -/
structure IsBuilt (root : List Text) (path : Text) (place : List Text) (base : Members)
    (hooks : List Hook) (t : FileTree) (m : Manifest) (bytes : ByteArray) : Prop where
  wellFormed : t.WellFormed
  load_eq : Manifest.load t root = .ok (some m)
  files_eq : ∃ checksum,
    m.files = [⟨path, checksum, some (((Hook.events hooks).map eventPath).map .str)⟩]
  short : ¬ FileTree.IsTooLong (root ++ place)
  bytesAt_eq : t.bytesAt (root ++ place) = some bytes
  written : IsWritten bytes (.obj (laidOn base hooks))
  readable : AreReadable (maxLevels - 1) base
  overlay_eq : Json.overlay (.obj base) (joinedMembers (Hook.settings hooks)) =
    .ok (.obj (laidOn base hooks))

theorem areReadable_settings (hooks : List Hook) :
    AreReadable (maxLevels - 1) (joinedMembers (Hook.settings hooks)) :=
  areReadable_overlayOf (isPlain_settings hooks).isChars_write (overlayOf_settings hooks)

section

variable (h : IsBuilt root path place base hooks t m bytes) (hroot : Path.AreProper root)
  (hplace : Path.Leads path place)
include h hroot hplace

theorem IsBuilt.settles :
    let overlay := joinedMembers (Hook.settings hooks)
    let rest := (removePaths ((Hook.events hooks).map eventPath) (laidOn base hooks)).1
    (PlanContext.mk root t m []).Settles (settingsFile path hooks) overlay rest
      (.value (.obj (laidOn base hooks))) (keyPaths keyDepth overlay)
      (.obj (Json.merge rest overlay)) (some (.file bytes)) := by
  have hproper := hroot.append hplace.proper
  have hlocation : (PlanContext.mk root t m []).location path = root ++ place :=
    hplace.join_eq root
  refine ⟨overlayOf_settings hooks, ?_, ⟨?_, rfl⟩, ?_, ?_⟩
  · rw [settingsFile, hlocation]
    exact (h.wellFormed.storedJson_eq_value_iff hproper).mpr
      ⟨h.short, bytes, h.bytesAt_eq, h.written.isStored⟩
  · obtain ⟨checksum, hfiles⟩ := h.files_eq
    exact withoutOwned_of_files hfiles _
  · refine overlay_again h.readable (areReadable_settings hooks) ?_ h.overlay_eq _
    have hlevels := levels_settings hooks
    rw [Json.levels] at hlevels
    rw [memberLevels_joined, maxMergeLevels]
    omega
  · refine mapError_eq_ok.mpr ?_
    rw [settingsFile, hlocation]
    exact (h.wellFormed.entry?_eq_some_iff hproper).mpr
      ⟨FileTree.bytesAt_eq_some_iff.mp h.bytesAt_eq, h.short⟩

/-- There is nothing to do for hooks that are already written exactly if the document ends in their
events. -/
theorem IsBuilt.plan_again (hhooks : hooks ≠ []) (target : Text) :
    ∃ a warnings, (PlanContext.mk root t m []).plan target [settingsFile path hooks] [] =
        .ok ⟨[a], warnings⟩ ∧ a.path = path ∧ a.kind = .mergeJson ∧
      (∃ bytes', a.payload.bind Text.bytes? = some bytes') ∧
      ((a.status = .noop ∧ EndsIn (Hook.events hooks) (laidOn base hooks)) ∨
        (a.status = .update ∧ ¬ EndsIn (Hook.events hooks) (laidOn base hooks))) := by
  let c := PlanContext.mk root t m []
  let f := settingsFile path hooks
  let overlay := joinedMembers (Hook.settings hooks)
  let rest := (removePaths ((Hook.events hooks).map eventPath) (laidOn base hooks)).1
  have hsettles := h.settles hroot hplace
  have hproper : Path.AreProper (Path.join root path) := by
    rw [hplace.join_eq root]
    exact hroot.append hplace.proper
  have hmerged : IsReadableIn maxLevels (.obj (Json.merge rest overlay)) :=
    hsettles.isReadable h.wellFormed hproper (areReadable_settings hooks)
  have hsame : (FileEntry.file bytes).text? = some (Json.write (.obj (Json.merge rest overlay))) ↔
      EndsIn (Hook.events hooks) (laidOn base hooks) := by
    rw [FileEntry.text?_eq_some_iff, h.written.readText_eq, Except.ok.injEq,
      h.written.readable.write_inj hmerged, Json.obj.injEq, eq_comm]
    exact (isGenerated_settings hhooks).merge_again_iff isEvent_of_mem_events
      (areReadable_iff.mpr h.written.readable)
  obtain ⟨warnings, hplan⟩ := hsettles.exists_planSettings target
  have hfields := c.settle_fields (settingsAction target f)
    (Json.write (.obj (Json.merge rest overlay))) (keyPaths keyDepth overlay)
    (some (.file bytes))
  have hstatus := c.settle_status target f (Json.write (.obj (Json.merge rest overlay)))
    (keyPaths keyDepth overlay) (some (.file bytes))
  generalize (c.settle (settingsAction target f)
    (Json.write (.obj (Json.merge rest overlay))) (keyPaths keyDepth overlay)
    (some (.file bytes))).1 = a at hplan hfields hstatus
  obtain ⟨hkind, hpath, -, hpayload, -⟩ := hfields
  refine ⟨a, warnings, ?_, hpath, hkind, ?_, ?_⟩
  · refine bind_eq_ok.mpr ⟨[(a, warnings)], mapM_eq_ok.mpr (.cons hplan .nil), ?_⟩
    simp [bind, Except.bind, pure, Except.pure]
  · obtain ⟨bytes', hbytes', -⟩ := hmerged.1.exists_bytes
    exact ⟨bytes', by rw [hpayload, Option.bind_some, hbytes']⟩
  · rcases hstatus with ⟨htext, hnoop, -⟩ | ⟨htext, hupdate, -⟩
    · exact .inl ⟨hnoop, hsame.mp htext⟩
    · exact .inr ⟨hupdate, mt hsame.mpr htext⟩

/-- A second build of the hooks returns. It finds the document up to date exactly if that ends in
their events, and then leaves it alone. -/
theorem IsBuilt.write_again (hout : IsOutside place) (hhooks : hooks ≠ [])
    (hresult : report.result = some result) (hfiles : result.files = [settingsFile path hooks])
    (hstamp : IsFileName stamp) :
    ∃ build t' a warnings, Workplace.write ⟨root, stamp⟩ t [report] [] = .ok (build, t') ∧
      build.targets.map (·.plan) = [some ⟨[a], warnings⟩] ∧ a.path = path ∧
      (EndsIn (Hook.events hooks) (laidOn base hooks) → a.status = .noop ∧
        t'.bytesAt (root ++ place) = t.bytesAt (root ++ place)) ∧
      (¬ EndsIn (Hook.events hooks) (laidOn base hooks) → a.status = .update) := by
  let w : Workplace := ⟨root, stamp⟩
  have hnames := h.wellFormed.isFileName (FileTree.bytesAt_eq_some_iff.mp h.bytesAt_eq)
  obtain ⟨hsaves, hshort⟩ := CanSave.of_load (w := w) hroot h.wellFormed h.load_eq
  have hsetting : Setting w [report] [] :=
    setting hroot hstamp.toIsProper hplace hout nofun hresult hfiles
  obtain ⟨a, warnings, hplan, rfl, hkind, ⟨bytes', hbytes'⟩, hstatus⟩ :=
    h.plan_again hroot hplace hhooks report.target
  have hfeasible : ∀ b ∈ [a], IsFeasible b := by
    refine forall_mem_singleton.mpr ⟨⟨place, hplace, fun name hname =>
      hnames name (mem_append_right _ hname)⟩, by simp [hkind], fun text htext => ?_⟩
    rw [htext, Option.bind_some] at hbytes'
    exact ⟨bytes', hbytes'⟩
  obtain ⟨e, he⟩ := exists_execute (w := w) (t := t)
    ⟨fun name hname => hnames name (mem_append_left _ hname), hstamp⟩ hfeasible
  obtain ⟨p, hrun, htree, hdone⟩ :=
    run_of_plan w (some m) [] hresult (hfiles ▸ hplan) he
  have hpaths : ∀ e ∈ m.files, w.IsListable e.path := by
    obtain ⟨checksum, hlisted⟩ := h.files_eq
    rw [hlisted, forall_mem_singleton]
    exact ⟨⟨place, hplace⟩, by rw [IsShort, w.location_eq hplace]; exact h.short⟩
  obtain ⟨build, t', -, hwrite, -, htargets, hchange⟩ :=
    hsetting.exists_write_of_run hsaves h.load_eq hpaths hshort hrun
  refine ⟨build, t', a, warnings, hwrite, by rw [htargets, hdone]; rfl, rfl, ?_, ?_⟩
  · intro hends
    obtain ⟨hnoop, -⟩ := hstatus.resolve_right fun hupdate => hupdate.2 hends
    refine ⟨hnoop, ?_⟩
    have hidle : w.perform t a = .unchanged t := by
      rw [Workplace.perform, hkind]
      exact if_pos hnoop
    have hresult : (w.perform t a).result = .ok false := by
      rw [hidle]
      rfl
    obtain ⟨e', he', hsame, -⟩ := execute_singleton hresult
    cases he.symm.trans he'
    rw [hchange.elsewhere (hout.ne_manifest root), htree, hsame, hidle]
    rfl
  · intro hnot
    exact (hstatus.resolve_left fun hnoop => hnot hnoop.2).1

end

section Write

variable {stamp : Text} {t' : FileTree} {build : BuildReport} (hroot : Path.AreProper root)
  (hplace : Path.Leads path place) (hout : Workplace.IsOutside place) (ht : t.WellFormed)
  (hnew : Manifest.load t root = .ok none)
  (hstored : t.storedJson (root ++ place) = .ok (.value (.obj base))) (hhooks : hooks ≠ [])
  (hresult : report.result = some result)
  (hfiles : result.files = [Hook.settingsFile path hooks]) (hstamp : Path.IsProper stamp)
  (hwrite : Workplace.write ⟨root, stamp⟩ t [report] [] = .ok (build, t'))
  (hok : build.ok = true)
include hroot hplace hout ht hnew hstored hhooks hresult hfiles hstamp hwrite hok

theorem exists_isBuilt : ∃ m bytes, IsBuilt root path place base hooks t' m bytes := by
  obtain ⟨hshort, bytes, -, hbase⟩ :=
    (ht.storedJson_eq_value_iff (hroot.append hplace.proper)).mp hstored
  have hspares : ManagedDirs.Spares [] root := nofun
  obtain ⟨left, bytes, m, checksum, hleft, hoverlay, hwell, hbytes, hwritten, hload, hlisted⟩ :=
    exists_of_write hroot hstamp hplace hout hspares hresult hfiles hhooks ht hnew
      ⟨nodup_nil, nofun, nofun⟩ nofun hstored hwrite hok
  obtain rfl : base = left := Except.ok.inj hleft
  exact ⟨m, bytes, hwell, hload, ⟨checksum, hlisted⟩, hshort, hbytes, hwritten,
    areReadable_iff.mpr hbase.isReadable, hoverlay⟩

/-- After a first build of some hooks a second one always returns. It finds the settings document up
to date, and leaves it alone, exactly if the events of the hooks are the last of those in the
document, and the hooks the last of its members unless they hold other events too. -/
theorem second_write_idle_iff_ends_in_events {stamp' : Text} (hstamp' : IsFileName stamp') :
    ∃ again t'' a warnings, Workplace.write ⟨root, stamp'⟩ t' [report] [] = .ok (again, t'') ∧
      again.targets.map (·.plan) = [some ⟨[a], warnings⟩] ∧ a.path = path ∧
      (Json.EndsIn (Hook.events hooks) (laidOn base hooks) → a.status = .noop ∧
        t''.bytesAt (root ++ place) = t'.bytesAt (root ++ place)) ∧
      (¬ Json.EndsIn (Hook.events hooks) (laidOn base hooks) → a.status = .update) := by
  obtain ⟨m, bytes, hbuilt⟩ :=
    exists_isBuilt hroot hplace hout ht hnew hstored hhooks hresult hfiles hstamp hwrite hok
  exact hbuilt.write_again hroot hplace hout hhooks hresult hfiles hstamp'

end Write

/-- Whether a stored document is an object that passes a check. -/
def isObjectWith (check : Members → Bool) : StoredJson → Bool
  | .value (.obj members) => check members
  | _ => false

theorem exists_object {check : Members → Bool}
    (h : checks (isObjectWith check) (t.storedJson location) = true) :
    ∃ members, t.storedJson location = .ok (.value (.obj members)) ∧ check members = true := by
  obtain ⟨stored, hstored, h⟩ := exists_of_checks h
  unfold isObjectWith at h
  split at h
  · exact ⟨_, hstored, h⟩
  · cases h

/-- Whether a document ends in the event of the shared target once its settings are laid over it. -/
def endsInShared (members : Members) : Bool :=
  EndsIn (Hook.events [⟨.preCommit, "x", "", none⟩]) (laidOn members [⟨.preCommit, "x", "", none⟩])

theorem second_write_idle_of_shared :
    ∃ build t' again t'' a warnings,
      sharedWorkplace.write sharedTree [sharedReport] [] = .ok (build, t') ∧
      sharedWorkplace.write t' [sharedReport] [] = .ok (again, t'') ∧
      again.targets.map (·.plan) = [some ⟨[a], warnings⟩] ∧ a.status = .noop ∧
      t''.bytesAt (sharedWorkplace.root ++ Profile.settingsNames) =
        t'.bytesAt (sharedWorkplace.root ++ Profile.settingsNames) := by
  have hchecked : Outcome.checks (isObjectWith endsInShared)
      (sharedTree.storedJson (sharedWorkplace.root ++ Profile.settingsNames)) = true := by
    decide +kernel
  obtain ⟨base, hstored, hends⟩ := exists_object hchecked
  obtain ⟨build, t', hwrite, hok⟩ := exists_sharedWrite sharedTree_canSave rfl (by decide +kernel)
  have hstamp : IsFileName sharedWorkplace.stamp := isFileName_of_isPlain (by decide +kernel)
  obtain ⟨again, t'', a, warnings, hagain, hplans, -, hidle, -⟩ :=
    second_write_idle_iff_ends_in_events (Path.areProper_of_isPlain (by decide +kernel))
      (Path.leads_of_isPlain (by decide +kernel)) (by decide) sharedTree_canSave.wellFormed rfl
      hstored (by simp) rfl rfl hstamp.toIsProper hwrite hok hstamp
  obtain ⟨hnoop, hsame⟩ := hidle (of_decide_eq_true hends)
  exact ⟨build, t', again, t'', a, warnings, hwrite, hagain, hplans, hnoop, hsame⟩

/-- A project whose settings begin with hooks, none yet. -/
def leadingHooksTree : FileTree :=
  let settings : Text := "\x7b\"hooks\": \x7b\x7d, \"a\": 1\x7d"
  ⟨[(["p", ".claude", "settings.json"], .ofText settings),
    (["p", ".claude"], .dir), (["p", ".agentrc"], .dir), (["p"], .dir)]⟩

/-- Hooks that stood before another key are found out of date right after they were written: taken
out they leave nothing behind, and come back at the end. -/
theorem second_write_moves_leading_hooks :
    ∃ build t' again t'' a warnings,
      sharedWorkplace.write leadingHooksTree [sharedReport] [] = .ok (build, t') ∧
      build.ok = true ∧
      sharedWorkplace.write t' [sharedReport] [] = .ok (again, t'') ∧
      again.targets.map (·.plan) = [some ⟨[a], warnings⟩] ∧ a.status = .update := by
  have hsaves : sharedWorkplace.CanSave leadingHooksTree :=
    ⟨FileTree.wellFormed_of_isPlain (by decide +kernel), by decide +kernel, by decide +kernel,
      by decide +kernel⟩
  have hchecked : Outcome.checks (isObjectWith fun members => !endsInShared members)
      (leadingHooksTree.storedJson (sharedWorkplace.root ++ Profile.settingsNames)) = true := by
    decide +kernel
  obtain ⟨base, hstored, hends⟩ := exists_object hchecked
  obtain ⟨build, t', hwrite, hok⟩ := exists_sharedWrite hsaves rfl (by decide +kernel)
  have hroot : Path.AreProper sharedWorkplace.root := Path.areProper_of_isPlain (by decide +kernel)
  have hplace : Path.Leads ".claude/settings.json" Profile.settingsNames :=
    Path.leads_of_isPlain (by decide +kernel)
  have hstamp : IsFileName sharedWorkplace.stamp := isFileName_of_isPlain (by decide +kernel)
  have hresult : sharedReport.result = some
      { files := [Hook.settingsFile ".claude/settings.json" [⟨.preCommit, "x", "", none⟩]] } := rfl
  obtain ⟨m, bytes, hbuilt⟩ := exists_isBuilt hroot hplace (by decide) hsaves.wellFormed rfl hstored
    (by simp) hresult rfl hstamp.toIsProper hwrite hok
  obtain ⟨again, t'', a, warnings, hagain, hplans, -, -, hupdate⟩ :=
    hbuilt.write_again hroot hplace (by decide) (by simp) hresult rfl hstamp
  rw [Bool.not_eq_true', endsInShared, decide_eq_false_iff_not] at hends
  exact ⟨build, t', again, t'', a, warnings, hwrite, hok, hagain, hplans, hupdate hends⟩

end HookBuilds

end AgentConfig
