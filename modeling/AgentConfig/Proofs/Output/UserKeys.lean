import AgentConfig.Proofs.Hook.Settings
import AgentConfig.Proofs.Output.History
import AgentConfig.Proofs.Output.Returns

namespace AgentConfig

open List Outcome FileTree Hook Json Manifest AgentConfig.Path Workplace

variable {m manifest : Manifest}

namespace Json

theorem joinedItems_map_str {texts : List Text} (h : ∀ text ∈ texts, joinHalves text = text) :
    joinedItems (texts.map .str) = texts.map .str := by
  rw [joinedItems_eq_map, map_map]
  exact map_congr_left fun text htext => congrArg Json.str (h text htext)

end Json

/-- Builds one after the other, each of which writes the settings of some hooks and succeeds. -/
inductive HookBuilds (root : List Text) (path : Text) :
    List (List Hook) → FileTree → FileTree → Prop
  | start (t : FileTree) : HookBuilds root path [] t t
  | next {builds : List (List Hook)} {hooks : List Hook} {t u t' : FileTree} {stamp : Text}
    {report : TargetReport} {result : Generated} {managed : ManagedDirs} {build : BuildReport}
    (h : HookBuilds root path builds t u) (hstamp : Path.IsProper stamp)
    (hmanaged : managed.Spares root) (hresult : report.result = some result)
    (hfiles : result.files = [settingsFile path hooks])
    (hwrite : Workplace.write ⟨root, stamp⟩ u [report] managed = .ok (build, t'))
    (hok : build.ok = true) : HookBuilds root path (builds ++ [hooks]) t t'

namespace HookBuilds

/-- A project whose settings document was `base` before some builds: of the events that these have
generated, those of the last are there, and the manifest lists them. -/
structure Carries (root : List Text) (path : Text) (place : List Text) (base : Members)
    (gone events : List Text) (t : FileTree) : Prop where
  wellFormed : t.WellFormed
  document : ∃ bytes members, t.bytesAt (root ++ place) = some bytes ∧
    IsStored bytes (.obj members) ∧ Json.Lists base gone events members
  manifest : ∃ m checksum, Manifest.load t root = .ok (some m) ∧
    m.files = [⟨path, checksum, some ((events.map eventPath).map .str)⟩]

section Build

variable {root gone : List Text} {path stamp other : Text} {place : List Text} {t t' : FileTree}
  {report : TargetReport} {result : Generated} {managed : ManagedDirs} {hooks : List Hook}
  {previous : Option Manifest} {p : Progress}

theorem setting (hroot : AreProper root) (hstamp : Path.IsProper stamp)
    (hplace : Leads path place) (hout : IsOutside place)
    (hmanaged : managed.Spares root) (hresult : report.result = some result)
    (hfiles : result.files = [settingsFile path hooks]) :
    Setting ⟨root, stamp⟩ [report] managed := by
  refine ⟨⟨hroot, hstamp⟩, ?_, hmanaged⟩
  intro other hother result' hresult' f hf
  obtain rfl := mem_singleton.mp hother
  cases hresult.symm.trans hresult'
  rw [hfiles] at hf
  obtain rfl := mem_singleton.mp hf
  exact ⟨place, hplace, hout⟩

section

variable (hsetting : Workplace.Setting ⟨root, stamp⟩ [report] managed) (ht : t.WellFormed)
  (hnoFile : t.bytesAt root = none)
  (hrun : Workplace.run ⟨root, stamp⟩ previous t [report] managed = .ok p)
  (hresult : report.result = some result) (hfiles : result.files = [Hook.settingsFile path hooks])
include hsetting ht hnoFile hrun hresult hfiles

theorem path_eq_of_wrote (hwrote : Action.Wrote p.completed other) : other = path := by
  obtain ⟨a, ha, hpersists, rfl⟩ := hwrote
  obtain ⟨report', q, plan, hplanned, ha⟩ := run_completed hrun a ha
  have hholds := hplanned.holds hsetting ht hnoFile
  obtain ⟨result', -, -, hresult', -, -, -, hall⟩ :=
    hsetting.plan_inv hplanned hholds.wellFormed hholds.root
  obtain rfl := mem_singleton.mp hplanned.mem
  cases hresult.symm.trans hresult'
  obtain ⟨names, -, hplans⟩ := hall a ha
  cases hplans with
  | write hf _ hplan =>
    rw [hfiles] at hf
    rw [hplan.path_eq, mem_singleton.mp hf]
    rfl
  | removal hplan => simp [hplan.kind_eq, ActionKind.persists] at hpersists

theorem files_eq (hprevious : (previous.getD {}).paths.Nodup)
    (hold : ∀ e ∈ (previous.getD {}).files, e.path = path) {a : Action}
    (hlast : Action.lastWrite? p.completed path = some a)
    (hmanifest : p.manifest root previous = .ok manifest) :
    ∃ checksum, manifest.files = [⟨path, checksum, a.ownedKeys.map (·.map .str)⟩] := by
  obtain ⟨htallies, hholds⟩ := holds_of_run hsetting ht hnoFile hrun
  obtain ⟨hnodup, hmem, -⟩ := hholds.manifest_inv hsetting.proper htallies hprevious hmanifest
  have hpath : ∀ e ∈ manifest.files, e.path = path := by
    intro e he
    rcases (hmem e).mp he with ⟨he, -⟩ | ⟨b, hb, -⟩
    · exact hold e he
    · refine path_eq_of_wrote hsetting ht hnoFile hrun hresult hfiles ?_
      rw [← Action.isSome_lastWrite?, hb]
      rfl
  obtain ⟨e, rfl, hentry⟩ := hholds.exists_entry hlast
  have hlisted : e ∈ manifest.files := (hmem e).mpr (.inr ⟨a, hlast, hentry⟩)
  have halone : manifest.files = [e] := by
    have hperm := inj_on_of_nodup_map hnodup
    refine perm_singleton.mp
      ((perm_ext_iff_of_nodup hnodup.of_map (nodup_singleton e)).mpr fun x => ?_)
    rw [mem_singleton]
    exact ⟨fun hx => hperm hx hlisted (hpath x hx), fun hx => hx ▸ hlisted⟩
  obtain ⟨names, bytes, -, -, -, -, hkeys⟩ := hentry
  exact ⟨e.checksum, by rw [halone, ← hkeys]⟩

end

section Write

variable (hroot : Path.AreProper root) (hstamp : Path.IsProper stamp)
  (hplace : Path.Leads path place) (hout : Workplace.IsOutside place)
  (hmanaged : managed.Spares root) (hresult : report.result = some result)
  (hfiles : result.files = [Hook.settingsFile path hooks]) (hhooks : hooks ≠ [])
  (ht : t.WellFormed) (hload : Manifest.load t root = .ok previous)
  (htidy : (previous.getD {}).IsTidy) (hold : ∀ e ∈ (previous.getD {}).files, e.path = path)
  {members : Json.Members} (hstored : t.storedJson (root ++ place) = .ok (.value (.obj members)))
  {build : BuildReport}
  (hwrite : Workplace.write ⟨root, stamp⟩ t [report] managed = .ok (build, t'))
  (hok : build.ok = true)
include hroot hstamp hplace hout hmanaged hresult hfiles hhooks ht hload htidy hold hstored hwrite
  hok

/-- One more build takes out the keys of the one before, lays its own over what is left, and lists
them. -/
theorem exists_of_write : ∃ left bytes m checksum,
      (PlanContext.mk root t (previous.getD {}) []).withoutOwned path members = .ok left ∧
      Json.overlay (.obj left) (joinedMembers (Hook.settings hooks)) =
        .ok (.obj (Json.merge left (joinedMembers (Hook.settings hooks)))) ∧ t'.WellFormed ∧
      t'.bytesAt (root ++ place) = some bytes ∧
      IsWritten bytes (.obj (Json.merge left (joinedMembers (Hook.settings hooks)))) ∧
      Manifest.load t' root = .ok (some m) ∧
      m.files = [⟨path, checksum, some (((Hook.events hooks).map eventPath).map .str)⟩] := by
  have hsetting := setting hroot hstamp hplace hout hmanaged hresult hfiles
  have hnoFile : t.bytesAt root = none := by
    obtain ⟨-, bytes, hbytes, -⟩ :=
      (ht.storedJson_eq_value_iff (hroot.append hplace.proper)).mp hstored
    exact bytesAt_of_dir
      (ht.get?_above hplace.ne_nil (bytesAt_eq_some_iff.mp hbytes))
  obtain ⟨previous', p, manifest, hload', hrun, hmanifest, hsave, hdone⟩ :=
    write_ok hwrite
  cases hload.symm.trans hload'
  have hdone : ∀ r ∈ p.done, r.ok = true := by
    rw [BuildReport.ok, hdone, all_eq_true] at hok
    exact hok
  obtain ⟨htallies, hholds⟩ := holds_of_run hsetting ht hnoFile hrun
  obtain ⟨a, overlay, left, stored, bytes, hplans, hlast, hbytes, hmerged⟩ :=
    run_settings hsetting ht hnoFile hrun hdone hresult
      (show result.files = [] ++ settingsFile path hooks :: [] from hfiles) (by simp) rfl
      (isPlain_settings hooks).isChars_write hplace hout
  obtain rfl : overlay = joinedMembers (Hook.settings hooks) :=
    Except.ok.inj (hplans.overlay_eq.symm.trans (overlayOf_settings hooks))
  have hfound : t.storedJson (join root path) = .ok stored := hplans.stored_eq
  rw [hplace.join_eq root, hstored] at hfound
  obtain rfl := Except.ok.inj hfound
  have hkeys : a.ownedKeys = some ((Hook.events hooks).map eventPath) := by
    rw [hplans.owned_eq, (isGenerated_settings hhooks).keyPaths_eq]
  have hchange : p.tree.ChangesAt t' (root ++ Manifest.names) := by
    have hsaved := hsetting.proper.save_changesAt hholds.wellFormed manifest
    rwa [hsave] at hsaved
  obtain ⟨checksum, hfile⟩ :=
    files_eq hsetting ht hnoFile hrun hresult hfiles htidy.distinct hold hlast hmanifest
  have hsaved := hholds.isTidy_manifest hsetting.proper htallies htidy hmanifest
  have hentry : ⟨path, checksum, a.ownedKeys.map (·.map .str)⟩ ∈ manifest.files := by
    rw [hfile]
    exact mem_cons_self
  refine ⟨left, bytes, manifest.joined, joinHalves checksum, hplans.base_eq,
    hplans.merged, hchange.wellFormed,
    (hchange.elsewhere (hout.ne_manifest root)).trans hbytes, hmerged,
    load_save hholds.wellFormed hroot hsaved.isStorable hsave, ?_⟩
  have hpath : joinHalves path = path := hsaved.path_joined hentry
  have htexts : ∀ text ∈ (Hook.events hooks).map eventPath, joinHalves text = text := by
    intro text htext
    obtain ⟨event, hevent, rfl⟩ := mem_map.mp htext
    exact joinHalves_eventPath event hevent
  rw [Manifest.joined, hfile, Manifest.sorted, mergeSort_singleton, map_singleton,
    ManifestEntry.joined, hpath, hkeys, Option.map_some, Option.map_some,
    joinedItems_map_str htexts]

/-- One more build takes out the events of the one before, and lays its own over what is left of the
document. -/
theorem carries_of_write {base : Members}
    (hbase : ∀ left, (PlanContext.mk root t (previous.getD {}) []).withoutOwned path members =
      .ok left → Lacks base gone left ∧ HasHookObject left) :
    Carries root path place base gone (Hook.events hooks) t' := by
  obtain ⟨left, bytes, m, checksum, hleft, -, hwell, hbytes, hmerged, hsaved, hlisted⟩ :=
    exists_of_write hroot hstamp hplace hout hmanaged hresult hfiles hhooks ht hload htidy hold
      hstored hwrite hok
  obtain ⟨hlacks, hobject⟩ := hbase left hleft
  exact ⟨hwell, ⟨bytes, _, hbytes, hmerged.isStored,
    hlacks.lists_merge hobject (isGenerated_settings hhooks)⟩, m, checksum, hsaved, hlisted⟩

end Write

end Build

section Builds

variable {root texts : List Text} {path checksum stamp : Text} {place : List Text}
  {base : Json.Members} {gone events : List Text} {t t' : FileTree}

theorem keyTexts_map_str (texts : List Text) :
    PlanContext.keyTexts (texts.map .str) = some texts := by
  unfold PlanContext.keyTexts
  induction texts with
  | nil => rfl
  | cons text texts ih => simp [mapM_cons, ih, Json.text?]

theorem withoutOwned_of_files {c : PlanContext}
    (hfiles : c.manifest.files = [⟨path, checksum, some (texts.map .str)⟩]) (members : Members) :
    c.withoutOwned path members = .ok (removePaths texts members).1 := by
  have hkeys : (c.manifest.get? path).bind (·.ownedKeys) = some (texts.map .str) := by
    simp [Manifest.get?, hfiles]
  rw [PlanContext.withoutOwned, hkeys]
  simp only [keyTexts_map_str]

theorem Carries.exists_members (h : Carries root path place base gone events t)
    (hevents : ∀ event ∈ events, IsEvent event) (hne : events ≠ []) :
    ∃ m bytes members rest, Manifest.load t root = .ok (some m) ∧ (∀ e ∈ m.files, e.path = path) ∧
      t.bytesAt (root ++ place) = some bytes ∧ IsStored bytes (.obj members) ∧
      (∀ c : PlanContext, c.manifest = m → c.withoutOwned path members = .ok rest) ∧
      Lacks base (gone ++ events) rest ∧ HasNoEmptyHooks rest := by
  obtain ⟨bytes, members, hbytes, hstored, hlists⟩ := h.document
  obtain ⟨m, checksum, hload, hfiles⟩ := h.manifest
  refine ⟨m, bytes, members, _, hload, by simp [hfiles], hbytes, hstored, ?_,
    hlists.lacks_removePaths hevents hne⟩
  intro c hc
  exact withoutOwned_of_files (hc ▸ hfiles) members

theorem Carries.isTidy (h : Carries root path place base gone events t) (hplace : Leads path place)
    (hout : IsOutside place) (hload : Manifest.load t root = .ok (some m)) : m.IsTidy := by
  obtain ⟨bytes, members, hbytes, -, -⟩ := h.document
  obtain ⟨m', checksum, hload', hfiles⟩ := h.manifest
  cases hload.symm.trans hload'
  have hnames : ∀ name ∈ place, IsFileName name := fun name hname =>
    h.wellFormed.isFileName (bytesAt_eq_some_iff.mp hbytes) name (mem_append_right _ hname)
  refine ⟨by simp [Manifest.paths, hfiles], ?_, ?_⟩
  · intro e he
    rw [hfiles] at he
    obtain rfl := mem_singleton.mp he
    exact ⟨place, hplace, hout, hnames⟩
  · intro e he keys hkeys v hv
    rw [hfiles] at he
    obtain rfl := mem_singleton.mp he
    obtain rfl := Option.some.inj hkeys
    obtain ⟨text, -, rfl⟩ := mem_map.mp hv
    exact ⟨text, rfl⟩

/-- After any number of builds the document is the user's, but for events that were generated, and
lists the events of the last build. -/
theorem carries (hroot : AreProper root) (hplace : Leads path place)
    (hout : IsOutside place) (ht : t.WellFormed)
    (hnew : Manifest.load t root = .ok none)
    (hstored : t.storedJson (root ++ place) = .ok (.value (.obj base)))
    (hbase : HasHookObject base) {builds : List (List Hook)}
    (hbuilds : HookBuilds root path builds t t') (hhooks : ∀ hooks ∈ builds, hooks ≠ []) :
    (builds = [] ∧ t' = t) ∨ ∃ gone hooks, hooks ≠ [] ∧
      gone ++ Hook.events hooks = builds.flatMap Hook.events ∧
      Carries root path place base gone (Hook.events hooks) t' := by
  have hproper := hroot.append hplace.proper
  obtain ⟨hshort, -⟩ := (ht.storedJson_eq_value_iff hproper).mp hstored
  induction hbuilds with
  | start t => exact .inl ⟨rfl, rfl⟩
  | @next builds hooks t u t' stamp report result managed build _ hstamp hmanaged hresult hfiles
      hwrite hok ih =>
    have hnow : hooks ≠ [] := hhooks hooks (by simp)
    refine .inr ?_
    rcases ih ht hnew hstored (fun hs h => hhooks hs (by simp [h])) with
      ⟨rfl, rfl⟩ | ⟨gone, last, hlast, hgone, hcarries⟩
    · refine ⟨[], hooks, hnow, by simp, ?_⟩
      refine carries_of_write hroot hstamp hplace hout hmanaged hresult hfiles hnow ht hnew
        ⟨nodup_nil, nofun, nofun⟩ nofun hstored hwrite hok ?_
      intro left hleft
      obtain rfl : base = left := Except.ok.inj hleft
      exact ⟨.refl base, hbase⟩
    · obtain ⟨m, bytes, members, rest, hload, hpaths, hbytes, hmembers, howned, hlacks, htidy⟩ :=
        hcarries.exists_members isEvent_of_mem_events (events_ne_nil hlast)
      refine ⟨gone ++ Hook.events last, hooks, hnow, by simp [hgone], ?_⟩
      refine carries_of_write hroot hstamp hplace hout hmanaged hresult hfiles hnow
        hcarries.wellFormed hload (hcarries.isTidy hplace hout hload) hpaths
        ((hcarries.wellFormed.storedJson_eq_value_iff hproper).mpr
          ⟨hshort, bytes, hbytes, hmembers⟩)
        hwrite hok ?_
      intro left hleft
      obtain rfl : rest = left := Except.ok.inj ((howned _ rfl).symm.trans hleft)
      exact ⟨hlacks, htidy.hasHookObject⟩

theorem Carries.exists_planRemoval (h : Carries root path place base gone events t)
    (hplace : Leads path place) (hshort : ¬ IsTooLong (root ++ place)) :
    ∃ m a, Manifest.load t root = .ok (some m) ∧ m.planRemoval t root = .ok { actions := [a] } ∧
      a.kind = .removeKeys ∧ a.path = path ∧ a.ownedKeys = some (events.map eventPath) := by
  obtain ⟨bytes, members, hbytes, -, -⟩ := h.document
  obtain ⟨m, checksum, hload, hfiles⟩ := h.manifest
  have hthere := h.wellFormed.exists?_eq_true hshort (bytesAt_eq_some_iff.mp hbytes)
  have hentry : ∃ a, ManifestEntry.planRemoval
      ⟨path, checksum, some ((events.map eventPath).map .str)⟩ t root = .ok (some a) ∧
      a.kind = .removeKeys ∧ a.path = path ∧ a.ownedKeys = some (events.map eventPath) := by
    unfold ManifestEntry.planRemoval
    simp only [hplace.join_eq, hthere, keyTexts_map_str]
    exact ⟨_, rfl, rfl, rfl, rfl⟩
  obtain ⟨a, haction, ha⟩ := hentry
  refine ⟨m, a, hload, ?_, ha⟩
  unfold planRemoval
  rw [hfiles]
  exact bind_eq_ok.mpr ⟨[some a], mapM_eq_ok.mpr (.cons haction .nil), rfl⟩

/-- A clean takes the events of the last build out of the document, and removes a file that is left
empty. -/
theorem Carries.clean (h : Carries root path place base gone events t)
    (hevents : ∀ event ∈ events, IsEvent event) (hne : events ≠ []) (hroot : AreProper root)
    (hplace : Leads path place) (hout : IsOutside place) (hshort : ¬ IsTooLong (root ++ place))
    (hstamp : Path.IsProper stamp) :
    ∃ removed t', Workplace.clean ⟨root, stamp⟩ t = .ok (removed, t') ∧ t'.WellFormed ∧
      ∃ rest, Lacks base (gone ++ events) rest ∧ HasNoEmptyHooks rest ∧
        ((rest = [] ∧ t'.bytesAt (root ++ place) = none) ∨
          (rest ≠ [] ∧ ∃ left, t'.bytesAt (root ++ place) = some left ∧
            IsStored left (.obj rest))) := by
  have hw : Workplace.IsProper ⟨root, stamp⟩ := ⟨hroot, hstamp⟩
  obtain ⟨bytes, members, hbytes, hstored, hlists⟩ := h.document
  obtain ⟨m, a, hload, hplan, hkind, rfl, hkeys⟩ := h.exists_planRemoval hplace hshort
  obtain ⟨⟨changed, hresult⟩, hleft⟩ :=
    performKeyRemoval_completed hw h.wellFormed hplace hbytes hstored hshort
  have hperform : Workplace.perform ⟨root, stamp⟩ t a =
      performKeyRemoval ⟨root, stamp⟩ t a := by
    rw [Workplace.perform, hkind]
  obtain ⟨e, he, htree, hfailures⟩ := execute_singleton (hperform ▸ hresult)
  have hchange := performKeyRemoval_changesAt hw h.wellFormed hplace
  rw [← hperform, ← htree] at hchange hleft
  -- The manifest is as it was, and so it is there to be deleted.
  obtain ⟨listed, hentry⟩ := entry?_of_load hload
  have hnames := hroot.append areProper_names
  obtain ⟨hget, hmanifestShort⟩ := (h.wellFormed.entry?_eq_some_iff hnames).mp hentry
  have hlisted : e.tree.bytesAt (root ++ Manifest.names) = some listed := by
    rw [hchange.elsewhere (hout.ne_manifest root).symm]
    exact bytesAt_eq_some_iff.mpr hget
  have hdelete := delete_eq hchange.wellFormed hmanifestShort hlisted
  have hdeleted := delete_changesAt hchange.wellFormed hroot hdelete
  refine ⟨some (e.completed.map (·.path)), _, ?_, hdeleted.wellFormed, ?_⟩
  · simp only [Workplace.clean, hload, hplan, he, hfailures, hdelete, Failure.orHalt,
      Except.mapError, bind, Except.bind, isEmpty_nil, if_true]
    rfl
  · rw [hkeys, Option.getD_some] at hleft
    obtain ⟨hlacks, htidy⟩ := hlists.lacks_removePaths hevents hne
    refine ⟨_, hlacks, htidy, ?_⟩
    rwa [hdeleted.elsewhere (hout.ne_manifest root)]

/-- The user's keys survive any number of builds and the clean at the end, which takes out what the
builds have generated and nothing else. -/
theorem user_keys_survive_builds_and_clean (hroot : Path.AreProper root)
    (hplace : Path.Leads path place) (hout : Workplace.IsOutside place) (ht : t.WellFormed)
    (hnew : Manifest.load t root = .ok none) {user : Json.Members}
    (hstored : t.storedJson (root ++ place) = .ok (.value (.obj user)))
    (huser : Json.HasHookObject user) {builds : List (List Hook)} (hne : builds ≠ [])
    (hhooks : ∀ hooks ∈ builds, hooks ≠ []) (hbuilds : HookBuilds root path builds t t')
    {stamp : Text} (hstamp : Path.IsProper stamp) :
    ∃ removed t'', Workplace.clean ⟨root, stamp⟩ t' = .ok (removed, t'') ∧
      ∃ rest : Json.Members,
        (∀ key, key ≠ Json.hooksKey → rest.get? key = user.get? key) ∧
        (∀ event, (Json.hooksOf rest).get? event =
          if event ∈ builds.flatMap Hook.events then none else (Json.hooksOf user).get? event) ∧
        (rest.get? Json.hooksKey = none ∨
          ∃ hooks, hooks ≠ [] ∧ rest.get? Json.hooksKey = some (.obj hooks)) ∧
        (t''.bytesAt (root ++ place) = none ↔ rest = []) ∧
        (rest ≠ [] → t''.storedJson (root ++ place) = .ok (.value (.obj rest))) := by
  have hproper := hroot.append hplace.proper
  obtain ⟨hshort, -⟩ := (ht.storedJson_eq_value_iff hproper).mp hstored
  obtain ⟨gone, hooks, hlast, hgone, hcarries⟩ :=
    (carries hroot hplace hout ht hnew hstored huser hbuilds hhooks).resolve_left
      fun h => hne h.1
  obtain ⟨removed, t'', hclean, hwell, rest, hlacks, htidy, hfile⟩ :=
    hcarries.clean Hook.isEvent_of_mem_events (Hook.events_ne_nil hlast) hroot hplace hout hshort
      hstamp
  rw [hgone] at hlacks
  refine ⟨removed, t'', hclean, rest, hlacks.others, hlacks.hooks, htidy, ?_, ?_⟩
  · rcases hfile with ⟨hnil, hnone⟩ | ⟨hrest, left, hleft, -⟩
    · exact ⟨fun _ => hnil, fun _ => hnone⟩
    · exact iff_of_false (by simp [hleft]) hrest
  · intro hrest
    obtain ⟨-, left, hleft, hleftStored⟩ := hfile.resolve_left fun h => hrest h.1
    exact (hwell.storedJson_eq_value_iff hproper).mpr ⟨hshort, left, hleft, hleftStored⟩

end Builds

/-- A project with settings of the user's own, among them hooks of two events. -/
def sharedTree : FileTree :=
  let settings : Text := "\x7b\"m\": 1, \"hooks\": \x7b\"Stop\": [], \"Notification\": [1]\x7d\x7d"
  ⟨[(["p", ".claude", "settings.json"], .ofText settings),
    (["p", ".claude"], .dir), (["p", ".agentrc"], .dir), (["p"], .dir)]⟩

@[inherit_doc sharedTree]
def sharedWorkplace : Workplace := ⟨["p"], "S"⟩

/-- A target with the settings of a hook that replaces one of the two events. -/
def sharedReport : TargetReport :=
  { target := "t"
    result := some
      { files := [settingsFile ".claude/settings.json" [⟨.preCommit, "x", "", none⟩]] } }

/-- Whether a file holds an object with an object of hooks. -/
def holdsHooks : StoredJson → Bool
  | .value (.obj members) =>
    match Members.get? hooksKey members with
    | some (.obj _) => true
    | _ => false
  | _ => false

private theorem exists_user : ∃ user : Members, HasHookObject user ∧
    sharedTree.storedJson (sharedWorkplace.root ++ Profile.settingsNames) =
      .ok (.value (.obj user)) := by
  have h : checks holdsHooks
      (sharedTree.storedJson (sharedWorkplace.root ++ Profile.settingsNames)) = true := by
    decide +kernel
  obtain ⟨stored, hstored, h⟩ := exists_of_checks h
  unfold holdsHooks at h
  split at h
  · rename_i members
    refine ⟨members, ?_, hstored⟩
    split at h
    · exact .inr ⟨_, by assumption⟩
    · cases h
  · cases h

theorem exists_sharedWrite {t : FileTree} (hsaves : sharedWorkplace.CanSave t)
    (hload : Manifest.load t sharedWorkplace.root = .ok none)
    (hrun : checks (fun p => p.done.all (·.ok))
      (sharedWorkplace.run none t [sharedReport] []) = true) :
    ∃ build t', sharedWorkplace.write t [sharedReport] [] = .ok (build, t') ∧ build.ok = true := by
  have hspares : ManagedDirs.Spares [] sharedWorkplace.root := nofun
  have hplace : Leads ".claude/settings.json" Profile.settingsNames :=
    leads_of_isPlain (by decide +kernel)
  have hsetting : Setting sharedWorkplace [sharedReport] [] :=
    setting (areProper_of_isPlain (by decide +kernel))
      (isFileName_of_isPlain (by decide +kernel)).toIsProper hplace (by decide) hspares rfl rfl
  obtain ⟨p, hrun, hok⟩ := exists_of_checks hrun
  obtain ⟨build, t', -, hwrite, -, htargets, -⟩ :=
    hsetting.exists_write_of_run hsaves hload nofun (by decide +kernel) hrun
  exact ⟨build, t', hwrite, by rw [BuildReport.ok, htargets]; exact hok⟩

theorem sharedTree_canSave : sharedWorkplace.CanSave sharedTree where
  wellFormed := wellFormed_of_isPlain (by decide +kernel)
  root := by decide +kernel
  source := by decide +kernel
  free := by decide +kernel

private theorem exists_builds : ∃ t', HookBuilds sharedWorkplace.root ".claude/settings.json"
    [[⟨.preCommit, "x", "", none⟩]] sharedTree t' := by
  obtain ⟨build, t', hwrite, hok⟩ := exists_sharedWrite sharedTree_canSave rfl (by decide +kernel)
  have hspares : ManagedDirs.Spares [] sharedWorkplace.root := nofun
  exact ⟨t', next (start sharedTree) (isFileName_of_isPlain (by decide +kernel)).toIsProper hspares
    rfl rfl hwrite hok⟩

theorem user_keys_survive_builds_and_clean_of_shared :
    ∃ (user : Json.Members) (t' : FileTree),
      sharedTree.storedJson (sharedWorkplace.root ++ Profile.settingsNames) =
        .ok (.value (.obj user)) ∧
      HookBuilds sharedWorkplace.root ".claude/settings.json" [[⟨.preCommit, "x", "", none⟩]]
        sharedTree t' ∧
      ∃ removed t'', sharedWorkplace.clean t' = .ok (removed, t'') ∧ ∃ rest : Json.Members,
        (∀ key, key ≠ Json.hooksKey → rest.get? key = user.get? key) ∧
        (rest ≠ [] → t''.storedJson (sharedWorkplace.root ++ Profile.settingsNames) =
          .ok (.value (.obj rest))) := by
  obtain ⟨user, huser, hstored⟩ := exists_user
  obtain ⟨t', hbuilds⟩ := exists_builds
  have hstamp : Path.IsProper sharedWorkplace.stamp :=
    (isFileName_of_isPlain (by decide +kernel)).toIsProper
  obtain ⟨removed, t'', hclean, rest, hothers, -, -, -, hrest⟩ :=
    user_keys_survive_builds_and_clean (Path.areProper_of_isPlain (by decide +kernel))
      (Path.leads_of_isPlain (by decide +kernel)) (by decide)
      (FileTree.wellFormed_of_isPlain (by decide +kernel)) rfl hstored huser (by simp) (by simp)
      hbuilds hstamp
  exact ⟨user, t', hstored, hbuilds, removed, t'', hclean, rest, hothers, hrest⟩

end HookBuilds

end AgentConfig
