import AgentConfig.Proofs.Output.Returns

namespace AgentConfig

open List Outcome Json ManifestEntry

variable {m : Manifest} {e : ManifestEntry}

structure ManifestEntry.IsSpelled (e : ManifestEntry) : Prop where
  path : e.path.IsChars
  checksum : e.checksum.IsChars
  keys : ∀ keys ∈ e.ownedKeys, ∀ v ∈ keys, ∃ s : Text, s.IsChars ∧ v = .str s

theorem ManifestEntry.IsSpelled.isStorable (h : e.IsSpelled) : e.IsStorable :=
  HasTextKeys.isStorable fun keys hkeys v hv => (h.keys keys hkeys v hv).imp fun _ hs => hs.2

theorem ManifestEntry.IsSpelled.joined_eq (h : e.IsSpelled) : e.joined = e := by
  obtain ⟨path, checksum, keys⟩ := e
  have hkeys : keys.map joinedItems = keys := by
    cases keys with
    | none => rfl
    | some keys =>
      have hreadable : IsReadable (.arr keys) := by
        refine .arr fun v hv => ?_
        obtain ⟨s, hs, rfl⟩ := h.keys keys rfl v hv
        exact .str (isJoined_of_isChars hs)
      exact congrArg some (Json.arr.inj hreadable.joined_eq)
  rw [joined, hkeys, (isJoined_of_isChars h.path).joinHalves_eq,
    (isJoined_of_isChars h.checksum).joinHalves_eq]

namespace Manifest

structure IsSpelled (m : Manifest) : Prop where
  version : m.version.IsChars
  files : ∀ e ∈ m.files, e.IsSpelled

theorem IsSpelled.joined_eq (h : m.IsSpelled) : m.joined = ⟨m.version, sorted m.files⟩ := by
  have hfiles : (sorted m.files).map ManifestEntry.joined = (sorted m.files).map id :=
    map_congr_left fun e he => (h.files e (mem_mergeSort.mp he)).joined_eq
  rw [map_id] at hfiles
  rw [joined, hfiles, (isJoined_of_isChars h.version).joinHalves_eq]

theorem filter_path_sorted (files : List ManifestEntry) (path : Text) :
    (sorted files).filter (·.path == path) = files.filter (·.path == path) := by
  apply filter_mergeSort
  · exact fun _ _ _ => Text.le_trans
  · exact fun _ _ => Text.le_total _ _
  · intro a b ha hb
    rw [beq_iff_eq.mp ha, beq_iff_eq.mp hb]
    simpa using Text.le_total path path

end Manifest

/-- A manifest that can be saved is loaded with the same version and with its entries stably sorted
by path, answers for every path as before, and is saved again without a change to any file. -/
theorem Workplace.CanSave.saved_manifest_comes_back {w : Workplace} {t : FileTree} {m : Manifest}
    (hsave : w.CanSave t) (hshort : ¬ FileTree.IsTooLong (w.root ++ Manifest.names))
    (hm : m.IsSpelled) :
    ∃ t' loaded, m.save t w.root = .ok t' ∧ Manifest.load t' w.root = .ok (some loaded) ∧
      loaded.version = m.version ∧ loaded.files.Perm m.files ∧
      loaded.files.Pairwise (fun a b => Text.le a.path b.path = true) ∧
      (∀ path, loaded.files.filter (·.path == path) = m.files.filter (·.path == path)) ∧
      (∀ path, loaded.get? path = m.get? path) ∧
      ∃ t'', loaded.save t' w.root = .ok t'' ∧
        ∀ location, t''.get? location = t'.get? location := by
  have hstorable : ∀ e ∈ m.files, e.IsStorable := fun e he => (hm.files e he).isStorable
  have hroot : Path.AreProper w.root := hsave.wellFormed.areProper hsave.root
  obtain ⟨t', hsaved⟩ := hsave.exists_save hshort hstorable
  have hload := Manifest.load_save hsave.wellFormed hroot hstorable hsaved
  rw [hm.joined_eq] at hload
  refine ⟨t', _, hsaved, hload, rfl, mergeSort_perm _ _, Manifest.pairwise_path_sorted _,
    Manifest.filter_path_sorted _, fun path => ?_, ?_⟩
  · rw [Manifest.get?, Manifest.get?, ← List.head?_filter, Manifest.filter_path_sorted,
      List.head?_filter]
  · have hpath : Path.AreProper (w.root ++ Manifest.names) := hroot.append Manifest.areProper_names
    have hwrite := mapError_eq_ok.mp hsaved
    rw [Manifest.location_eq] at hwrite
    obtain ⟨bytes, hbytes, hleft⟩ := FileTree.write_inv hsave.wellFormed hpath hwrite
    have ht' : t'.WellFormed := by
      have hchange := FileTree.write_changesAt hsave.wellFormed hpath (Json.write m.toJson)
      rw [hwrite] at hchange
      exact hchange.wellFormed
    have hagain : Manifest.sorted (Manifest.sorted m.files) = Manifest.sorted m.files :=
      mergeSort_of_pairwise (Manifest.pairwise_path_sorted _)
    obtain ⟨t'', hwritten, hsame⟩ := ht'.write_same hshort hleft hbytes
    refine ⟨t'', mapError_eq_ok.mpr ?_, hsame⟩
    rw [Manifest.location_eq, Manifest.toJson, hagain]
    exact hwritten

/-- Entries out of order, two of them for one path, with keys, without and with none. -/
theorem saved_manifest_comes_back_unordered :
    let m : Manifest := ⟨"é", [⟨"b", "1", none⟩, ⟨"a", "2", some []⟩, ⟨"a", "3", some [.str "k"]⟩]⟩
    m.IsSpelled ∧ Workplace.CanSave ⟨["p"], "S"⟩ Workplace.emptyTree ∧
      ∃ t' loaded, m.save Workplace.emptyTree ["p"] = .ok t' ∧
        Manifest.load t' ["p"] = .ok (some loaded) ∧ loaded.files.Perm m.files ∧
        ∀ path, loaded.get? path = m.get? path := by
  intro m
  have hm : m.IsSpelled := by
    refine ⟨Text.isChars_ofString _, ?_⟩
    simp only [m, forall_mem_cons]
    refine ⟨⟨Text.isChars_ofString _, Text.isChars_ofString _, nofun⟩,
      ⟨Text.isChars_ofString _, Text.isChars_ofString _, by simp⟩,
      ⟨Text.isChars_ofString _, Text.isChars_ofString _, ?_⟩, nofun⟩
    simpa using Text.isChars_ofString "k"
  have hsave : Workplace.CanSave ⟨["p"], "S"⟩ Workplace.emptyTree :=
    ⟨FileTree.wellFormed_of_isPlain (by decide +kernel), rfl, rfl, by decide +kernel⟩
  obtain ⟨t', loaded, hsaved, hloaded, -, hperm, -, -, hget, -⟩ :=
    hsave.saved_manifest_comes_back (by decide) hm
  exact ⟨hm, hsave, t', loaded, hsaved, hloaded, hperm, hget⟩

namespace Json

/-- A document that is walked through as a list. -/
def IsListed : Json → Prop
  | .arr _ | .str _ | .obj _ => True
  | _ => False

/-- A manifest lists an object with a path. -/
def ListsEntry (v : Json) (entry : Members) : Prop :=
  ∃ members items, v = .obj members ∧ Members.get? "files" members = some (.arr items) ∧
    .obj entry ∈ items ∧ entry.get? "path" ≠ none

/-- What must be lists in a manifest can be walked through. -/
structure FitsManifest (v : Json) : Prop where
  files : ∀ members files, v = .obj members → Members.get? "files" members = some files →
    files.IsListed
  keys : ∀ entry, v.ListsEntry entry → ∀ keys, entry.get? "owned_keys" = some keys →
    keys = .null ∨ keys.IsListed

/-- The keys in the lists of a manifest are texts. -/
def HasTextKeys (v : Json) : Prop :=
  ∀ entry, v.ListsEntry entry → ∀ keys, entry.get? "owned_keys" = some (.arr keys) →
    ∀ key ∈ keys, ∃ s, key = .str s

end Json

namespace ManifestEntry

variable {entry : Json.Members} {v : Json}

theorem exists_itemsOf_iff : (∃ items, itemsOf v = .ok items) ↔ v.IsListed := by
  cases v <;> simp [itemsOf, IsListed]

theorem exists_keysIn_iff : (∃ keys, keysIn entry = .ok keys) ↔
      ∀ keys, entry.get? "owned_keys" = some keys → keys = .null ∨ keys.IsListed := by
  unfold keysIn
  cases entry.get? "owned_keys" with
  | none => simp
  | some keys => cases keys <;> simp [itemsOf, IsListed, Functor.map, Except.map]

theorem exists_ofMembers_iff : (∃ found, ofMembers entry = .ok found) ↔
      (entry.get? "path" ≠ none → ∃ keys, keysIn entry = .ok keys) := by
  simp only [ofMembers_eq_ok]
  cases entry.get? "path" <;> simp

theorem hasTextKeys_iff (h : keysIn entry = .ok e.ownedKeys) : e.HasTextKeys ↔
      ∀ keys, entry.get? "owned_keys" = some (.arr keys) → ∀ key ∈ keys, ∃ s, key = .str s := by
  unfold HasTextKeys
  unfold keysIn at h
  cases hkeys : entry.get? "owned_keys" with
  | none =>
    rw [hkeys] at h
    simp [← Except.ok.inj h]
  | some keys =>
    rw [hkeys] at h
    cases keys <;> cases h' : e.ownedKeys <;> rw [h'] at h <;> cases h <;>
      simp +contextual [eq_comm]

end ManifestEntry

namespace Manifest

variable {items : List Json} {files : List ManifestEntry}

theorem exists_entriesOf_iff : (∃ files, entriesOf items = .ok files) ↔
      ∀ entry, .obj entry ∈ items → ∃ found, ofMembers entry = .ok found := by
  induction items with
  | nil => simp [entriesOf]
  | cons item items ih =>
    cases item with
    | obj members =>
      constructor
      · rintro ⟨files, h⟩ entry hentry
        obtain ⟨first, hfirst, h⟩ := bind_eq_ok.mp h
        obtain ⟨rest, hrest, -⟩ := bind_eq_ok.mp h
        rcases mem_cons.mp hentry with heq | hentry
        · exact ⟨first, Json.obj.inj heq ▸ hfirst⟩
        · exact ih.mp ⟨rest, hrest⟩ entry hentry
      · intro h
        obtain ⟨first, hfirst⟩ := h members mem_cons_self
        obtain ⟨rest, hrest⟩ := ih.mpr fun entry hentry => h entry (mem_cons_of_mem _ hentry)
        exact ⟨_, bind_eq_ok.mpr ⟨first, hfirst, bind_eq_ok.mpr ⟨rest, hrest, rfl⟩⟩⟩
    | _ => simpa [entriesOf] using ih

theorem listsEntry_iff {members entry : Members}
    (h : itemsOf ((members.get? "files").getD (.arr [])) = .ok items) :
    (Json.obj members).ListsEntry entry ↔ .obj entry ∈ items ∧ entry.get? "path" ≠ none := by
  constructor
  · rintro ⟨_, vs, ⟨rfl⟩, hget, hentry⟩
    rw [hget] at h
    cases h
    exact hentry
  · intro hentry
    cases hget : members.get? "files" with
    | none =>
      rw [hget] at h
      cases h
      cases hentry.1
    | some found =>
      rw [hget] at h
      cases found <;> cases h
      case arr.refl => exact ⟨members, _, rfl, hget, hentry⟩
      all_goals simp at hentry

variable {v : Json}

theorem exists_ofJson_iff : (∃ previous, ofJson v = .ok previous) ↔ v.FitsManifest := by
  cases v with
  | obj members =>
    simp only [ofJson_obj_eq_ok]
    constructor
    · rintro ⟨_, items, files, hitems, hfiles, -⟩
      refine ⟨?_, fun entry hentry => ?_⟩
      · rintro _ found ⟨rfl⟩ hget
        rw [hget] at hitems
        exact exists_itemsOf_iff.mp ⟨items, hitems⟩
      · obtain ⟨hmem, hpath⟩ := (listsEntry_iff hitems).mp hentry
        have hread := exists_entriesOf_iff.mp ⟨files, hfiles⟩ entry hmem
        exact exists_keysIn_iff.mp (exists_ofMembers_iff.mp hread hpath)
    · intro h
      have hlisted : ((Members.get? "files" members).getD (.arr [])).IsListed := by
        cases hget : Members.get? "files" members with
        | none => trivial
        | some found => exact h.files members found rfl hget
      obtain ⟨items, hitems⟩ := exists_itemsOf_iff.mpr hlisted
      obtain ⟨files, hfiles⟩ : ∃ files, entriesOf items = .ok files := by
        refine exists_entriesOf_iff.mpr fun entry hentry => ?_
        refine exists_ofMembers_iff.mpr fun hpath => ?_
        have hlisted := (listsEntry_iff hitems).mpr ⟨hentry, hpath⟩
        exact exists_keysIn_iff.mpr (h.keys entry hlisted)
      exact ⟨_, items, files, hitems, hfiles, rfl⟩
  | _ => exact ⟨fun _ => ⟨nofun, nofun⟩, fun _ => ⟨none, rfl⟩⟩

theorem hasTextKeys_iff_of_ofJson {previous : Option Manifest} (h : ofJson v = .ok previous) :
    (∀ e ∈ (previous.getD {}).files, e.HasTextKeys) ↔ v.HasTextKeys := by
  cases v with
  | obj members =>
    obtain ⟨items, files, hitems, hfiles, rfl⟩ := ofJson_obj_eq_ok.mp h
    constructor
    · intro htexts entry hentry
      obtain ⟨hmem, hpath⟩ := (listsEntry_iff hitems).mp hentry
      obtain ⟨found, hfound⟩ := exists_entriesOf_iff.mp ⟨files, hfiles⟩ entry hmem
      obtain ⟨hnone, -⟩ | ⟨path, keys, -, hkeys, rfl⟩ := ofMembers_eq_ok.mp hfound
      · exact absurd hnone hpath
      · have he := htexts _ ((mem_entriesOf_iff hfiles).mpr ⟨entry, hmem, hfound⟩)
        exact (hasTextKeys_iff hkeys).mp he
    · intro htexts e he
      obtain ⟨entry, hmem, hfound⟩ := (mem_entriesOf_iff hfiles).mp he
      obtain ⟨-, hnone⟩ | ⟨path, keys, hpath, hkeys, heq⟩ := ofMembers_eq_ok.mp hfound
      · cases hnone
      · cases heq
        have hlisted := (listsEntry_iff hitems).mpr ⟨hmem, by simp [hpath]⟩
        exact (hasTextKeys_iff hkeys).mpr (htexts entry hlisted)
  | _ =>
    cases h
    exact ⟨fun _ => nofun, fun _ => nofun⟩

theorem planRemoval_failsOnly (h : ∀ e ∈ m.files, e.HasTextKeys) (t : FileTree)
    (root : List Text) : FailsOnly PlanContext.OfPlanning (m.planRemoval t root) := by
  refine (FailsOnly.mapM fun e he => ?_).bind fun _ _ => .ok _
  refine (PlanContext.atPath_failsOnly _ _).bind fun found _ => ?_
  split
  · exact .ok _
  split
  · exact .ok _
  rename_i keys hkeys
  obtain ⟨texts, htexts⟩ := PlanContext.exists_keyTexts (h e he) hkeys
  rw [htexts]
  exact .ok _

/-- The bytes of a text that has too many levels to be read. -/
def IsTooDeep (bytes : ByteArray) : Prop :=
  ∃ text e, Text.readText bytes = .ok text ∧ Json.read text = .error e ∧ e.isMalformed = false

section Files

variable {t : FileTree} {root : List Text} {bytes : ByteArray} (ht : t.WellFormed)
  (hroot : Path.AreProper root) (hshort : ¬ FileTree.IsTooLong (root ++ names))
  (hbytes : t.bytesAt (root ++ names) = some bytes)
include ht hroot hshort hbytes

theorem load_cases : (∃ v : Json, (∀ u : Json, u.IsStored bytes ↔ u = v) ∧ ¬ IsTooDeep bytes ∧
        load t root = ofJson v) ∨
      (∀ u : Json, ¬ u.IsStored bytes) ∧
        ((IsTooDeep bytes ∧ ∃ failure, load t root = .error failure) ∨
          ¬ IsTooDeep bytes ∧ load t root = .ok none) := by
  have hentry : t.entry? (root ++ names) = .ok (some (.file bytes)) :=
    (ht.entry?_eq_some_iff (hroot.append areProper_names)).mpr
      ⟨FileTree.bytesAt_eq_some_iff.mp hbytes, hshort⟩
  unfold load FileTree.storedJson IsStored IsTooDeep
  rw [location_eq, hentry]
  by_cases hsize : bytes.size = 0
  · obtain rfl := ByteArray.size_eq_zero_iff.mp hsize
    refine .inr ⟨?_, .inr ⟨?_, rfl⟩⟩
    · rintro u ⟨text, ⟨rfl⟩, hread⟩
      cases hread
    · rintro ⟨text, e, ⟨rfl⟩, ⟨rfl⟩, hdeep⟩
      cases hdeep
  · simp only [Failure.atPath, Except.mapError, bind, Except.bind, hsize, if_false]
    cases Text.readText bytes with
    | error e => simp [pure, Except.pure]
    | ok text =>
      dsimp only
      cases hread : Json.read text with
      | ok v => exact .inl ⟨v, fun u => by simp [hread, eq_comm], by simp [hread], rfl⟩
      | error e =>
        refine .inr ⟨by simp [hread], ?_⟩
        dsimp only
        cases hmalformed : e.isMalformed with
        | false => exact .inl ⟨⟨text, e, rfl, hread, hmalformed⟩, .json text e, rfl⟩
        | true => exact .inr ⟨by simp [hread, hmalformed], rfl⟩

/-- A manifest file of any content is loaded, or passed over, if it is not nested too deeply and has
lists where lists must be. If the keys in these lists are texts, so are those of the entries, and
then neither planning nor cleaning fails because of them. -/
theorem load_returns_iff_fits : ((∃ previous, load t root = .ok previous) ↔
      ¬ IsTooDeep bytes ∧ ∀ v : Json, v.IsStored bytes → v.FitsManifest) ∧
    ∀ previous, load t root = .ok previous → ((∀ e ∈ (previous.getD {}).files, e.HasTextKeys) ↔
        ∀ v : Json, v.IsStored bytes → v.HasTextKeys) ∧
      ((∀ e ∈ (previous.getD {}).files, e.HasTextKeys) →
        (∀ (c : PlanContext) (target : Text) (files : List OutputFile) (dirs : List Text),
          c.manifest = previous.getD {} →
          (∀ f ∈ files, f.ownership = .sharedKeys → PlanContext.IsObjectIfJson f.content) →
          FailsOnly PlanContext.OfPlanning (c.plan target files dirs)) ∧
        ∀ u place, FailsOnly PlanContext.OfPlanning ((previous.getD {}).planRemoval u place)) := by
  refine ⟨?_, fun previous hprevious => ⟨?_, fun htexts => ⟨?_, fun u place => ?_⟩⟩⟩
  · rcases load_cases ht hroot hshort hbytes with
      ⟨v, hstored, hdeep, hload⟩ | ⟨hnone, ⟨hdeep, failure, hload⟩ | ⟨hdeep, hload⟩⟩ <;> rw [hload]
    · simpa [hstored, hdeep] using exists_ofJson_iff
    · simp [hdeep]
    · simp [hdeep, hnone]
  · rcases load_cases ht hroot hshort hbytes with
      ⟨v, hstored, -, hload⟩ | ⟨hnone, ⟨-, failure, hload⟩ | ⟨-, hload⟩⟩ <;> rw [hload] at hprevious
    · simpa [hstored] using hasTextKeys_iff_of_ofJson hprevious
    · cases hprevious
    · cases hprevious
      simp [hnone]
  · intro c target files dirs hmanifest hcontents
    exact PlanContext.plan_failsOnly (hmanifest ▸ htexts) hcontents dirs
  · exact planRemoval_failsOnly htexts u place

end Files

/-- A project with a manifest, and a file that the manifest may list. -/
def manifestTree (text : String) : FileTree :=
  ⟨[(["p", ".agentrc", ".manifest.json"], .file text.toUTF8), (["p", ".agentrc"], .dir),
    (["p", "a"], .file "\x7b\x7d".toUTF8), (["p"], .dir)]⟩

/-- An item that is no object is passed over, and a text in the place of keys lists its letters. -/
theorem load_returns_iff_fits_of_text :
    let t := manifestTree "\x7b\"files\": [1, \x7b\"path\": \"a\", \"owned_keys\": \"k\"\x7d]\x7d"
    t.WellFormed ∧ Path.AreProper ["p"] ∧ ¬ FileTree.IsTooLong ("p" :: names) ∧
      ∃ bytes, t.bytesAt ("p" :: names) = some bytes ∧
        ∀ v : Json, v.IsStored bytes → v.FitsManifest := by
  intro t
  have ht : t.WellFormed := FileTree.wellFormed_of_isPlain (by decide +kernel)
  have hroot : Path.AreProper ["p"] := ht.areProper (by rfl)
  have hshort : ¬ FileTree.IsTooLong ("p" :: names) := by decide
  have hload : checks (fun _ => true) (load t ["p"]) = true := by decide +kernel
  obtain ⟨previous, hprevious, -⟩ := exists_of_checks hload
  refine ⟨ht, hroot, hshort, _, rfl, ?_⟩
  exact ((load_returns_iff_fits ht hroot hshort rfl).1.mp ⟨previous, hprevious⟩).2

/-- A number in the place of the files ends every run, and a number among the keys ends cleaning. -/
theorem number_in_manifest_ends_run :
    fails (· == .notAList) (load (manifestTree "\x7b\"files\": 5\x7d") ["p"]) = true ∧
    fails (·.failure == .keysNotText) (Workplace.clean ⟨["p"], "s"⟩
      (manifestTree
        "\x7b\"files\": [\x7b\"path\": \"a\", \"owned_keys\": [1]\x7d]\x7d")) = true := by
  decide +kernel

end Manifest

end AgentConfig
