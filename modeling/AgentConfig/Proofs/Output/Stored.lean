import AgentConfig.Proofs.FileTree.Success
import AgentConfig.Proofs.Json.RoundTrip
import AgentConfig.Proofs.Output.Sound

namespace AgentConfig

open List Outcome FileTree Json

variable {name path s text : Text}

/-- No letter is the first half of a character. -/
def Text.HasNoFirstHalf (s : Text) : Prop :=
  ∀ place : Fin 0x800, .half place ∈ s → 0x400 ≤ place.val

theorem Text.HasNoFirstHalf.joinHalves_eq (h : s.HasNoFirstHalf) : joinHalves s = s := by
  fun_induction joinHalves s with
  | case1 a b rest hpair ih => exact absurd hpair.1 (Nat.not_lt.mpr (h a (by simp)))
  | case2 a b rest hpair ih => rw [ih fun place hp => h place (mem_cons_of_mem _ hp)]
  | case3 l rest hpair ih => rw [ih fun place hp => h place (mem_cons_of_mem _ hp)]
  | case4 => rfl

private theorem exists_of_mem_mapM {α β : Type} {f : α → Option β} {xs : List α} {ys : List β}
    (h : xs.mapM f = some ys) : ∀ x ∈ xs, ∃ y, f x = some y := by
  induction xs generalizing ys with
  | nil => simp
  | cons x rest ih =>
    simp only [mapM_cons, Option.bind_eq_bind, Option.bind_eq_some_iff, Option.pure_def,
      Option.some.injEq] at h
    obtain ⟨y, hy, others, hothers, -⟩ := h
    intro other hother
    rcases mem_cons.mp hother with rfl | hother
    · exact ⟨y, hy⟩
    · exact ih hothers other hother

theorem IsFileName.hasNoFirstHalf (h : IsFileName name) : name.HasNoFirstHalf := by
  intro place hplace
  have hread := h.readable
  unfold Text.fileName? at hread
  split at hread
  · rename_i hchars
    obtain ⟨cs, hcs⟩ := Option.isSome_iff_exists.mp hchars
    obtain ⟨c, hc⟩ := exists_of_mem_mapM hcs _ hplace
    cases hc
  · obtain ⟨bytes, hbytes, -⟩ := Option.map_eq_some_iff.mp hread
    obtain ⟨parts, hparts, -⟩ := Option.map_eq_some_iff.mp hbytes
    obtain ⟨part, hpart⟩ := exists_of_mem_mapM hparts _ hplace
    rw [Text.nameLetterBytes?] at hpart
    split at hpart
    · omega
    · cases hpart

theorem Path.Leads.hasNoFirstHalf {names : List Text} (hleads : Path.Leads path names)
    (h : ∀ name ∈ names, IsFileName name) : path.HasNoFirstHalf := by
  intro place hplace
  rw [hleads.path_eq, Path.relative_eq_intercalate hleads.ne_nil] at hplace
  rcases Text.mem_intercalate hplace with hslash | ⟨name, hname, hplace⟩
  · cases mem_singleton.mp hslash
  · exact (h name hname).hasNoFirstHalf place hplace

theorem Json.itemLevels_le {vs : List Json} {n : Nat} (h : ∀ v ∈ vs, v.levels ≤ n) :
    itemLevels vs ≤ n := by
  induction vs with
  | nil => exact Nat.zero_le n
  | cons v rest ih =>
    rw [itemLevels, Nat.max_le]
    exact ⟨h v (by simp), ih fun w hw => h w (mem_cons_of_mem _ hw)⟩

namespace ManifestEntry

variable {e : ManifestEntry}

def joined (e : ManifestEntry) : ManifestEntry :=
  ⟨joinHalves e.path, joinHalves e.checksum, e.ownedKeys.map joinedItems⟩

def HasTextKeys (e : ManifestEntry) : Prop :=
  ∀ keys, e.ownedKeys = some keys → ∀ v ∈ keys, ∃ s, v = .str s

/-- How many levels keys may have: the manifest has four around them. -/
def keyLevels : Nat := maxLevels - 4

/-- The keys are such as can be read back. -/
def IsStorable (e : ManifestEntry) : Prop :=
  ∀ keys, e.ownedKeys = some keys → ∀ v ∈ keys, v.IsPlain ∧ v.levels ≤ keyLevels

theorem HasTextKeys.isStorable (h : e.HasTextKeys) : e.IsStorable := by
  intro keys hkeys v hv
  obtain ⟨s, rfl⟩ := h keys hkeys v hv
  exact ⟨.str s, Nat.zero_le _⟩

theorem IsStorable.isPlain (h : e.IsStorable) : e.toJson.IsPlain := by
  obtain ⟨path, checksum, keys⟩ := e
  cases keys with
  | none =>
    refine .obj ?_ (by simp [IsPlain.str])
    show ([joinHalves "path", joinHalves "checksum"] : List Text).Nodup
    decide
  | some keys =>
    have hkeys : IsPlain (.arr keys) := .arr fun v hv => (h keys rfl v hv).1
    refine .obj ?_ (by simp [IsPlain.str, hkeys])
    show ([joinHalves "path", joinHalves "checksum",
      joinHalves "owned_keys"] : List Text).Nodup
    decide

theorem ofMembers_joined (e : ManifestEntry) :
    ∃ members, e.toJson.joined = .obj members ∧ ofMembers members = .ok (some e.joined) := by
  obtain ⟨path, checksum, keys⟩ := e
  cases keys with
  | none => exact ⟨_, rfl, rfl⟩
  | some keys => exact ⟨_, rfl, rfl⟩

theorem HasTextKeys.joined (h : e.HasTextKeys) : e.joined.HasTextKeys := by
  intro keys hkeys v hv
  obtain ⟨old, hold, rfl⟩ := Option.map_eq_some_iff.mp hkeys
  rw [joinedItems_eq_map] at hv
  obtain ⟨w, hw, rfl⟩ := mem_map.mp hv
  obtain ⟨s, rfl⟩ := h old hold w hw
  exact ⟨joinHalves s, rfl⟩

theorem IsStorable.levels_le (h : e.IsStorable) : e.toJson.levels ≤ keyLevels + 2 := by
  obtain ⟨path, checksum, keys⟩ := e
  cases keys with
  | none => simp [toJson, Json.levels, memberLevels]
  | some keys =>
    have hkeys : itemLevels keys ≤ keyLevels :=
      itemLevels_le fun v hv => (h keys rfl v hv).2
    simp only [toJson, Json.levels, memberLevels]
    omega

end ManifestEntry

namespace Manifest

variable {m : Manifest}

def joined (m : Manifest) : Manifest :=
  ⟨joinHalves m.version, (sorted m.files).map ManifestEntry.joined⟩

theorem entriesOf_joined (files : List ManifestEntry) :
    entriesOf (joinedItems (files.map ManifestEntry.toJson)) =
      .ok (files.map ManifestEntry.joined) := by
  induction files with
  | nil => rfl
  | cons e rest ih =>
    obtain ⟨members, hjoined, hread⟩ := e.ofMembers_joined
    rw [map_cons, joinedItems, hjoined, entriesOf, hread, ih]
    rfl

theorem ofJson_joined (m : Manifest) : ofJson m.toJson.joined = .ok (some m.joined) := by
  have hentries := entriesOf_joined (sorted m.files)
  show (entriesOf _ >>= fun files => .ok (some (Manifest.mk (joinHalves m.version) files))) = _
  rw [hentries]
  rfl

theorem isPlain_toJson (h : ∀ e ∈ m.files, e.IsStorable) : m.toJson.IsPlain := by
  have hfiles : IsPlain (.arr ((sorted m.files).map ManifestEntry.toJson)) := by
    refine .arr fun v hv => ?_
    obtain ⟨e, he, rfl⟩ := mem_map.mp hv
    exact (h e (mem_mergeSort.mp he)).isPlain
  refine .obj ?_ (by simp [IsPlain.str, hfiles])
  show ([joinHalves "version", joinHalves "files"] : List Text).Nodup
  decide

theorem levels_toJson_le (h : ∀ e ∈ m.files, e.IsStorable) : m.toJson.levels ≤ maxLevels := by
  have hfiles : itemLevels ((sorted m.files).map ManifestEntry.toJson) ≤
      ManifestEntry.keyLevels + 2 := by
    refine itemLevels_le fun v hv => ?_
    obtain ⟨e, he, rfl⟩ := mem_map.mp hv
    exact (h e (mem_mergeSort.mp he)).levels_le
  have hroom : ManifestEntry.keyLevels + 4 = maxLevels := rfl
  simp only [toJson, Json.levels, memberLevels]
  omega

theorem exists_bytes (h : ∀ e ∈ m.files, e.IsStorable) :
    ∃ bytes, Text.bytes? (Json.write m.toJson) = some bytes ∧
      Text.readText bytes = .ok (Json.write m.toJson) := by
  refine exists_bytes_of_isFileLetter fun l hl => ?_
  rcases mem_append.mp hl with hl | hl
  · exact (isPlain_toJson h).isFileLetter 0 l hl
  · rw [mem_singleton.mp hl]
    exact .inl rfl

end Manifest

theorem FileTree.storedJson_of_entry? {t : FileTree} {path : List Text} {bytes : ByteArray}
    {v : Json} (hentry : t.entry? path = .ok (some (.file bytes))) (hsize : bytes.size ≠ 0)
    (hread : Text.readText bytes = .ok text)
    (hvalue : Json.read text = .ok v) : t.storedJson path = .ok (.value v) := by
  unfold storedJson
  rw [hentry]
  simp only [Failure.atPath, Except.mapError, bind, Except.bind, hsize, if_false, hread, hvalue]
  rfl

namespace Manifest

variable {m : Manifest}

section Files

variable {t t' : FileTree} {root : List Text}

theorem load_congr (h : t'.entry? (root ++ names) = t.entry? (root ++ names)) :
    load t' root = load t root := by
  unfold load storedJson
  rw [location_eq, h]

variable (ht : t.WellFormed) (hroot : Path.AreProper root)
include ht hroot

theorem load_of_bytesAt_eq (ht' : t'.WellFormed)
    (hsame : t'.bytesAt (root ++ names) = t.bytesAt (root ++ names))
    (hload : load t root = .ok (some m)) : load t' root = .ok (some m) := by
  have hpath := hroot.append areProper_names
  obtain ⟨bytes, hentry⟩ := entry?_of_load hload
  obtain ⟨hget, hshort⟩ := (ht.entry?_eq_some_iff hpath).mp hentry
  rw [bytesAt_eq_some_iff.mpr hget, bytesAt_eq_some_iff] at hsame
  rw [load_congr (((ht'.entry?_eq_some_iff hpath).mpr ⟨hsame, hshort⟩).trans hentry.symm), hload]

theorem load_save (h : ∀ e ∈ m.files, e.IsStorable) (hsave : m.save t root = .ok t') :
    load t' root = .ok (some m.joined) := by
  have hpath := hroot.append areProper_names
  have hwrite := mapError_eq_ok.mp hsave
  rw [location_eq] at hwrite
  obtain ⟨bytes, hbytes, hat⟩ := write_inv ht hpath hwrite
  obtain ⟨bytes', hbytes', hread⟩ := exists_bytes h
  obtain rfl := Option.some.inj (hbytes.symm.trans hbytes')
  have hchange := write_changesAt ht hpath (Json.write m.toJson)
  rw [hwrite] at hchange
  have hentry : t'.entry? (root ++ names) = .ok (some (.file bytes)) :=
    (hchange.wellFormed.entry?_eq_some_iff hpath).mpr
      ⟨bytesAt_eq_some_iff.mp hat, write_not_isTooLong hpath hwrite⟩
  have hsize : bytes.size ≠ 0 := by
    intro hempty
    obtain rfl := ByteArray.size_eq_zero_iff.mp hempty
    have hend : (.char '\n' : Letter) ∈ Json.write m.toJson :=
      mem_append_right _ mem_cons_self
    rw [← Except.ok.inj hread] at hend
    cases hend
  have hvalue := read_write (isPlain_toJson h) (levels_toJson_le h)
  rw [load, location_eq, storedJson_of_entry? hentry hsize hread hvalue]
  exact ofJson_joined m

theorem save_failed (h : ∀ e ∈ m.files, e.IsStorable) {halt : Halt}
    (hsave : m.save t root = .error halt) : t.SameFiles halt.tree := by
  obtain ⟨⟨fault, u⟩, hwrite, rfl⟩ := mapError_eq_error.mp hsave
  rw [location_eq] at hwrite
  obtain ⟨bytes, hbytes, -⟩ := exists_bytes h
  exact write_failed ht (hroot.append areProper_names) hwrite (.inr (by simp [hbytes]))

omit hroot in
theorem exists_save (h : ∀ e ∈ m.files, e.IsStorable)
    (hdir : t.get? (root ++ [Source.directory]) = some .dir)
    (hfree : t.get? (root ++ names) ≠ some .dir)
    (hshort : ¬ IsTooLong (root ++ names)) :
    ∃ bytes, m.save t root = .ok (t.put (root ++ names) (.file bytes)) := by
  have hsplit : root ++ names = (root ++ [Source.directory]) ++ [(".manifest.json" : Text)] := by
    simp [names]
  have hnames : ∀ name ∈ root ++ names, IsFileName name := by
    intro name hname
    rw [hsplit] at hname
    rcases mem_append.mp hname with hname | hname
    · exact ht.isFileName hdir name hname
    · rw [mem_singleton.mp hname]
      exact isFileName_of_isPlain (by decide +kernel)
  have habove : t.get? (root ++ names).dropLast = some .dir := by
    rw [hsplit, dropLast_concat]
    exact hdir
  obtain ⟨bytes, hbytes, -⟩ := exists_bytes h
  refine ⟨bytes, mapError_eq_ok.mpr ?_⟩
  rw [location_eq]
  exact ht.write_eq hshort hnames habove hfree hbytes

end Files

/-- A manifest as builds leave it: each path is listed once, a file outside the source directory can
stand there, and keys are texts. -/
structure IsTidy (m : Manifest) : Prop where
  distinct : m.paths.Nodup
  leads : ∀ e ∈ m.files, ∃ names, Path.Leads e.path names ∧ Workplace.IsOutside names ∧
    ∀ name ∈ names, IsFileName name
  texts : ∀ e ∈ m.files, e.HasTextKeys

theorem IsTidy.isStorable (h : m.IsTidy) : ∀ e ∈ m.files, e.IsStorable :=
  fun e he => (h.texts e he).isStorable

theorem IsTidy.path_joined (h : m.IsTidy) {e : ManifestEntry} (he : e ∈ m.files) :
    e.joined.path = e.path := by
  obtain ⟨names, hleads, -, hnames⟩ := h.leads e he
  exact (hleads.hasNoFirstHalf hnames).joinHalves_eq

theorem IsTidy.joined (h : m.IsTidy) : m.joined.IsTidy := by
  have hmem {e : ManifestEntry} (he : e ∈ sorted m.files) : e ∈ m.files := mem_mergeSort.mp he
  refine ⟨?_, ?_, ?_⟩
  · have hpaths : m.joined.paths = (sorted m.files).map (·.path) := by
      rw [paths, Manifest.joined, map_map]
      exact map_congr_left fun e he => h.path_joined (hmem he)
    rw [hpaths]
    exact ((mergeSort_perm m.files _).map _).nodup_iff.mpr h.distinct
  · intro e' he'
    obtain ⟨e, he, rfl⟩ := mem_map.mp he'
    rw [h.path_joined (hmem he)]
    exact h.leads e (hmem he)
  · intro e' he'
    obtain ⟨e, he, rfl⟩ := mem_map.mp he'
    exact (h.texts e (hmem he)).joined

end Manifest

end AgentConfig
