import AgentConfig.Proofs.Json.Readable
import AgentConfig.Proofs.Output.Content
import AgentConfig.Proofs.Output.ManifestTruth
import AgentConfig.Proofs.Output.Stored

namespace AgentConfig

open List Outcome Json ManifestEntry

variable {bytes : ByteArray} {v : Json} {items : List Json} {members : Members} {n : Nat}
  {previous : Option Manifest}

/-- The bytes of a file that holds a document. -/
def Json.IsStored (bytes : ByteArray) (v : Json) : Prop :=
  ∃ text, Text.readText bytes = .ok text ∧ Json.read text = .ok v

theorem Json.IsStored.isReadable (h : IsStored bytes v) : IsReadableIn maxLevels v := by
  obtain ⟨text, htext, hread⟩ := h
  exact isReadable_of_read (Text.isChars_readText htext) hread

/-- The bytes of a file that holds a document as it is written. -/
structure Json.IsWritten (bytes : ByteArray) (v : Json) : Prop where
  readable : IsReadableIn maxLevels v
  readText_eq : Text.readText bytes = .ok (write v)

theorem Json.IsReadableIn.isWritten (h : IsReadableIn maxLevels v)
    (hbytes : Text.bytes? (write v) = some bytes) : IsWritten bytes v := by
  obtain ⟨other, hother, hread⟩ := h.1.exists_bytes
  obtain rfl := Option.some.inj (hbytes.symm.trans hother)
  exact ⟨h, hread⟩

theorem Json.IsWritten.isStored (h : IsWritten bytes v) : IsStored bytes v :=
  ⟨write v, h.readText_eq, h.readable.1.read_write h.readable.2⟩

namespace FileTree.WellFormed

variable {t : FileTree} (ht : t.WellFormed) {path : List Text} (hpath : Path.AreProper path)
include ht hpath

theorem storedJson_eq_value_iff : t.storedJson path = .ok (.value v) ↔
      ¬ IsTooLong path ∧ ∃ bytes, t.bytesAt path = some bytes ∧ v.IsStored bytes := by
  constructor
  · intro h
    obtain ⟨found, hfound, h⟩ := bind_eq_ok.mp h
    have hentry := mapError_eq_ok.mp hfound
    cases found with
    | none => cases h
    | some entry =>
      cases entry with
      | dir => cases h
      | file bytes =>
        obtain ⟨hget, hshort⟩ := (ht.entry?_eq_some_iff hpath).mp hentry
        refine ⟨hshort, bytes, bytesAt_eq_some_iff.mpr hget, ?_⟩
        dsimp only at h
        split at h
        · cases h
        split at h
        · cases h
        rename_i text htext
        split at h
        · rename_i value hread
          cases h
          exact ⟨text, htext, hread⟩
        · split at h <;> cases h
  · rintro ⟨hshort, bytes, hbytes, text, htext, hread⟩
    have hsize : bytes.size ≠ 0 := by
      intro hempty
      obtain rfl := ByteArray.size_eq_zero_iff.mp hempty
      have hnil : Text.readText ByteArray.empty = .ok [] := rfl
      obtain rfl := Except.ok.inj (hnil.symm.trans htext)
      cases hread
    exact storedJson_of_entry?
      ((ht.entry?_eq_some_iff hpath).mpr ⟨bytesAt_eq_some_iff.mp hbytes, hshort⟩) hsize htext hread

end FileTree.WellFormed

theorem Json.AreReadable.getD_null (h : AreReadable n members)
    (key : Text) : IsReadableIn n ((members.get? key).getD .null) := by
  cases hget : members.get? key with
  | none => exact ⟨.null, Nat.zero_le n⟩
  | some v => exact h.values (key, v) (Members.mem_of_get? hget)

namespace ManifestEntry

variable {members : Json.Members} {e : ManifestEntry}

theorem itemsOf_isReadable (hv : IsReadableIn (n + 1) v) (h : itemsOf v = .ok items) :
    ∀ item ∈ items, IsReadableIn n item := by
  obtain ⟨hreadable, hlevels⟩ := hv
  cases v with
  | arr vs =>
    obtain rfl : vs = items := Except.ok.inj h
    rw [Json.levels, Nat.add_le_add_iff_right, itemLevels_le_iff] at hlevels
    cases hreadable with
    | arr hvs => exact fun item hitem => ⟨hvs item hitem, hlevels item hitem⟩
  | str s =>
    obtain rfl := Except.ok.inj h
    intro item hitem
    obtain ⟨l, -, rfl⟩ := mem_map.mp hitem
    exact ⟨.str (isChain_singleton l), Nat.zero_le n⟩
  | obj members =>
    obtain rfl := Except.ok.inj h
    intro item hitem
    obtain ⟨m, hm, rfl⟩ := mem_map.mp hitem
    cases hreadable with
    | obj _ hjoined _ => exact ⟨.str (hjoined m hm), Nat.zero_le n⟩
  | _ => cases h

def keysIn (members : Members) : Except Failure (Option (List Json)) :=
  match (members.get? "owned_keys").getD .null with
  | .null => .ok none
  | keys => some <$> itemsOf keys

theorem keysIn_isReadable (hmembers : AreReadable (keyLevels + 1) members)
    (h : keysIn members = .ok (some items)) : ∀ item ∈ items, IsReadableIn keyLevels item := by
  have hreadable := hmembers.getD_null "owned_keys"
  unfold keysIn at h
  split at h
  · cases h
  · obtain ⟨found, hfound, heq⟩ := map_eq_ok.mp h
    cases heq
    exact itemsOf_isReadable hreadable hfound

theorem ofMembers_eq_ok {found : Option ManifestEntry} : ofMembers members = .ok found ↔
      (members.get? "path" = none ∧ found = none) ∨
        ∃ path keys, members.get? "path" = some path ∧ keysIn members = .ok keys ∧
          found = some ⟨path.text, ((members.get? "checksum").map Json.text).getD "", keys⟩ := by
  unfold ofMembers keysIn
  cases members.get? "path" with
  | none => simp [eq_comm]
  | some path =>
    generalize (members.get? "owned_keys").getD .null = v
    cases v <;>
      simp [itemsOf, bind, Except.bind, pure, Except.pure, Functor.map, Except.map, eq_comm]

theorem isStorable_of_ofMembers (hmembers : AreReadable (keyLevels + 1) members)
    (h : ofMembers members = .ok (some e)) : e.IsStorable := by
  obtain ⟨-, hnone⟩ | ⟨path, keys, -, hkeys, heq⟩ := ofMembers_eq_ok.mp h
  · cases hnone
  cases heq
  rintro items ⟨rfl⟩ item hitem
  have hitem := keysIn_isReadable hmembers hkeys item hitem
  exact ⟨hitem.1.isPlain, hitem.2⟩

theorem joined_of_ofMembers (hmembers : AreReadable (keyLevels + 1) members)
    (h : ofMembers members = .ok (some e)) : e.joined = e := by
  have hread {key : Text} {v : Json} (hget : members.get? key = some v) :
      joinHalves v.text = v.text :=
    (hmembers.values (key, v) (Members.mem_of_get? hget)).1.isJoined_text.joinHalves_eq
  obtain ⟨-, hnone⟩ | ⟨path, keys, hpath, hkeys, heq⟩ := ofMembers_eq_ok.mp h
  · cases hnone
  cases heq
  have hchecksum : joinHalves (((members.get? "checksum").map Json.text).getD "") =
      ((members.get? "checksum").map Json.text).getD "" := by
    cases hget : members.get? "checksum" with
    | none => rfl
    | some v => exact hread hget
  have hitems : keys.map joinedItems = keys := by
    cases keys with
    | none => rfl
    | some items =>
      have hitem := keysIn_isReadable hmembers hkeys
      exact congrArg some (Json.arr.inj (IsReadable.arr fun v hv => (hitem v hv).1).joined_eq)
  rw [joined, hread hpath, hchecksum, hitems]

end ManifestEntry

namespace Manifest

theorem ofJson_obj_eq_ok :
    ofJson (.obj members) = .ok previous ↔ ∃ items files,
      itemsOf ((members.get? "files").getD (.arr [])) = .ok items ∧
      entriesOf items = .ok files ∧
      previous = some ⟨((members.get? "version").map Json.text).getD "", files⟩ := by
  rw [ofJson, bind_eq_ok]
  simp only [bind_eq_ok, pure, Except.pure, Except.ok.injEq]
  grind

theorem mem_entriesOf_iff {files : List ManifestEntry} {e : ManifestEntry}
    (h : entriesOf items = .ok files) :
    e ∈ files ↔ ∃ entry, .obj entry ∈ items ∧ ofMembers entry = .ok (some e) := by
  induction items generalizing files with
  | nil =>
    cases h
    simp
  | cons item items ih =>
    cases item with
    | obj members =>
      obtain ⟨first, hfirst, h⟩ := bind_eq_ok.mp h
      obtain ⟨rest, hrest, h⟩ := bind_eq_ok.mp h
      cases h
      simp [ih hrest, or_and_right, exists_or, hfirst]
    | _ => simpa using ih h

section Loaded

variable {holds : ManifestEntry → Prop}
  (hread : ∀ {members e}, Json.AreReadable (ManifestEntry.keyLevels + 1) members →
    ManifestEntry.ofMembers members = .ok (some e) → holds e)
include hread

theorem forall_of_load {t : FileTree} (ht : t.WellFormed) {root : List Text}
    (hroot : Path.AreProper root)
    (hload : load t root = .ok previous) : ∀ e ∈ (previous.getD {}).files, holds e := by
  unfold load at hload
  rw [location_eq] at hload
  obtain ⟨stored, hstored, hload⟩ := bind_eq_ok.mp hload
  have hnone {previous : Option Manifest}
      (h : (.ok none : Except Failure (Option Manifest)) = .ok previous) :
      ∀ e ∈ (previous.getD {}).files, holds e := by
    obtain rfl := Except.ok.inj h
    nofun
  cases stored with
  | absent => exact hnone hload
  | unreadable => exact hnone hload
  | value v =>
    obtain ⟨-, bytes, -, hvalue⟩ :=
      (ht.storedJson_eq_value_iff (hroot.append areProper_names)).mp hstored
    cases v with
    | obj members =>
      obtain ⟨items, files, hitems, hfiles, rfl⟩ := ofJson_obj_eq_ok.mp hload
      have hmembers : AreReadable (keyLevels + 3) members :=
        areReadable_iff.mpr hvalue.isReadable
      have hitem : ∀ item ∈ items, IsReadableIn (keyLevels + 2) item := by
        refine itemsOf_isReadable ?_ hitems
        cases hget : Members.get? "files" members with
        | none => exact ⟨.arr nofun, by simp [Json.levels, itemLevels]⟩
        | some v => exact hmembers.values ("files", v) (Members.mem_of_get? hget)
      intro e he
      obtain ⟨entry, hentry, hfound⟩ := (mem_entriesOf_iff hfiles).mp he
      exact hread (areReadable_iff.mpr (hitem _ hentry)) hfound
    | _ => exact hnone hload

end Loaded

section Load

variable {t : FileTree} (ht : t.WellFormed) {root : List Text} (hroot : Path.AreProper root)
  {previous : Option Manifest} (hload : load t root = .ok previous)
include ht hroot hload

theorem isStorable_of_load : ∀ e ∈ (previous.getD {}).files, e.IsStorable :=
  forall_of_load isStorable_of_ofMembers ht hroot hload

theorem joined_of_load : ∀ e ∈ (previous.getD {}).files, e.joined = e :=
  forall_of_load joined_of_ofMembers ht hroot hload

end Load

end Manifest

namespace Workplace

variable {w : Workplace} {t t' : FileTree} {reports : List TargetReport} {managed : ManagedDirs}
  {previous : Option Manifest} {p : Progress} {manifest : Manifest}

section Saved

variable (hsetting : w.Setting reports managed) (ht : t.WellFormed)
  (hnoFile : t.bytesAt w.root = none) (hload : Manifest.load t w.root = .ok previous)
  (hrun : w.run previous t reports managed = .ok p)
  (hmanifest : p.manifest w.root previous = .ok manifest)
include hsetting ht hnoFile hload hrun hmanifest

theorem Setting.isStorable_manifest : ∀ e ∈ manifest.files, e.IsStorable := by
  obtain ⟨htallies, hholds⟩ := holds_of_run hsetting ht hnoFile hrun
  intro e he
  rcases hholds.mem_manifest hsetting.proper htallies hmanifest he with he | ⟨a, -, hentry⟩
  · exact Manifest.isStorable_of_load ht hsetting.proper.root hload e he
  refine ManifestEntry.HasTextKeys.isStorable ?_
  obtain ⟨names, bytes, -, -, -, -, hkeys⟩ := hentry
  intro keys hsome v hv
  rw [hkeys] at hsome
  obtain ⟨texts, -, rfl⟩ := Option.map_eq_some_iff.mp hsome
  obtain ⟨text, -, rfl⟩ := mem_map.mp hv
  exact ⟨text, rfl⟩

omit hload hmanifest in
theorem Setting.changesAt_of_save (hsave : manifest.save p.tree w.root = .ok t') :
    p.tree.ChangesAt t' (w.root ++ Manifest.names) := by
  have hend := holds_of_run hsetting ht hnoFile hrun
  have hsaved := hsetting.proper.save_changesAt hend.2.wellFormed manifest
  rwa [hsave] at hsaved

theorem Setting.load_of_save (hsave : manifest.save p.tree w.root = .ok t') :
    Manifest.load t' w.root = .ok (some manifest.joined) := by
  have hend := holds_of_run hsetting ht hnoFile hrun
  exact Manifest.load_save hend.2.wellFormed hsetting.proper.root
    (hsetting.isStorable_manifest ht hnoFile hload hrun hmanifest) hsave

end Saved

end Workplace

end AgentConfig
