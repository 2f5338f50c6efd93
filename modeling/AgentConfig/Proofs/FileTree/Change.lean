import AgentConfig.FileTree.Change
import AgentConfig.Proofs.FileTree.Lookup

namespace AgentConfig

open List Outcome

/-- The tree that a change leaves behind, whether it succeeds or not. -/
def TreeChange.tree : TreeChange → FileTree
  | .ok t => t
  | .error (_, t) => t

namespace FileTree

variable {t t' u v : FileTree} {location above below path : List Text} {bytes : ByteArray}

/-- The bytes of the file at a location, if one stands there. -/
def bytesAt (t : FileTree) (location : List Text) : Option ByteArray :=
  match t.get? location with
  | some (.file bytes) => some bytes
  | _ => none

theorem bytesAt_eq_some_iff :
    t.bytesAt location = some bytes ↔ t.get? location = some (.file bytes) := by
  unfold bytesAt
  split
  · rename_i found hget
    simp [hget]
  · rename_i hno
    simp only [reduceCtorEq, false_iff]
    exact hno bytes

theorem bytesAt_congr (h : t'.get? location = t.get? location) :
    t'.bytesAt location = t.bytesAt location := by
  simp [bytesAt, h]

theorem WellFormed.bytesAt_of_not_exists (ht : t.WellFormed) (hproper : Path.AreProper path)
    (h : t.exists? path = .ok false) : t.bytesAt path = none := by
  have hnone := ht.exists?_eq hproper h
  simp only [Bool.false_eq, Option.isSome_eq_false_iff, Option.isNone_iff_eq_none] at hnone
  simp [bytesAt, hnone]

theorem WellFormed.areProper_of_bytesAt (ht : t.WellFormed)
    (h : t.bytesAt (above ++ below) ≠ none) : Path.AreProper below := by
  obtain ⟨bytes, hbytes⟩ := Option.ne_none_iff_exists'.mp h
  exact ht.areProper_below (bytesAt_eq_some_iff.mp hbytes)

theorem bytesAt_of_dir (h : t.get? location = some .dir) : t.bytesAt location = none := by
  simp [bytesAt, h]

theorem bytesAt_ne_of_all (h : t.entries.all (·.2 != .file bytes) = true) (location : List Text) :
    t.bytesAt location ≠ some bytes := by
  rw [Ne, bytesAt_eq_some_iff]
  intro hget
  have hne : location ≠ [] := by
    rintro rfl
    cases hget
  simpa using all_eq_true.mp h _ (WellFormed.mem_of_get? hne hget)

private theorem dropLast_ne (hne : location ≠ []) : location.dropLast ≠ location := by
  intro h
  have hlength := congrArg List.length h
  have hpos := length_pos_iff.mpr hne
  rw [length_dropLast] at hlength
  omega

namespace WellFormed

theorem put (ht : t.WellFormed) {entry : FileEntry} (hne : location ≠ [])
    (hnamed : ∀ name ∈ location, IsFileName name)
    (habove : t.get? location.dropLast = some .dir)
    (hfits : entry = .dir ∨ t.get? location ≠ some .dir) : (t.put location entry).WellFormed := by
  have hmem {place : List Text} {found : FileEntry}
      (h : (place, found) ∈ (t.put location entry).entries) :
      (place = location ∧ found = entry) ∨ (place ≠ location ∧ (place, found) ∈ t.entries) := by
    rcases mem_cons.mp h with h | h
    · exact .inl ⟨congrArg Prod.fst h, congrArg Prod.snd h⟩
    · obtain ⟨hold, hother⟩ := mem_filter.mp h
      exact .inr ⟨by simpa using hother, hold⟩
  constructor
  · have hrest : ((t.erase location).entries.map (·.1)).Nodup :=
      ht.nodup.sublist (filter_sublist.map _)
    refine nodup_cons.mpr ⟨?_, hrest⟩
    intro h
    obtain ⟨e, he, heq⟩ := mem_map.mp h
    have hother : e.1 ≠ location := by simpa using (mem_filter.mp he).2
    exact hother heq
  · intro place found h
    rcases hmem h with ⟨rfl, _⟩ | ⟨_, hold⟩
    · exact hne
    · exact ht.ne_nil hold
  · intro place found h
    rcases hmem h with ⟨rfl, _⟩ | ⟨_, hold⟩
    · exact hnamed
    · exact ht.named hold
  · intro place found h
    rcases hmem h with ⟨rfl, _⟩ | ⟨_, hold⟩
    · rw [get?_put_ne t entry (dropLast_ne hne)]
      exact habove
    have hdir := ht.rooted hold
    by_cases heq : place.dropLast = location
    · rw [heq] at hdir ⊢
      rcases hfits with rfl | hno
      · exact get?_put_self t .dir hne
      · exact absurd hdir hno
    · rw [get?_put_ne t entry heq]
      exact hdir

theorem erase (ht : t.WellFormed)
    (hleaf : ∀ {place found}, (place, found) ∈ t.entries → place.dropLast ≠ location) :
    (t.erase location).WellFormed := by
  constructor
  · exact ht.nodup.sublist (filter_sublist.map _)
  · intro place found h
    exact ht.ne_nil (mem_filter.mp h).1
  · intro place found h
    exact ht.named (mem_filter.mp h).1
  · intro place found h
    have hold := (mem_filter.mp h).1
    rw [get?_erase_ne t (hleaf hold)]
    exact ht.rooted hold

theorem erase_file (ht : t.WellFormed)
    (hfile : t.get? location = some (.file bytes)) : (t.erase location).WellFormed := by
  apply ht.erase
  intro place found hmem heq
  have hdir := ht.rooted hmem
  rw [heq, hfile] at hdir
  cases hdir

theorem erase_emptyDir (ht : t.WellFormed) (hempty : t.isEmptyDir location = true) :
    (t.erase location).WellFormed := by
  apply ht.erase
  intro place found hmem heq
  simp only [isEmptyDir, Bool.not_eq_true', any_eq_false] at hempty
  have hno := hempty (place, found) hmem
  have hne := ht.ne_nil hmem
  have hsplit : place = location ++ [place.getLast hne] := by
    rw [← heq, dropLast_append_getLast]
  apply hno
  rw [hsplit]
  simp [below?]

end WellFormed

/-- The second tree has all that the first has, and perhaps directories that the first has not. No
file is added. -/
structure GrowsTo (t t' : FileTree) : Prop where
  wellFormed : t'.WellFormed
  keeps : ∀ {location entry}, t.get? location = some entry → t'.get? location = some entry
  adds : ∀ {location}, t.get? location = none →
    t'.get? location = none ∨ t'.get? location = some .dir

theorem GrowsTo.refl (ht : t.WellFormed) : t.GrowsTo t :=
  ⟨ht, id, .inl⟩

theorem GrowsTo.trans (h : t.GrowsTo u) (h' : u.GrowsTo v) : t.GrowsTo v := by
  refine ⟨h'.wellFormed, fun hget => h'.keeps (h.keeps hget), ?_⟩
  intro location hnone
  rcases h.adds hnone with hu | hu
  · exact h'.adds hu
  · exact .inr (h'.keeps hu)

theorem GrowsTo.bytesAt_eq (h : t.GrowsTo t') (location : List Text) :
    t'.bytesAt location = t.bytesAt location := by
  cases hget : t.get? location with
  | some entry => exact bytesAt_congr (by rw [h.keeps hget, hget])
  | none =>
    have hnone : t.bytesAt location = none := by simp [bytesAt, hget]
    rw [hnone]
    rcases h.adds hget with h' | h' <;> simp [bytesAt, h']

section Operations

variable {path : List Text}

theorem ne_nil_of_get?_ne (h : t.get? location ≠ some .dir) : location ≠ [] := by
  rintro rfl
  exact h rfl

theorem makeDir_put (hmake : t.makeDir path = .ok t') :
    ∃ location, t.locate path = .ok location ∧ t.get? location = none ∧
      t' = t.put location .dir := by
  obtain ⟨location, hlocate, hmade⟩ := bind_eq_ok.mp hmake
  split at hmade
  · cases hmade
  · rename_i hnone
    exact ⟨location, hlocate, by simpa using hnone, (Except.ok.inj hmade).symm⟩

theorem readFile_get? (hread : t.readFile path = .ok bytes) :
    ∃ location, t.locate path = .ok location ∧ t.get? location = some (.file bytes) := by
  obtain ⟨location, hlocate, hfound⟩ := bind_eq_ok.mp hread
  split at hfound
  · rename_i found hget
    exact ⟨location, hlocate, by rw [hget, Except.ok.inj hfound]⟩
  · cases hfound
  · cases hfound

theorem writeFile_put (hwrite : t.writeFile path bytes = .ok t') :
    ∃ location, t.locate path = .ok location ∧ t.get? location ≠ some .dir ∧
      t' = t.put location (.file bytes) := by
  obtain ⟨location, hlocate, hwritten⟩ := bind_eq_ok.mp hwrite
  split at hwritten
  · cases hwritten
  · rename_i hno
    exact ⟨location, hlocate, hno, (Except.ok.inj hwritten).symm⟩

theorem unlink_erase (hunlink : t.unlink path = .ok t') :
    ∃ location bytes, t.locate path = .ok location ∧ t.get? location = some (.file bytes) ∧
      t' = t.erase location := by
  obtain ⟨location, hlocate, herased⟩ := bind_eq_ok.mp hunlink
  split at herased
  · rename_i bytes hfile
    exact ⟨location, bytes, hlocate, hfile, (Except.ok.inj herased).symm⟩
  · cases herased
  · cases herased

theorem removeDir_erase (hremove : t.removeDir path = .ok t') :
    ∃ location, t.locate path = .ok location ∧ location ≠ [] ∧ t.get? location = some .dir ∧
      t.isEmptyDir location = true ∧ t' = t.erase location := by
  obtain ⟨location, hlocate, herased⟩ := bind_eq_ok.mp hremove
  split at herased
  · rename_i hdir
    split at herased
    · cases herased
    rename_i hfits
    simp only [Bool.or_eq_true, Bool.not_eq_true', not_or, Bool.not_eq_false] at hfits
    obtain ⟨⟨hne, -⟩, hempty⟩ := hfits
    exact ⟨location, hlocate, by simpa using hne, hdir, hempty, (Except.ok.inj herased).symm⟩
  · cases herased
  · cases herased

end Operations

section MakingDirectories

variable {path : List Text}

/-- What holds of each directory that is made on the way to a path, and carries on from tree to
tree, holds of making all of them, also when it fails half-way. -/
theorem makeDirs_induct (changes : FileTree → FileTree → Prop) (refl : ∀ t, changes t t)
    (trans : ∀ {t u v}, changes t u → changes u v → changes t v)
    (make : ∀ {t t' names}, names <+: path → t.makeDir names = .ok t' → changes t t') :
    changes t (t.makeDirs path).tree := by
  have hmade (u : FileTree) {names : List Text} (hnames : names <+: path) :
      changes u (u.madeDir names).tree := by
    unfold madeDir
    split
    · exact make hnames ‹_›
    · exact refl u
    · split <;> exact refl u
  have hup : ∀ names : List Text, names.reverse <+: path → changes t (t.makeDirsUp names).tree := by
    intro names
    induction names with
    | nil => exact fun _ => refl t
    | cons name above ih =>
      intro hnames
      have habove := ih ((reverse_cons ▸ prefix_append _ _).trans hnames)
      unfold makeDirsUp
      simp only
      split
      · -- The directories above are missing: whatever was made of them stays.
        cases hup : t.makeDirsUp above with
        | error e =>
          rw [hup] at habove
          exact habove
        | ok u =>
          rw [hup] at habove
          exact trans habove (hmade u hnames)
      · exact hmade t hnames
  exact hup path.reverse (by simp)

theorem makeDir_growsTo (ht : t.WellFormed) (hproper : Path.AreProper path)
    (hmake : t.makeDir path = .ok t') : t.GrowsTo t' := by
  obtain ⟨location, hlocate, hnone, rfl⟩ := makeDir_put hmake
  obtain ⟨rfl, hnamed, habove⟩ := locate_inv hproper hlocate
  have hne : location ≠ [] := ne_nil_of_get?_ne (t := t) (by simp [hnone])
  refine ⟨ht.put hne hnamed habove (.inl rfl), ?_, ?_⟩
  · intro other entry hget
    rw [get?_put_ne t .dir, hget]
    rintro rfl
    rw [hnone] at hget
    cases hget
  · intro other hget
    by_cases heq : other = location
    · exact .inr (by rw [heq, get?_put_self t .dir hne])
    · exact .inl (by rw [get?_put_ne t .dir heq, hget])

/-- Making directories adds directories and nothing else. That is so as well when it fails half-way,
since those it has made stay. -/
theorem makeDirs_growsTo (ht : t.WellFormed) (hproper : Path.AreProper path) :
    t.GrowsTo (t.makeDirs path).tree :=
  makeDirs_induct (fun t t' => t.WellFormed → t.GrowsTo t') (fun _ => .refl)
    (fun h h' ht => (h ht).trans (h' (h ht).wellFormed))
    (fun hnames hmake ht => makeDir_growsTo ht (hproper.of_subset hnames.subset) hmake) ht

end MakingDirectories

open AgentConfig.Path

/-- Two trees with the same files, though their directories may differ. -/
structure SameFiles (t t' : FileTree) : Prop where
  wellFormed : t'.WellFormed
  bytesAt_eq : ∀ location, t'.bytesAt location = t.bytesAt location

/-- Two trees with the same files except at one location. -/
structure ChangesAt (t t' : FileTree) (location : List Text) : Prop where
  wellFormed : t'.WellFormed
  elsewhere : ∀ {other}, other ≠ location → t'.bytesAt other = t.bytesAt other

theorem GrowsTo.sameFiles (h : t.GrowsTo t') : t.SameFiles t' :=
  ⟨h.wellFormed, h.bytesAt_eq⟩

theorem SameFiles.refl (ht : t.WellFormed) : t.SameFiles t := ⟨ht, fun _ => rfl⟩

theorem SameFiles.trans (h : t.SameFiles u) (h' : u.SameFiles v) : t.SameFiles v :=
  ⟨h'.wellFormed, fun location => (h'.bytesAt_eq location).trans (h.bytesAt_eq location)⟩

theorem SameFiles.changesAt (h : t.SameFiles t') (location : List Text) : t.ChangesAt t' location :=
  ⟨h.wellFormed, fun _ => h.bytesAt_eq _⟩

theorem ChangesAt.trans {location : List Text} (h : t.ChangesAt u location)
    (h' : u.ChangesAt v location) : t.ChangesAt v location :=
  ⟨h'.wellFormed, fun hne => (h'.elsewhere hne).trans (h.elsewhere hne)⟩

section Files

variable {t t' : FileTree} {path source target : List Text} {text : Text} {bytes : ByteArray}

theorem readFile_inv (hproper : AreProper path) (hread : t.readFile path = .ok bytes) :
    t.bytesAt path = some bytes := by
  obtain ⟨location, hlocate, hget⟩ := readFile_get? hread
  obtain rfl := locate_eq hproper hlocate
  exact bytesAt_eq_some_iff.mpr hget

section

variable (ht : t.WellFormed) (hproper : Path.AreProper path)
include ht hproper

theorem writeFile_inv (hwrite : t.writeFile path bytes = .ok t') :
    t.ChangesAt t' path ∧ t'.bytesAt path = some bytes := by
  obtain ⟨location, hlocate, hno, rfl⟩ := writeFile_put hwrite
  obtain ⟨rfl, hnamed, habove⟩ := locate_inv hproper hlocate
  have hne := ne_nil_of_get?_ne hno
  refine ⟨⟨ht.put hne hnamed habove (.inr hno), ?_⟩, ?_⟩
  · intro other hother
    exact bytesAt_congr (get?_put_ne t _ hother)
  · exact bytesAt_eq_some_iff.mpr (get?_put_self t _ hne)

/-- Writing a text touches one file. A text that no file can hold leaves that file empty. -/
theorem writeText_changesAt (text : Text) : t.ChangesAt (t.writeText path text).tree path := by
  unfold writeText step
  split
  · rename_i bytes _
    cases hwrite : t.writeFile path bytes with
    | error fault => exact (SameFiles.refl ht).changesAt path
    | ok t' => exact (writeFile_inv ht hproper hwrite).1
  · cases hwrite : t.writeFile path ⟨#[]⟩ with
    | error fault => exact (SameFiles.refl ht).changesAt path
    | ok t' => exact (writeFile_inv ht hproper hwrite).1

theorem writeText_inv (hwrite : t.writeText path text = .ok t') :
    ∃ bytes, Text.bytes? text = some bytes ∧ t'.bytesAt path = some bytes := by
  unfold writeText step at hwrite
  split at hwrite
  · rename_i bytes hbytes
    exact ⟨bytes, hbytes, (writeFile_inv ht hproper (mapError_eq_ok.mp hwrite)).2⟩
  · obtain ⟨_, _, hthrow⟩ := bind_eq_ok.mp hwrite
    cases hthrow

theorem write_changesAt (text : Text) : t.ChangesAt (t.write path text).tree path := by
  have hdirs := makeDirs_growsTo ht hproper.dropLast
  unfold write
  cases hmake : t.makeDirs path.dropLast with
  | error e =>
    rw [hmake] at hdirs
    exact hdirs.sameFiles.changesAt path
  | ok u =>
    rw [hmake] at hdirs
    exact (hdirs.sameFiles.changesAt path).trans (writeText_changesAt hdirs.wellFormed hproper text)

theorem write_inv (hwrite : t.write path text = .ok t') :
    ∃ bytes, Text.bytes? text = some bytes ∧ t'.bytesAt path = some bytes := by
  obtain ⟨u, hmake, hwrite⟩ := bind_eq_ok.mp hwrite
  have hdirs := makeDirs_growsTo ht hproper.dropLast
  rw [hmake] at hdirs
  exact writeText_inv hdirs.wellFormed hproper hwrite

end

theorem write_not_isTooLong (hproper : AreProper path) (hwrite : t.write path text = .ok t') :
    ¬ IsTooLong path := by
  obtain ⟨u, -, hwrite⟩ := bind_eq_ok.mp hwrite
  have hlocated {bytes : ByteArray} {v : FileTree}
      (h : u.step (u.writeFile path bytes) = .ok v) : ¬ IsTooLong path := by
    obtain ⟨location, hlocate, -⟩ := bind_eq_ok.mp (mapError_eq_ok.mp h)
    exact not_isTooLong_of_locate hproper hlocate
  unfold writeText at hwrite
  split at hwrite
  · exact hlocated hwrite
  · obtain ⟨v, hstep, -⟩ := bind_eq_ok.mp hwrite
    exact hlocated hstep

/-- A write that the file system refuses touches no file, nor does one of a text that a file can
hold. -/
theorem write_failed (ht : t.WellFormed) (hproper : AreProper path) {fault : FileFault}
    (hwrite : t.write path text = .error (fault, t'))
    (hrefused : fault.isSystem = true ∨ Text.bytes? text ≠ none) : t.SameFiles t' := by
  have hdirs := makeDirs_growsTo ht hproper.dropLast
  rcases bind_eq_error.mp hwrite with hmake | ⟨u, hmake, hwrite⟩
  · rw [hmake] at hdirs
    exact hdirs.sameFiles
  rw [hmake] at hdirs
  have hsame {bytes : ByteArray} (h : u.step (u.writeFile path bytes) = .error (fault, t')) :
      t.SameFiles t' := by
    obtain ⟨_, _, heq⟩ := mapError_eq_error.mp h
    cases heq
    exact hdirs.sameFiles
  unfold writeText at hwrite
  split at hwrite
  · exact hsame hwrite
  rename_i hnone
  rcases bind_eq_error.mp hwrite with hstep | ⟨v, _, hthrow⟩
  · exact hsame hstep
  cases hthrow
  rcases hrefused with hsystem | hheld
  · cases hsystem
  · exact absurd hnone hheld

theorem unlink_inv (ht : t.WellFormed) (hproper : AreProper path)
    (hunlink : t.unlink path = .ok t') : t.ChangesAt t' path ∧ t'.bytesAt path = none := by
  obtain ⟨location, bytes, hlocate, hfile, rfl⟩ := unlink_erase hunlink
  obtain rfl := locate_eq hproper hlocate
  have hne : location ≠ [] := ne_nil_of_get?_ne (t := t) (by simp [hfile])
  refine ⟨⟨ht.erase_file hfile, ?_⟩, ?_⟩
  · intro other hother
    exact bytesAt_congr (get?_erase_ne t hother)
  · simp [bytesAt, get?_erase_self t hne]

theorem unlink_of_get? (hget : t.get? path = some (.file bytes))
    (hlocate : t.locate path = .ok path) : t.unlink path = .ok (t.erase path) := by
  simp [unlink, hlocate, hget, bind, Except.bind, pure, Except.pure]

theorem removeDir_sameFiles (ht : t.WellFormed) (hremove : t.removeDir path = .ok t') :
    t.SameFiles t' := by
  obtain ⟨location, -, hne, hdir, hempty, rfl⟩ := removeDir_erase hremove
  refine ⟨ht.erase_emptyDir hempty, fun other => ?_⟩
  by_cases hother : other = location
  · simp [bytesAt, hother, get?_erase_self t hne, hdir]
  · exact bytesAt_congr (get?_erase_ne t hother)

theorem pruneUp_sameFiles (ht : t.WellFormed) (stop names : List Text) :
    t.SameFiles (t.pruneUp stop names) := by
  induction names generalizing t with
  | nil => exact SameFiles.refl ht
  | cons name above ih =>
    unfold pruneUp
    simp only
    split
    · exact SameFiles.refl ht
    split
    · rename_i u hremove
      have hu := removeDir_sameFiles ht hremove
      exact hu.trans (ih hu.wellFormed)
    · exact SameFiles.refl ht

theorem prune_sameFiles (ht : t.WellFormed) (stop path : List Text) :
    t.SameFiles (t.prune path stop) :=
  pruneUp_sameFiles ht stop _

/-- A copy takes the bytes of the source to the target, or, when that is a directory, into it under
the last name of the source. -/
theorem copy_inv (ht : t.WellFormed) (hsource : AreProper source) (hne : source ≠ [])
    (htarget : AreProper target) (hcopy : t.copy source target = .ok t') :
    ∃ bytes place, t.bytesAt source = some bytes ∧
      (place = target ∨ place = target ++ [source.getLast hne]) ∧
      t.ChangesAt t' place ∧ t'.bytesAt place = some bytes := by
  obtain ⟨inside, _, hcopied⟩ := bind_eq_ok.mp hcopy
  have hlast : (source.getLast?.getD "" : Text) = source.getLast hne := by
    simp [getLast?_eq_getLast_of_ne_nil hne]
  cases inside with
  | true =>
    have hplace : AreProper (target ++ [source.getLast hne]) :=
      htarget.append (AreProper.singleton (hsource _ (getLast_mem hne)))
    simp only [if_true, hlast] at hcopied
    split at hcopied
    · cases hcopied
    · obtain ⟨bytes, hread, hwrite⟩ := bind_eq_ok.mp hcopied
      exact ⟨bytes, _, readFile_inv hsource hread, .inr rfl, writeFile_inv ht hplace hwrite⟩
  | false =>
    simp only [Bool.false_eq_true, if_false] at hcopied
    split at hcopied
    · cases hcopied
    · obtain ⟨bytes, hread, hwrite⟩ := bind_eq_ok.mp hcopied
      exact ⟨bytes, _, readFile_inv hsource hread, .inl rfl, writeFile_inv ht htarget hwrite⟩

end Files

/-- Two trees with files and directories at the same locations. -/
def SameShape (t t' : FileTree) : Prop :=
  ∀ location, t'.get? location = t.get? location ∨
    ∃ bytes bytes', t.get? location = some (.file bytes) ∧ t'.get? location = some (.file bytes')

section Shape

variable {t t' : FileTree} (h : t.SameShape t')
include h

theorem SameShape.walk_eq (here names : List Text) : t'.walk here names = t.walk here names := by
  induction names generalizing here with
  | nil => rfl
  | cons name rest ih =>
    rcases h here with hsame | ⟨bytes, bytes', hbefore, hafter⟩
    · simp only [walk, hsame, ih]
    · simp only [walk, hbefore, hafter]

theorem SameShape.exists?_eq (path : List Text) : t'.exists? path = t.exists? path := by
  have hlocate : t'.locate path = t.locate path := by simp only [locate, h.walk_eq]
  unfold exists? entry?
  rw [hlocate]
  split
  · rename_i location _
    rcases h location with hsame | ⟨bytes, bytes', hbefore, hafter⟩
    · rw [hsame]
    · simp [hbefore, hafter, Except.map]
  · rfl
  · rfl

end Shape

variable {t t' : FileTree} {path place : List Text}

theorem makeDirs_eq_madeDir (hne : path ≠ []) (h : t.makeDir path ≠ .error .notFound) :
    t.makeDirs path = t.madeDir path := by
  obtain ⟨name, above, hreverse⟩ := exists_cons_of_ne_nil (reverse_ne_nil_iff.mpr hne)
  have hpath : (name :: above).reverse = path := by rw [← hreverse, reverse_reverse]
  rw [makeDirs, hreverse, makeDirsUp, hpath]
  split
  · contradiction
  · rfl

theorem makeDirs_of_found (hlocate : t.locate path = .ok place)
    (hdir : t.get? place = some .dir) : t.makeDirs path = .ok t := by
  by_cases hne : path = []
  · rw [hne]
    rfl
  have hmade : t.makeDir path = .error .alreadyExists := by
    simp [makeDir, hlocate, hdir, bind, Except.bind, throw, throwThe, MonadExceptOf.throw]
  have hisDir : t.isDir? path = .ok true := by
    simp [isDir?, entry?, hlocate, hdir, Except.map]
  rw [makeDirs_eq_madeDir hne (by simp [hmade])]
  simp only [madeDir, hmade, hisDir]

theorem makeDirs_of_dir (ht : t.WellFormed) (hdir : t.get? path = some .dir)
    (hmake : t.makeDirs path = .ok t') : t' = t := by
  rcases ht.locate_of_get? hdir with hlocate | ⟨hlocate, -⟩
  · exact Except.ok.inj (hmake.symm.trans (makeDirs_of_found hlocate hdir))
  by_cases hne : path = []
  · rw [hne] at hmake
    exact (Except.ok.inj hmake).symm
  have hmade : t.makeDir path = .error .nameTooLong := by
    simp [makeDir, hlocate, bind, Except.bind]
  have hisDir : t.isDir? path = .error .nameTooLong := by
    simp [isDir?, entry?, hlocate, Except.map]
  rw [makeDirs_eq_madeDir hne (by simp [hmade])] at hmake
  simp [madeDir, hmade, hisDir] at hmake

theorem write_sameShape (ht : t.WellFormed) (hproper : AreProper path) {bytes : ByteArray}
    {text : Text} (hfile : t.get? path = some (.file bytes))
    (hwrite : t.write path text = .ok t') : t.SameShape t' := by
  have hne : path ≠ [] := by
    rintro rfl
    cases hfile
  obtain ⟨u, hmake, hwritten⟩ := bind_eq_ok.mp hwrite
  obtain rfl := makeDirs_of_dir ht (ht.get?_dropLast hfile) hmake
  unfold writeText at hwritten
  split at hwritten
  · rename_i new _
    obtain ⟨location, hlocate, hput⟩ := bind_eq_ok.mp (mapError_eq_ok.mp hwritten)
    obtain rfl := locate_eq hproper hlocate
    rw [hfile] at hput
    cases hput
    intro other
    by_cases hother : other = location
    · subst hother
      exact .inr ⟨bytes, new, hfile, get?_put_self u _ hne⟩
    · exact .inl (get?_put_ne u _ hother)
  · obtain ⟨_, _, hthrow⟩ := bind_eq_ok.mp hwritten
    cases hthrow

end FileTree

end AgentConfig
