import AgentConfig.Proofs.FileTree.Success
import AgentConfig.Proofs.Text.Order
import Mathlib.Data.List.Nodup

namespace AgentConfig

open List AgentConfig.Path Text

namespace TreeChange

/-- Whether a change fails, and then whether it is the file system that refuses it. -/
def refusal? : TreeChange → Option Bool
  | .ok _ => none
  | .error (fault, _) => some fault.isSystem

/-- Two changes succeed both, or fail both for like reasons, and leave trees of a certain kind. -/
structure Alike (r : FileTree → FileTree → Prop) (c d : TreeChange) : Prop where
  tree : r c.tree d.tree
  refusal : c.refusal? = d.refusal?

variable {r : FileTree → FileTree → Prop} {c c' d d' : TreeChange}

theorem Alike.congr (h : Alike r c d) (hc : Alike Eq c' c) (hd : Alike Eq d' d) : Alike r c' d' :=
  ⟨by rw [hc.tree, hd.tree]; exact h.tree, by rw [hc.refusal, hd.refusal, h.refusal]⟩

theorem Alike.bind {f g : FileTree → TreeChange} (h : Alike r c d)
    (hnext : ∀ {t u}, c = .ok t → d = .ok u → r t u → Alike r (f t) (g u)) :
    Alike r (c >>= f) (d >>= g) := by
  obtain ⟨htree, hrefusal⟩ := h
  cases c <;> cases d
  · exact ⟨htree, hrefusal⟩
  · cases hrefusal
  · cases hrefusal
  · exact hnext rfl rfl htree

theorem Alike.eq_ok {t : FileTree} (h : Alike Eq c d) (hd : d = .ok t) : c = .ok t := by
  subst hd
  obtain ⟨htree, hrefusal⟩ := h
  cases c with
  | error e => cases hrefusal
  | ok u => exact congrArg Except.ok htree

theorem Alike.step {t u : FileTree} {x y : Except FileFault FileTree} (v : FileTree) (h : r t u)
    (hy : y = x.map fun _ => v) (hok : ∀ t', x = .ok t' → r t' v) :
    Alike r (t.step x) (u.step y) := by
  subst hy
  cases x with
  | error fault => exact ⟨h, rfl⟩
  | ok t' => exact ⟨hok t' rfl, rfl⟩

end TreeChange

namespace FileTree

variable {t u : FileTree} {path location here names : List Text} {fault : FileFault} {name : Text}

theorem WellFormed.get?_of_prefix (ht : t.WellFormed) (hdir : t.get? location = some .dir)
    {above : List Text} (hway : above <+: location) : t.get? above = some .dir := by
  obtain ⟨rest, rfl⟩ := hway
  by_cases hnil : rest = []
  · rwa [hnil, append_nil] at hdir
  · exact ht.get?_above hnil hdir

/-- Names that files can have make a path that is short enough. -/
def Fits (path : List Text) : Prop :=
  (∀ name ∈ path, IsFileName name) ∧ utf8Size (absolute path) < maxPathBytes

theorem Fits.above {above : List Text} (h : Fits (above ++ [name])) : Fits above :=
  ⟨fun other hother => h.1 other (mem_append_left _ hother),
    Nat.lt_of_le_of_lt (utf8Size_absolute_le above [name]) h.2⟩

theorem locate_of_fits (hfits : Fits path) : t.locate path = t.walk [] path := by
  obtain ⟨hmap, hzero⟩ := mapM_of_isFileName hfits.1
  simp only [locate, hmap, hzero, Bool.false_eq_true, if_false, ge_iff_le, Nat.not_le.mpr hfits.2]

theorem madeDir_of_locate_error (hlocate : t.locate path = .error fault) :
    t.madeDir path = .error (fault, t) := by
  have hdir : t.isDir? path ≠ .ok true := by
    unfold isDir? entry?
    rw [hlocate]
    cases fault <;> simp [Except.map]
  have hmake : t.makeDir path = .error fault := by simp [makeDir, hlocate, bind, Except.bind]
  unfold madeDir
  rw [hmake]
  split
  · cases ‹_›
  · cases ‹_›
    rfl
  · cases ‹_›
    split
    · contradiction
    · rfl

theorem makeDirs_of_locate_error (hlocate : t.locate path = .error fault)
    (hfault : fault ≠ .notFound) : t.makeDirs path = .error (fault, t) := by
  have hne : path ≠ [] := by
    rintro rfl
    cases hlocate
  rw [makeDirs_eq_madeDir hne (by simpa [makeDir, hlocate, bind, Except.bind] using hfault),
    madeDir_of_locate_error hlocate]

theorem makeDirs_of_not_fits (hproper : AreProper path) (hfits : ¬ Fits path) :
    ∃ fault, ∀ t : FileTree, t.makeDirs path = .error (fault, t) := by
  obtain ⟨fault, hfault, hlocate⟩ : ∃ fault, fault ≠ .notFound ∧
      ∀ t : FileTree, t.locate path = .error fault := by
    cases hmap : path.mapM fileName? with
    | none => exact ⟨.halfCharacter, by simp, fun t => by simp [locate, hmap]⟩
    | some names =>
      by_cases hzero : path.any (·.contains (.char '\x00')) = true
      · exact ⟨.zeroInName, by simp, fun t => by simp only [locate, hmap, hzero, if_true]⟩
      · refine ⟨.nameTooLong, by simp, fun t => ?_⟩
        have hlong : utf8Size (absolute path) ≥ maxPathBytes := by
          by_contra hshort
          refine hfits ⟨fun name hname => ⟨hproper name hname,
            (mapM_fileName? hproper hmap).2 name hname, ?_⟩, Nat.lt_of_not_le hshort⟩
          simp only [Bool.not_eq_true, any_eq_false] at hzero
          simpa using hzero name hname
        simp only [locate, hmap, if_neg hzero, if_pos hlong]
  exact ⟨fault, fun t => makeDirs_of_locate_error (hlocate t) hfault⟩

theorem madeDir_ok (hproper : AreProper path) (ht : t.WellFormed) (hmade : t.madeDir path = .ok u) :
    u.get? path = some .dir := by
  unfold madeDir at hmade
  split at hmade
  · cases hmade
    obtain ⟨location, hlocate, hnone, rfl⟩ := makeDir_put ‹_›
    obtain rfl := locate_eq hproper hlocate
    exact get?_put_self t .dir (ne_nil_of_get?_ne (t := t) (by simp [hnone]))
  · cases hmade
  · split at hmade
    · cases hmade
      obtain ⟨found, hentry, hdir⟩ := Outcome.map_eq_ok.mp ‹_›
      exact ((ht.entry?_eq_some_iff hproper).mp (beq_iff_eq.mp hdir ▸ hentry)).1
    · cases hmade

theorem makeDirs_ok (ht : t.WellFormed) (hproper : AreProper path)
    (hmake : t.makeDirs path = .ok u) : u.get? path = some .dir := by
  rcases eq_nil_or_concat path with rfl | ⟨above, name, rfl⟩
  · rfl
  rw [concat_eq_append] at hproper hmake ⊢
  have hgrown := makeDirs_growsTo ht (hproper.of_subset (subset_append_left above [name]))
  unfold makeDirs at hmake hgrown
  rw [reverse_append, reverse_singleton, singleton_append, makeDirsUp, reverse_cons,
    reverse_reverse] at hmake
  split at hmake
  · obtain ⟨v, hv, hmade⟩ := Outcome.bind_eq_ok.mp hmake
    rw [hv] at hgrown
    exact madeDir_ok hproper hgrown.wellFormed hmade
  · exact madeDir_ok hproper ht hmake

theorem makeDirs_concat {above : List Text} (hproper : AreProper (above ++ [name]))
    (hfits : Fits (above ++ [name])) :
    TreeChange.Alike Eq (t.makeDirs (above ++ [name]))
      (t.makeDirs above >>= fun u => u.madeDir (above ++ [name])) := by
  have hlocated : t.locate (above ++ [name]) =
      t.locate above >>= fun place => t.walk place [name] := by
    rw [locate_of_fits hfits, locate_of_fits hfits.above, walk_append]
  by_cases hmissing : t.makeDir (above ++ [name]) = .error .notFound
  · unfold makeDirs
    rw [reverse_append, reverse_singleton, singleton_append, makeDirsUp, reverse_cons,
      reverse_reverse, hmissing]
    exact ⟨rfl, rfl⟩
  rw [makeDirs_eq_madeDir (by simp) hmissing]
  have hfault {fault : FileFault} (h : t.locate (above ++ [name]) = .error fault) :
      fault ≠ .notFound := by
    rintro rfl
    exact hmissing (by simp [makeDir, h, bind, Except.bind])
  cases habove : t.locate above with
  | error fault =>
    rw [habove] at hlocated
    rw [madeDir_of_locate_error hlocated, makeDirs_of_locate_error habove (hfault hlocated)]
    exact ⟨rfl, rfl⟩
  | ok place =>
    obtain rfl := locate_eq (hproper.of_subset (subset_append_left above [name])) habove
    rw [habove] at hlocated
    simp only [bind, Except.bind, walk] at hlocated
    cases hget : t.get? place with
    | none =>
      rw [hget] at hlocated
      exact absurd rfl (hfault hlocated)
    | some entry =>
      rw [hget] at hlocated
      cases entry with
      | dir =>
        rw [makeDirs_of_found habove hget]
        exact ⟨rfl, rfl⟩
      | file bytes =>
        -- A file in the way is refused under two names.
        have hne : place ≠ [] := ne_nil_of_get?_ne (t := t) (by simp [hget])
        have hmake : t.makeDir place = .error .alreadyExists := by
          simp [makeDir, habove, hget, bind, Except.bind, throw, throwThe, MonadExceptOf.throw]
        have hfile : t.makeDirs place = .error (.alreadyExists, t) := by
          rw [makeDirs_eq_madeDir hne (by simp [hmake])]
          simp [madeDir, hmake, isDir?, entry?, habove, hget, Except.map]
        rw [madeDir_of_locate_error hlocated, hfile]
        exact ⟨rfl, rfl⟩

theorem madeDir_cases (ht : t.WellFormed) (hproper : AreProper path)
    (hlocate : t.locate path = .ok path) :
    (∃ bytes, t.bytesAt path = some bytes ∧ t.madeDir path = .error (.alreadyExists, t)) ∨
      (t.bytesAt path = none ∧ ∃ u, t.madeDir path = .ok u ∧ t.GrowsTo u ∧
        ∀ {place}, place ≠ path → u.get? place = t.get? place) := by
  cases hget : t.get? path with
  | none =>
    have hmake : t.makeDir path = .ok (t.put path .dir) := by
      simp [makeDir, hlocate, hget, bind, Except.bind, pure, Except.pure]
    exact .inr ⟨by simp [bytesAt, hget], t.put path .dir, by simp [madeDir, hmake],
      makeDir_growsTo ht hproper hmake, get?_put_ne t .dir⟩
  | some entry =>
    have hmake : t.makeDir path = .error .alreadyExists := by
      simp [makeDir, hlocate, hget, bind, Except.bind, throw, throwThe, MonadExceptOf.throw]
    cases entry with
    | file bytes =>
      refine .inl ⟨bytes, bytesAt_eq_some_iff.mpr hget, ?_⟩
      simp [madeDir, hmake, isDir?, entry?, hlocate, hget, Except.map]
    | dir =>
      refine .inr ⟨bytesAt_of_dir hget, t, ?_, .refl ht, fun _ => rfl⟩
      simp [madeDir, hmake, isDir?, entry?, hlocate, hget, Except.map]

/-- A text that a file can hold can be written, and the directory of the file made for it, if that
above is there and nothing is in the way. -/
theorem WellFormed.exists_write {above : List Text} {directory text : Text} {bytes : ByteArray}
    (ht : t.WellFormed) (hshort : ¬ IsTooLong (above ++ [directory, name]))
    (hnames : ∀ other ∈ above ++ [directory, name], IsFileName other)
    (habove : t.get? above = some .dir) (hclear : t.bytesAt (above ++ [directory]) = none)
    (hfree : t.get? (above ++ [directory, name]) ≠ some .dir) (hbytes : bytes? text = some bytes) :
    ∃ u, t.write (above ++ [directory, name]) text = .ok u := by
  rw [append_cons] at hshort hnames hfree ⊢
  have hnames' : ∀ other ∈ above ++ [directory], IsFileName other := fun other hother =>
    hnames other (mem_append_left _ hother)
  have hproper : AreProper (above ++ [directory]) := fun other hother => (hnames' other hother).1
  have hshort' := not_isTooLong_dropLast hshort
  rw [dropLast_concat] at hshort'
  have hfits : Fits (above ++ [directory]) :=
    ⟨hnames', Nat.lt_of_not_le fun hlong => hshort' (.inl hlong)⟩
  rcases madeDir_cases ht hproper (ht.locate_eq_ok hshort' hnames' (by rwa [dropLast_concat]))
    with ⟨_, hfile, -⟩ | ⟨-, u, hmade, hgrown, hsame⟩
  · cases hclear.symm.trans hfile
  have hmake : t.makeDirs (above ++ [directory]) = .ok u := by
    have halike := makeDirs_concat (t := t) hproper hfits
    have hshort'' := not_isTooLong_dropLast hshort'
    rw [dropLast_concat] at hshort''
    rw [ht.makeDirs_eq hshort'' habove] at halike
    exact halike.eq_ok hmade
  have hdir := madeDir_ok hproper ht hmade
  have hwrite := hgrown.wellFormed.write_eq hshort hnames (by rwa [dropLast_concat])
    (by rwa [hsame (by simp)]) hbytes
  rw [write, dropLast_concat, hgrown.wellFormed.makeDirs_eq hshort' hdir] at hwrite
  rw [write, dropLast_concat, hmake]
  exact ⟨_, hwrite⟩

section Alike

variable {t u : FileTree}

private theorem walk_tooLong {here names : List Text} (hproper : AreProper names)
    (hdirs : ∀ location, location <+: here ++ names → t.get? location = some .dir →
      u.get? location = some .dir)
    (hwalk : t.walk here names = .error .nameTooLong) :
    u.walk here names = .error .nameTooLong := by
  induction names generalizing here with
  | nil => cases hwalk
  | cons name rest ih =>
    have hname : name ≠ ".." := (hproper name (by simp)).ne_up
    simp only [walk, hname, if_false] at hwalk ⊢
    split at hwalk
    · cases hwalk
    · cases hwalk
    rename_i hdir
    rw [hdirs here (prefix_append _ _) hdir]
    split at hwalk
    · rw [if_pos ‹_›]
    · rw [if_neg ‹_›]
      refine ih hproper.tail ?_ hwalk
      rwa [append_assoc, singleton_append]

/-- A path that can be looked along can be looked along in a tree whose directories on the way are
among those of the first. -/
theorem WellFormed.entry?_of_dirs (ht : t.WellFormed) {path : List Text} (hproper : AreProper path)
    (hdirs : ∀ location, location <+: path → t.get? location = some .dir →
      u.get? location = some .dir)
    {found : Option FileEntry} (hentry : u.entry? path = .ok found) :
    t.entry? path = .ok (t.get? path) := by
  have hlocate (hlong : t.locate path = .error .nameTooLong) :
      u.locate path = .error .nameTooLong := by
    unfold locate at hlong ⊢
    split at hlong
    · cases hlong
    rename_i names hnames
    obtain rfl : names = path := (mapM_fileName? hproper hnames).1
    split at hlong
    · cases hlong
    rw [if_neg ‹_›]
    split at hlong
    · rw [if_pos ‹_›]
    · rw [if_neg ‹_›]
      exact walk_tooLong hproper hdirs hlong
  cases h : t.entry? path with
  | ok found' => rw [ht.entry?_eq hproper h]
  | error fault =>
    unfold entry? at h hentry
    split at h
    · cases h
    · rw [hlocate ‹_›] at hentry
      cases hentry
    · cases h

theorem WellFormed.nodup_children (ht : t.WellFormed) (base : List Text) :
    (t.children base).Nodup := by
  refine ((mergeSort_perm _ _).nodup_iff).mpr ?_
  have hlocations := ht.nodup
  rw [Nodup, pairwise_map] at hlocations
  refine pairwise_filterMap.mpr (hlocations.imp ?_)
  rintro ⟨location, entry⟩ ⟨location', entry'⟩ hne name hname name' hname' rfl
  split at hname
  · rename_i only hbelow
    cases hname
    split at hname'
    · rename_i only' hbelow'
      cases hname'
      exact hne ((below?_eq_some_iff.mp hbelow).2.trans (below?_eq_some_iff.mp hbelow').2.symm)
    · cases hname'
  · cases hname

theorem WellFormed.nodup_filesBelow (ht : t.WellFormed) (base : List Text) :
    (t.filesBelow base).Nodup := by
  refine ((mergeSort_perm _ _).nodup_iff).mpr ?_
  refine Nodup.filterMap ?_ (Nodup.of_map _ ht.nodup)
  rintro ⟨location, entry⟩ ⟨location', entry'⟩ ⟨names, bytes⟩ h h'
  split at h
  · rename_i hbelow hfile
    split at h'
    · rename_i hbelow' hfile'
      cases h
      cases h'
      obtain rfl : location = base ++ names := (below?_eq_some_iff.mp hbelow).2
      obtain rfl : location' = base ++ names := (below?_eq_some_iff.mp hbelow').2
      rw [Prod.mk.injEq]
      exact ⟨rfl, hfile.trans hfile'.symm⟩
    · cases h'
  · cases h

theorem pairwise_filesBelow (t : FileTree) (base : List Text) :
    (t.filesBelow base).Pairwise fun a b => Path.le a.1 b.1 = true := by
  refine pairwise_mergeSort ?_ ?_ _
  · exact fun _ _ _ => Path.le_trans
  · exact fun a b => Path.le_total a.1 b.1

theorem WellFormed.filesBelow_congr (ht : t.WellFormed) (hu : u.WellFormed) {base : List Text}
    (hsame : ∀ names, names ≠ [] → u.bytesAt (base ++ names) = t.bytesAt (base ++ names)) :
    u.filesBelow base = t.filesBelow base := by
  have hmem (file : List Text × ByteArray) :
      file ∈ u.filesBelow base ↔ file ∈ t.filesBelow base := by
    rw [hu.mem_filesBelow_iff, ht.mem_filesBelow_iff]
    refine and_congr_right fun hne => ?_
    rw [← bytesAt_eq_some_iff, ← bytesAt_eq_some_iff, hsame _ hne]
  have hperm : (u.filesBelow base).Perm (t.filesBelow base) :=
    (perm_ext_iff_of_nodup (hu.nodup_filesBelow base) (ht.nodup_filesBelow base)).mpr hmem
  refine hperm.eq_of_pairwise ?_ (pairwise_filesBelow u base) (pairwise_filesBelow t base)
  rintro ⟨names, bytes⟩ ⟨names', bytes'⟩ ha hb hle hle'
  obtain rfl : names = names' := Path.le_antisymm hle hle'
  have hfile := (ht.mem_filesBelow_iff.mp ((hmem _).mp ha)).2
  rw [(ht.mem_filesBelow_iff.mp hb).2] at hfile
  cases hfile
  rfl

end Alike

end FileTree

end AgentConfig
