import AgentConfig.Proofs.FileTree.Change

namespace AgentConfig

open List Text

variable {above here names path : List Text}

namespace Text

theorem utf8Size_cons (l : Letter) (t : Text) : utf8Size (l :: t) = l.utf8Size + utf8Size t := by
  rw [utf8Size, map_cons, foldl_cons, Nat.zero_add, ← Nat.add_zero l.utf8Size,
    foldl_assoc, Nat.add_zero]
  rfl

theorem utf8Size_append (a b : Text) : utf8Size (a ++ b) = utf8Size a + utf8Size b := by
  induction a with
  | nil => exact (Nat.zero_add _).symm
  | cons l a ih => rw [cons_append, utf8Size_cons, utf8Size_cons, ih, Nat.add_assoc]

end Text

namespace FileTree

private theorem utf8Size_intercalate_le (above below : List Text) :
    utf8Size (Text.intercalate "/" above) ≤
      utf8Size (Text.intercalate "/" (above ++ below)) := by
  unfold Text.intercalate
  induction above with
  | nil => exact Nat.zero_le _
  | cons name rest ih =>
    cases rest with
    | nil =>
      cases below with
      | nil => exact Nat.le_refl _
      | cons next more =>
        rw [cons_append, nil_append, intercalate_cons_cons,
          intercalate_singleton, utf8Size_append, utf8Size_append]
        omega
    | cons next more =>
      rw [cons_append] at ih
      rw [cons_append, cons_append, intercalate_cons_cons,
        intercalate_cons_cons, utf8Size_append, utf8Size_append,
        utf8Size_append, utf8Size_append]
      omega

theorem utf8Size_absolute_le (above below : List Text) :
    utf8Size (Path.absolute above) ≤ utf8Size (Path.absolute (above ++ below)) := by
  rw [Path.absolute, Path.absolute, utf8Size_append, utf8Size_append]
  exact Nat.add_le_add_left (utf8Size_intercalate_le above below) _

theorem IsTooLong.append (h : IsTooLong above) (below : List Text) :
    IsTooLong (above ++ below) := by
  rcases h with hlong | ⟨name, hname, hlong⟩
  · exact .inl (Nat.le_trans hlong (utf8Size_absolute_le above below))
  · exact .inr ⟨name, mem_append_left _ hname, hlong⟩

theorem not_isTooLong_dropLast (h : ¬ IsTooLong path) : ¬ IsTooLong path.dropLast := by
  by_cases hne : path = []
  · rwa [hne] at h ⊢
  intro hlong
  have happend := hlong.append [path.getLast hne]
  rw [dropLast_append_getLast] at happend
  exact h happend

private theorem walk_ne_nameTooLong {t : FileTree} (hproper : Path.AreProper names)
    (hshort : ∀ name ∈ names, utf8Size name ≤ maxNameBytes) :
    t.walk here names ≠ .error .nameTooLong := by
  induction names generalizing here with
  | nil => simp [walk]
  | cons name rest ih =>
    have hname : name ≠ ".." := (hproper name mem_cons_self).ne_up
    have hfits : ¬ utf8Size name > maxNameBytes :=
      Nat.not_lt.mpr (hshort name mem_cons_self)
    simp only [walk, hname, hfits, if_false]
    split
    · simp
    · simp
    · exact ih hproper.tail fun other hother =>
        hshort other (mem_cons_of_mem _ hother)

theorem exists_entry? (t : FileTree) (hproper : Path.AreProper path)
    (hshort : ¬ IsTooLong path) : ∃ found, t.entry? path = .ok found := by
  have hlocate : t.locate path ≠ .error .nameTooLong := by
    unfold locate
    split
    · nofun
    rename_i names hnames
    obtain ⟨rfl, -⟩ := mapM_fileName? hproper hnames
    split
    · nofun
    · rw [if_neg fun hlong => hshort (.inl hlong)]
      exact walk_ne_nameTooLong hproper fun name hname =>
        Nat.le_of_not_lt fun hlong => hshort (.inr ⟨name, hname, hlong⟩)
  unfold entry?
  split
  · exact ⟨_, rfl⟩
  · exact absurd ‹_› hlocate
  · exact ⟨none, rfl⟩

namespace WellFormed

variable {t : FileTree} (ht : t.WellFormed) {path : List Text} (hshort : ¬ IsTooLong path)
  {bytes old : ByteArray} {text : Text} {entry : FileEntry}
include ht hshort

theorem locate_eq_ok (hnames : ∀ name ∈ path, IsFileName name)
    (habove : t.get? path.dropLast = some .dir) : t.locate path = .ok path :=
  (ht.locate_of_above hnames habove).resolve_right fun h => hshort h.2

theorem locate_eq_self (hget : t.get? path = some entry) : t.locate path = .ok path :=
  ht.locate_eq_ok hshort (ht.isFileName hget) (ht.get?_dropLast hget)

theorem isDir?_eq_false (hnames : ∀ name ∈ path, IsFileName name)
    (habove : t.get? path.dropLast = some .dir) (hnone : t.get? path = none) :
    t.isDir? path = .ok false := by
  simp [isDir?, entry?, ht.locate_eq_ok hshort hnames habove, hnone, Except.map]

theorem exists?_eq_true (hget : t.get? path = some entry) : t.exists? path = .ok true := by
  simp [exists?, entry?, ht.locate_eq_self hshort hget, hget, Except.map]

theorem readFile_eq (hfile : t.bytesAt path = some bytes) : t.readFile path = .ok bytes := by
  have hget := bytesAt_eq_some_iff.mp hfile
  simp [readFile, ht.locate_eq_self hshort hget, hget, bind, Except.bind, pure, Except.pure]

theorem unlink_eq (hfile : t.bytesAt path = some bytes) : t.unlink path = .ok (t.erase path) :=
  have hget := bytesAt_eq_some_iff.mp hfile
  unlink_of_get? hget (ht.locate_eq_self hshort hget)

theorem makeDirs_eq (hdir : t.get? path = some .dir) : t.makeDirs path = .ok t :=
  makeDirs_of_found (ht.locate_eq_self hshort hdir) hdir

theorem write_eq (hnames : ∀ name ∈ path, IsFileName name)
    (habove : t.get? path.dropLast = some .dir) (hfile : t.get? path ≠ some .dir)
    (hbytes : bytes? text = some bytes) :
    t.write path text = .ok (t.put path (.file bytes)) := by
  have hdirs := ht.makeDirs_eq (not_isTooLong_dropLast hshort) habove
  have hlocate := ht.locate_eq_ok hshort hnames habove
  have hwrite : t.writeFile path bytes = .ok (t.put path (.file bytes)) := by
    simp [writeFile, hlocate, hfile, bind, Except.bind, pure, Except.pure]
  rw [write, hdirs]
  simp [writeText, hbytes, step, hwrite, bind, Except.bind, Except.mapError]

theorem overwrite_eq (hold : t.bytesAt path = some old) (hbytes : bytes? text = some bytes) :
    t.write path text = .ok (t.put path (.file bytes)) := by
  have hget := bytesAt_eq_some_iff.mp hold
  exact ht.write_eq hshort (ht.isFileName hget) (ht.get?_dropLast hget) (by simp [hget]) hbytes

theorem write_same (hold : t.bytesAt path = some bytes) (hbytes : bytes? text = some bytes) :
    ∃ t', t.write path text = .ok t' ∧ ∀ location, t'.get? location = t.get? location := by
  have hget := bytesAt_eq_some_iff.mp hold
  refine ⟨_, ht.overwrite_eq hshort hold hbytes, fun location => ?_⟩
  by_cases heq : location = path
  · rw [heq, get?_put_self _ _ (ne_nil_of_get?_ne (t := t) (by simp [hget])), hget]
  · rw [get?_put_ne _ _ heq]

end WellFormed

end FileTree

end AgentConfig

namespace AgentConfig.FileTree

open List Outcome

variable {t u t' : FileTree} {path location above here names source target : List Text}
  {text name : Text} {fault : FileFault} {old bytes : ByteArray}

theorem bytesAt_makeDirs (t : FileTree) (path place : List Text) :
    (t.makeDirs path).tree.bytesAt place = t.bytesAt place := by
  refine makeDirs_induct (fun t t' => t'.bytesAt place = t.bytesAt place) (fun _ => rfl)
    (fun h h' => h'.trans h) fun {t _ _} _ hmake => ?_
  obtain ⟨location, -, hnone, rfl⟩ := makeDir_put hmake
  by_cases hplace : place = location
  · have hne : location ≠ [] := ne_nil_of_get?_ne (t := t) (by simp [hnone])
    simp [bytesAt, hplace, get?_put_self _ _ hne, hnone]
  · exact bytesAt_congr (get?_put_ne _ _ hplace)

theorem bytesAt_of_write_refused
    (hwrite : t.write path text = .error (fault, t')) (hsystem : fault.isSystem = true)
    (place : List Text) : t'.bytesAt place = t.bytesAt place := by
  have hmade := bytesAt_makeDirs t path.dropLast place
  rcases bind_eq_error.mp hwrite with hmake | ⟨u, hmake, hwrite⟩
  · rw [hmake] at hmade
    exact hmade
  rw [hmake] at hmade
  rw [← show u.bytesAt place = t.bytesAt place from hmade]
  unfold writeText at hwrite
  split at hwrite
  · obtain ⟨_, -, heq⟩ := mapError_eq_error.mp hwrite
    rw [← (Prod.mk.inj heq).2]
  rcases bind_eq_error.mp hwrite with hstep | ⟨v, -, hhalf⟩
  · obtain ⟨_, -, heq⟩ := mapError_eq_error.mp hstep
    rw [← (Prod.mk.inj heq).2]
  · obtain ⟨rfl, -⟩ := Prod.mk.inj (Except.error.inj hhalf)
    cases hsystem

theorem walk_of_dirs (hdirs : ∀ place, t.get? place = some .dir → u.get? place = some .dir)
    (hwalk : t.walk here names = .ok location) : u.walk here names = .ok location := by
  induction names generalizing here with
  | nil => exact hwalk
  | cons name rest ih =>
    unfold walk at hwalk ⊢
    split at hwalk
    · cases hwalk
    · cases hwalk
    rename_i hdir
    rw [hdirs here hdir]
    split at hwalk
    · rename_i hup
      rw [if_pos hup]
      exact ih hwalk
    rename_i hup
    rw [if_neg hup]
    split at hwalk
    · cases hwalk
    · rename_i hshort
      rw [if_neg hshort]
      exact ih hwalk

theorem locate_eq_ok_iff : t.locate path = .ok location ↔
      ∃ names, path.mapM Text.fileName? = some names ∧
        (path.any fun name => name.contains (.char '\x00')) = false ∧
        Text.utf8Size (Path.absolute path) < maxPathBytes ∧ t.walk [] names = .ok location := by
  unfold locate
  cases path.mapM Text.fileName? with
  | none => simp
  | some names =>
    generalize (path.any fun name => name.contains (.char '\x00')) = zero
    cases zero with
    | true => simp
    | false =>
      by_cases hshort : Text.utf8Size (Path.absolute path) < maxPathBytes
      · simp [hshort, Nat.not_le.mpr hshort]
      · simp [hshort, Nat.not_lt.mp hshort]

theorem locate_of_dirs (hdirs : ∀ place, t.get? place = some .dir → u.get? place = some .dir)
    (hlocate : t.locate path = .ok location) :
    u.locate path = .ok location := by
  obtain ⟨names, hnames, hzero, hshort, hwalk⟩ := locate_eq_ok_iff.mp hlocate
  exact locate_eq_ok_iff.mpr ⟨names, hnames, hzero, hshort, walk_of_dirs hdirs hwalk⟩

theorem walk_append (t : FileTree) (here names more : List Text) :
    t.walk here (names ++ more) = t.walk here names >>= fun place => t.walk place more := by
  induction names generalizing here with
  | nil => rfl
  | cons name rest ih =>
    simp only [cons_append, walk, ih]
    split
    · rfl
    · rfl
    split
    · rfl
    split <;> rfl

theorem locate_above (hlocate : t.locate (above ++ [name]) = .ok location) :
    ∃ place, t.locate above = .ok place ∧ t.get? place = some .dir := by
  obtain ⟨names, hnames, hzero, hshort, hwalk⟩ := locate_eq_ok_iff.mp hlocate
  rw [mapM_append, mapM_cons, mapM_nil] at hnames
  obtain ⟨front, hfront, hnames⟩ := Option.bind_eq_some_iff.mp hnames
  obtain ⟨last, hlast, hnames⟩ := Option.bind_eq_some_iff.mp hnames
  obtain ⟨final, -, hfinal⟩ := Option.bind_eq_some_iff.mp hlast
  cases hfinal
  cases hnames
  rw [walk_append] at hwalk
  obtain ⟨place, hplace, hwalk⟩ := bind_eq_ok.mp hwalk
  have hdir : t.get? place = some .dir := by
    unfold walk at hwalk
    split at hwalk
    · cases hwalk
    · cases hwalk
    · assumption
  rw [any_append, Bool.or_eq_false_iff] at hzero
  have hsize := utf8Size_absolute_le above [name]
  exact ⟨place, locate_eq_ok_iff.mpr ⟨front, hfront, hzero.1, by omega, hplace⟩, hdir⟩

theorem makeDirs_of_locate (hlocate : t.locate path = .ok location) :
    t.makeDirs path.dropLast = .ok t := by
  rcases eq_nil_or_concat path with rfl | ⟨above, name, rfl⟩
  · rfl
  rw [concat_eq_append] at hlocate ⊢
  obtain ⟨place, hplace, hdir⟩ := locate_above hlocate
  rw [dropLast_concat]
  exact makeDirs_of_found hplace hdir

theorem write_of_locate
    (hlocate : t.locate path = .ok location) (hold : t.get? location = some (.file old))
    (hwrite : t.write path text = .error (fault, t')) : fault.isSystem = false := by
  have hwriteFile (bytes : ByteArray) :
      t.step (t.writeFile path bytes) = .ok (t.put location (.file bytes)) := by
    simp [step, writeFile, hlocate, hold, bind, Except.bind, Except.mapError, pure, Except.pure]
  unfold write at hwrite
  rw [makeDirs_of_locate hlocate] at hwrite
  change t.writeText path text = _ at hwrite
  unfold writeText at hwrite
  split at hwrite
  · rw [hwriteFile] at hwrite
    cases hwrite
  · rw [hwriteFile] at hwrite
    cases hwrite
    rfl

theorem unlink_of_locate (hlocate : t.locate path = .ok location)
    (hold : t.get? location = some (.file old)) : t.unlink path = .ok (t.erase location) := by
  simp [unlink, hlocate, hold, bind, Except.bind, pure, Except.pure]

theorem locate_of_copy (hcopy : t.copy source target = .ok t') :
    ∃ location bytes, t'.locate source = .ok location ∧ t'.get? location = some (.file bytes) := by
  obtain ⟨inside, -, hcopy⟩ := bind_eq_ok.mp hcopy
  dsimp only at hcopy
  generalize (if inside = true then target ++ [source.getLast?.getD ""] else target) = place
    at hcopy
  split at hcopy
  · cases hcopy
  obtain ⟨bytes, hread, hcopy⟩ := bind_eq_ok.mp hcopy
  obtain ⟨location, hlocate, hfound⟩ := readFile_get? hread
  obtain ⟨goal, -, hnotDir, rfl⟩ := writeFile_put hcopy
  have hdirs : ∀ place, t.get? place = some .dir →
      (t.put goal (.file bytes)).get? place = some .dir := by
    intro place hplace
    have hne : place ≠ goal := by
      rintro rfl
      exact hnotDir hplace
    rw [get?_put_ne _ _ hne, hplace]
  refine ⟨location, bytes, locate_of_dirs hdirs hlocate, ?_⟩
  by_cases hsame : location = goal
  · subst hsame
    exact get?_put_self _ _ (ne_nil_of_get?_ne hnotDir)
  · rw [get?_put_ne _ _ hsame, hfound]

section Names

variable (hnames : ∀ name ∈ path, IsFileName name)

abbrev OfSystem (fault : FileFault) : Prop := fault.isSystem = true

theorem walk_failsOnly (t : FileTree) (here names : List Text) :
    FailsOnly OfSystem (t.walk here names) := by
  induction names generalizing here with
  | nil => exact .ok _
  | cons name rest ih =>
    unfold walk
    split
    · exact .error rfl
    · exact .error rfl
    split
    · exact ih _
    · split
      · exact .error rfl
      · exact ih _

theorem entry?_failsOnly (t : FileTree) (path : List Text) :
    FailsOnly OfSystem (t.entry? path) := by
  unfold entry?
  split
  · exact .ok _
  · exact .error rfl
  · exact .ok _

include hnames

theorem locate_failsOnly : FailsOnly OfSystem (t.locate path) := by
  obtain ⟨hmap, hzero⟩ := mapM_of_isFileName hnames
  unfold locate
  simp only [hmap, hzero, Bool.false_eq_true, if_false]
  split
  · exact .error rfl
  · exact walk_failsOnly t [] path

theorem makeDir_failsOnly : FailsOnly OfSystem (t.makeDir path) := by
  refine (locate_failsOnly hnames).bind fun location _ => ?_
  split
  · exact .error rfl
  · exact .ok _

theorem madeDir_failsOnly : FailsOnly (fun e => OfSystem e.1) (t.madeDir path) := by
  unfold madeDir
  split
  · exact .ok _
  · exact .error rfl
  rename_i fault _ hmake
  split
  · exact .ok _
  · exact .error (makeDir_failsOnly hnames fault hmake)

omit hnames in
theorem makeDirsUp_failsOnly (hnames : ∀ name ∈ names, IsFileName name) :
    FailsOnly (fun e => OfSystem e.1) (t.makeDirsUp names) := by
  induction names with
  | nil => exact .ok _
  | cons name above ih =>
    have hpath : ∀ other ∈ (name :: above).reverse, IsFileName other :=
      fun other hother => hnames other (mem_reverse.mp hother)
    unfold makeDirsUp
    dsimp only
    split
    · exact (ih fun other hother => hnames other (mem_cons_of_mem _ hother)).bind
        fun u _ => madeDir_failsOnly hpath
    · exact madeDir_failsOnly hpath

theorem makeDirs_failsOnly : FailsOnly (fun e => OfSystem e.1) (t.makeDirs path) :=
  makeDirsUp_failsOnly fun name hname => hnames name (mem_reverse.mp hname)

theorem writeFile_failsOnly (bytes : ByteArray) : FailsOnly OfSystem (t.writeFile path bytes) := by
  refine (locate_failsOnly hnames).bind fun location _ => ?_
  split
  · exact .error rfl
  · exact .ok _

theorem write_failsOnly (hbytes : Text.bytes? text = some bytes) :
    FailsOnly (fun e => OfSystem e.1) (t.write path text) := by
  refine (makeDirs_failsOnly fun name hname => hnames name (dropLast_subset _ hname)).bind
    fun u _ => ?_
  rw [writeText, hbytes]
  exact FailsOnly.mapError (f := (·, u)) (writeFile_failsOnly hnames bytes)

theorem unlink_failsOnly : FailsOnly OfSystem (t.unlink path) := by
  refine (locate_failsOnly hnames).bind fun location _ => ?_
  split
  · exact .ok _
  · exact .error rfl
  · exact .error rfl

theorem copy_failsOnly (htarget : ∀ name ∈ target, IsFileName name)
    (hne : path ≠ []) : FailsOnly OfSystem (t.copy path target) := by
  refine ((entry?_failsOnly t target).map _).bind fun inside _ => ?_
  dsimp only
  have hplace : ∀ name ∈ if inside = true then target ++ [path.getLast?.getD ""] else target,
      IsFileName name := by
    split
    · intro name hname
      rcases mem_append.mp hname with hname | hname
      · exact htarget name hname
      · rw [getLast?_eq_some_getLast hne, Option.getD_some, mem_singleton] at hname
        exact hname ▸ hnames _ (getLast_mem hne)
    · exact htarget
  generalize (if inside = true then target ++ [path.getLast?.getD ""] else target) = place
    at hplace ⊢
  split
  · exact .error rfl
  refine FailsOnly.bind ?_ fun bytes _ => writeFile_failsOnly hplace bytes
  refine (locate_failsOnly hnames).bind fun location _ => ?_
  split
  · exact .ok _
  · exact .error rfl
  · exact .error rfl

end Names

end AgentConfig.FileTree
