import AgentConfig.FileTree.Basic
import AgentConfig.Proofs.Outcome
import AgentConfig.Proofs.Path

namespace AgentConfig

open List AgentConfig.Path Text

variable {bytes : ByteArray}

structure IsFileName (name : Text) : Prop extends IsProper name where
  readable : fileName? name = some name
  no_zero : .char '\x00' ∉ name

/-- A file with a text. One that no file can hold leaves it empty. -/
def FileEntry.ofText (text : Text) : FileEntry :=
  .file ((bytes? text).getD ⟨#[]⟩)

namespace FileTree

variable {t : FileTree} {location path names other here base above below : List Text}
  {entry : FileEntry}

@[simp]
theorem get?_nil (t : FileTree) : t.get? [] = some .dir := rfl

theorem get?_of_ne_nil (hne : location ≠ []) : t.get? location = t.entries.lookup location := by
  simp [get?, hne]

private theorem lookup_filter_ne (entries : List (List Text × FileEntry)) (hne : other ≠ location) :
    (entries.filter fun e => e.1 != location).lookup other = entries.lookup other := by
  induction entries with
  | nil => rfl
  | cons e rest ih =>
    obtain ⟨place, entry⟩ := e
    by_cases hplace : place = location
    · have hother : (other == location) = false := beq_eq_false_iff_ne.mpr hne
      simp [hplace, lookup_cons, hother, ih]
    · simp [hplace, lookup_cons, ih]

theorem get?_erase_ne (t : FileTree) (hne : other ≠ location) :
    (t.erase location).get? other = t.get? other := by
  by_cases hnil : other = []
  · simp [hnil]
  · rw [get?_of_ne_nil hnil, get?_of_ne_nil hnil]
    exact lookup_filter_ne t.entries hne

theorem get?_erase_self (t : FileTree) (hne : location ≠ []) :
    (t.erase location).get? location = none := by
  rw [get?_of_ne_nil hne, lookup_eq_none_iff]
  intro e he
  have hkept : e.1 ≠ location := by simpa using (mem_filter.mp he).2
  simpa using hkept.symm

theorem get?_put_ne (t : FileTree) (entry : FileEntry) (hne : other ≠ location) :
    (t.put location entry).get? other = t.get? other := by
  by_cases hnil : other = []
  · simp [hnil]
  · rw [get?_of_ne_nil hnil, get?_of_ne_nil hnil, put, lookup_cons]
    simp only [beq_eq_false_iff_ne.mpr hne]
    exact lookup_filter_ne t.entries hne

theorem get?_put_self (t : FileTree) (entry : FileEntry) (hne : location ≠ []) :
    (t.put location entry).get? location = some entry := by
  rw [get?_of_ne_nil hne, put, lookup_cons_self]

/-- Every location stands once, has names that files can have, and lies in a directory. The changes
that are made to a tree keep this. -/
structure WellFormed (t : FileTree) : Prop where
  nodup : (t.entries.map (·.1)).Nodup
  ne_nil : ∀ {location entry}, (location, entry) ∈ t.entries → location ≠ []
  named : ∀ {location entry}, (location, entry) ∈ t.entries → ∀ name ∈ location, IsFileName name
  rooted : ∀ {location entry}, (location, entry) ∈ t.entries → t.get? location.dropLast = some .dir

namespace WellFormed

theorem mem_of_get? (hne : location ≠ []) (hget : t.get? location = some entry) :
    (location, entry) ∈ t.entries := by
  rw [get?_of_ne_nil hne, lookup_eq_some_iff] at hget
  obtain ⟨before, after, hsplit, _⟩ := hget
  simp [hsplit]

section

variable (ht : t.WellFormed)
include ht

theorem get?_of_mem (hmem : (location, entry) ∈ t.entries) : t.get? location = some entry := by
  rw [get?_of_ne_nil (ht.ne_nil hmem), lookup_eq_some_iff]
  obtain ⟨before, after, hsplit⟩ := append_of_mem hmem
  refine ⟨before, after, hsplit, ?_⟩
  intro e he
  have hnodup := ht.nodup
  rw [hsplit, map_append, map_cons, nodup_append] at hnodup
  have hne : e.1 ≠ location := hnodup.2.2 e.1 (mem_map_of_mem he) location (by simp)
  simpa using hne.symm

theorem get?_dropLast (hget : t.get? location = some entry) :
    t.get? location.dropLast = some .dir := by
  by_cases hne : location = []
  · simp [hne]
  · exact ht.rooted (mem_of_get? hne hget)

theorem isFileName (hget : t.get? location = some entry) : ∀ name ∈ location, IsFileName name := by
  intro name hname
  have hne : location ≠ [] := ne_nil_of_mem hname
  exact ht.named (mem_of_get? hne hget) name hname

theorem areProper (hget : t.get? location = some entry) : AreProper location :=
  fun name hname => (ht.isFileName hget name hname).toIsProper

theorem areProper_below (hget : t.get? (above ++ below) = some entry) : AreProper below :=
  (ht.areProper hget).of_subset (subset_append_right _ _)

theorem get?_above (hne : below ≠ [])
    (hget : t.get? (above ++ below) = some entry) : t.get? above = some .dir := by
  induction below using reverseRecOn generalizing entry with
  | nil => exact absurd rfl hne
  | append_singleton below name ih =>
    have hparent := ht.get?_dropLast hget
    rw [← append_assoc, dropLast_concat] at hparent
    by_cases hnil : below = []
    · simpa [hnil] using hparent
    · exact ih hnil hparent

theorem get?_below_file (hfile : t.get? location = some (.file bytes)) (hne : below ≠ []) :
    t.get? (location ++ below) = none := by
  by_contra hsome
  obtain ⟨entry, hentry⟩ := Option.ne_none_iff_exists'.mp hsome
  have hdir := ht.get?_above hne hentry
  rw [hfile] at hdir
  cases hdir

end

end WellFormed

/-- A walk that comes to its end has passed directories only, by names that are short enough. -/
private theorem walk_inv (hproper : AreProper names) (hwalk : t.walk here names = .ok location) :
    location = here ++ names ∧ (names ≠ [] → t.get? (here ++ names).dropLast = some .dir) ∧
      ∀ name ∈ names, utf8Size name ≤ maxNameBytes := by
  induction names generalizing here with
  | nil =>
    simp only [walk, Except.ok.injEq] at hwalk
    simp [hwalk]
  | cons name rest ih =>
    have hname : name ≠ ".." := (hproper name (by simp)).ne_up
    simp only [walk, hname, if_false] at hwalk
    split at hwalk
    · cases hwalk
    · cases hwalk
    rename_i hdir
    split at hwalk
    · cases hwalk
    rename_i hshort
    obtain ⟨rfl, habove, hrest⟩ := ih hproper.tail hwalk
    refine ⟨by simp, fun _ => ?_, forall_mem_cons.mpr ⟨Nat.le_of_not_lt hshort, hrest⟩⟩
    by_cases hnil : rest = []
    · simpa [hnil] using hdir
    · simpa using habove hnil

theorem mapM_fileName? (hproper : AreProper path) (hmap : path.mapM fileName? = some names) :
    names = path ∧ ∀ name ∈ path, fileName? name = some name := by
  induction path generalizing names with
  | nil => exact ⟨by simpa using hmap.symm, by simp⟩
  | cons name rest ih =>
    simp only [mapM_cons, Option.bind_eq_bind, Option.bind_eq_some_iff, Option.pure_def,
      Option.some.injEq] at hmap
    obtain ⟨read, hread, others, hothers, rfl⟩ := hmap
    obtain rfl := (hproper name (by simp)).reads_back hread
    obtain ⟨rfl, hall⟩ := ih hproper.tail hothers
    refine ⟨rfl, ?_⟩
    intro other hother
    rcases mem_cons.mp hother with rfl | h
    · exact hread
    · exact hall other h

/-- The path to a location, or one of its names, has more bytes than the file system takes. -/
def IsTooLong (location : List Text) : Prop :=
  maxPathBytes ≤ utf8Size (Path.absolute location) ∨ ∃ name ∈ location, maxNameBytes < utf8Size name

instance (location : List Text) : Decidable (IsTooLong location) :=
  inferInstanceAs (Decidable (_ ∨ _))

section

variable (hproper : Path.AreProper path) (hlocate : t.locate path = .ok location)
include hproper hlocate

private theorem locate_sound :
    location = path ∧ (∀ name ∈ path, IsFileName name) ∧ t.get? path.dropLast = some .dir ∧
      ¬ IsTooLong path := by
  unfold locate at hlocate
  split at hlocate
  · cases hlocate
  rename_i names hnames
  obtain ⟨rfl, hread⟩ := mapM_fileName? hproper hnames
  split at hlocate
  · cases hlocate
  rename_i hzero
  split at hlocate
  · cases hlocate
  rename_i hpath
  obtain ⟨heq, habove, hshort⟩ := walk_inv hproper hlocate
  refine ⟨heq, fun name hname => ⟨hproper name hname, hread name hname, ?_⟩, ?_, ?_⟩
  · simp only [Bool.not_eq_true, any_eq_false] at hzero
    simpa using hzero name hname
  · by_cases hne : names = []
    · simp [hne]
    · exact habove hne
  · rintro (hlong | ⟨name, hname, hlong⟩)
    · exact hpath hlong
    · exact Nat.not_lt.mpr (hshort name hname) hlong

/-- Proper names lead to the location of the same names, if anywhere. The last of them need not
exist there, but a file can have it, and what lies above it is a directory. -/
theorem locate_inv :
    location = path ∧ (∀ name ∈ path, IsFileName name) ∧ t.get? path.dropLast = some .dir := by
  obtain ⟨heq, hnames, habove, -⟩ := locate_sound hproper hlocate
  exact ⟨heq, hnames, habove⟩

theorem locate_eq : location = path :=
  (locate_inv hproper hlocate).1

theorem not_isTooLong_of_locate : ¬ IsTooLong path :=
  (locate_sound hproper hlocate).2.2.2

end

private theorem walk_of_above (ht : t.WellFormed)
    (habove : t.get? (here ++ names).dropLast = some .dir) (hproper : AreProper names) :
    t.walk here names = .ok (here ++ names) ∨ (t.walk here names = .error .nameTooLong ∧
        ∃ name ∈ names, maxNameBytes < utf8Size name) := by
  induction names generalizing here with
  | nil => simp [walk]
  | cons name rest ih =>
    have hname : name ≠ ".." := (hproper name (by simp)).ne_up
    have hdir : t.get? here = some .dir := by
      rw [dropLast_append_cons] at habove
      by_cases hlast : (name :: rest).dropLast = []
      · rwa [hlast, append_nil] at habove
      · exact ht.get?_above hlast habove
    simp only [walk, hname, if_false, hdir]
    split
    · rename_i hlong
      exact .inr ⟨rfl, name, by simp, hlong⟩
    have hrest := @ih (here ++ [name]) (by simpa using habove) hproper.tail
    rw [append_assoc, singleton_append] at hrest
    refine hrest.imp_right fun ⟨hwalk, other, hother, hlong⟩ => ?_
    exact ⟨hwalk, other, mem_cons_of_mem _ hother, hlong⟩

theorem mapM_of_isFileName (hnames : ∀ name ∈ path, IsFileName name) :
    path.mapM fileName? = some path ∧
      (path.any fun name => name.contains (.char '\x00')) = false := by
  constructor
  · induction path with
    | nil => rfl
    | cons name rest ih =>
      have hrest := ih (fun other hother => hnames other (mem_cons_of_mem _ hother))
      simp [(hnames name (by simp)).readable, hrest]
  · rw [any_eq_false]
    intro name hname
    simpa using (hnames name hname).no_zero

theorem WellFormed.locate_of_above (ht : t.WellFormed) (hnames : ∀ name ∈ location, IsFileName name)
    (habove : t.get? location.dropLast = some .dir) :
    t.locate location = .ok location ∨
      (t.locate location = .error .nameTooLong ∧ IsTooLong location) := by
  obtain ⟨hmap, hzero⟩ := mapM_of_isFileName hnames
  unfold locate
  simp only [hmap, hzero, Bool.false_eq_true, if_false]
  split
  · rename_i hlong
    exact .inr ⟨rfl, .inl hlong⟩
  · have hwalk := @walk_of_above t location [] ht habove fun name hname =>
      (hnames name hname).toIsProper
    exact hwalk.imp_right fun h => ⟨h.1, .inr h.2⟩

theorem WellFormed.locate_of_get? (ht : t.WellFormed) (hget : t.get? location = some entry) :
    t.locate location = .ok location ∨
      (t.locate location = .error .nameTooLong ∧ IsTooLong location) :=
  ht.locate_of_above (ht.isFileName hget) (ht.get?_dropLast hget)

/-- Looking along a path of proper names shows what stands at the location of the same names. -/
theorem WellFormed.entry?_eq (ht : t.WellFormed) (hproper : AreProper path)
    {found : Option FileEntry} (hentry : t.entry? path = .ok found) : found = t.get? path := by
  unfold entry? at hentry
  split at hentry
  · rename_i location hlocate
    obtain rfl := locate_eq hproper hlocate
    exact (Except.ok.inj hentry).symm
  · cases hentry
  · rename_i fault hlong hlocate
    cases hentry
    cases hget : t.get? path with
    | none => rfl
    | some entry =>
      rcases ht.locate_of_get? hget with h | ⟨h, -⟩
      · rw [h] at hlocate
        cases hlocate
      · rw [h] at hlocate
        cases hlocate
        exact absurd rfl hlong

theorem WellFormed.entry?_eq_some_iff (ht : t.WellFormed) (hproper : AreProper path) :
    t.entry? path = .ok (some entry) ↔ t.get? path = some entry ∧ ¬ IsTooLong path := by
  constructor
  · intro hentry
    refine ⟨(ht.entry?_eq hproper hentry).symm, ?_⟩
    unfold entry? at hentry
    split at hentry
    · rename_i location hlocate
      exact not_isTooLong_of_locate hproper hlocate
    · cases hentry
    · cases hentry
  · rintro ⟨hget, hshort⟩
    rcases ht.locate_of_get? hget with hlocate | ⟨-, hlong⟩
    · unfold entry?
      rw [hlocate, ← hget]
    · exact absurd hlong hshort

section Answers

variable (ht : t.WellFormed) (hproper : Path.AreProper path) {answer : Bool}
include ht hproper

theorem WellFormed.exists?_eq (h : t.exists? path = .ok answer) :
    answer = (t.get? path).isSome := by
  obtain ⟨found, hentry, rfl⟩ := Outcome.map_eq_ok.mp h
  rw [ht.entry?_eq hproper hentry]

theorem WellFormed.isDir?_eq (h : t.isDir? path = .ok answer) :
    answer = (t.get? path == some .dir) := by
  obtain ⟨found, hentry, rfl⟩ := Outcome.map_eq_ok.mp h
  rw [ht.entry?_eq hproper hentry]

end Answers

theorem below?_eq_some_iff :
    below? base location = some names ↔ names ≠ [] ∧ location = base ++ names := by
  unfold below?
  split
  · rename_i hprefix
    simp only [Bool.and_eq_true, isPrefixOf_iff_prefix, decide_eq_true_eq] at hprefix
    obtain ⟨⟨rest, rfl⟩, hlength⟩ := hprefix
    simp only [length_append, Nat.lt_add_right_iff_pos, length_pos_iff] at hlength
    simp only [drop_left, Option.some.injEq, append_cancel_left_eq]
    exact ⟨fun h => ⟨h ▸ hlength, h⟩, fun h => h.2⟩
  · rename_i hprefix
    simp only [Bool.and_eq_true, isPrefixOf_iff_prefix, decide_eq_true_eq] at hprefix
    simp only [reduceCtorEq, false_iff]
    rintro ⟨hne, rfl⟩
    exact hprefix ⟨prefix_append _ _, by simp [length_pos_iff, hne]⟩

theorem WellFormed.mem_filesBelow_iff (ht : t.WellFormed) :
    (names, bytes) ∈ t.filesBelow base ↔
      names ≠ [] ∧ t.get? (base ++ names) = some (.file bytes) := by
  unfold filesBelow
  simp only [mem_mergeSort, mem_filterMap]
  constructor
  · rintro ⟨⟨location, entry⟩, hmem, hmatch⟩
    have hget := ht.get?_of_mem hmem
    split at hmatch
    · rename_i found _ hfound hfile
      cases hmatch
      obtain ⟨hne, rfl⟩ := below?_eq_some_iff.mp hfound
      exact ⟨hne, by rw [hget]; exact congrArg some hfile⟩
    · cases hmatch
  · rintro ⟨hne, hget⟩
    refine ⟨(base ++ names, .file bytes), WellFormed.mem_of_get? (by simp [hne]) hget, ?_⟩
    simp [below?_eq_some_iff.mpr ⟨hne, rfl⟩]

end FileTree

variable {name path : Text} {names : List Text}

theorem Text.fileName?_of_chars (h : name.chars?.isSome = true) :
    Text.fileName? name = some name := by
  simp [Text.fileName?, h]

/-- A name of whole characters that stands for nothing but itself. -/
def Path.isPlain (name : Text) : Bool :=
  name.chars?.isSome && !([("" : Text), ".", ".."].contains name) &&
    !name.contains (.char '/') && !name.contains (.char '\x00')

theorem isFileName_of_isPlain (h : Path.isPlain name = true) : IsFileName name := by
  simp only [Path.isPlain, Bool.and_eq_true, Bool.not_eq_true', contains_eq_mem,
    decide_eq_false_iff_not, mem_cons, not_mem_nil, not_or, not_false_eq_true,
    and_true] at h
  obtain ⟨⟨⟨hchars, hempty, hdot, hup⟩, hslash⟩, hzero⟩ := h
  have hread := Text.fileName?_of_chars hchars
  refine ⟨⟨hempty, hdot, hup, hslash, ?_⟩, hread, hzero⟩
  intro read hother
  exact (Option.some.inj (hread.symm.trans hother)).symm

theorem Path.areProper_of_isPlain (h : names.all Path.isPlain = true) :
    Path.AreProper names := fun name hname =>
  (isFileName_of_isPlain (all_eq_true.mp h name hname)).toIsProper

theorem Path.leads_of_isPlain
    (h : (!names.isEmpty && names.all Path.isPlain && path == Path.relative names) = true) :
    Path.Leads path names := by
  simp only [Bool.and_eq_true, Bool.not_eq_true', isEmpty_eq_false_iff, beq_iff_eq] at h
  exact ⟨h.1.1, Path.areProper_of_isPlain h.1.2, h.2⟩

namespace FileTree

/-- Whether every location stands once, has plain names and lies in a directory. -/
def isPlain (t : FileTree) : Bool :=
  decide (t.entries.map (·.1)).Nodup && t.entries.all fun e =>
    !e.1.isEmpty && e.1.all Path.isPlain && t.get? e.1.dropLast == some .dir

theorem wellFormed_of_isPlain {t : FileTree} (h : t.isPlain = true) : t.WellFormed := by
  simp only [isPlain, Bool.and_eq_true, decide_eq_true_eq, all_eq_true, Bool.not_eq_true',
    isEmpty_eq_false_iff, beq_iff_eq] at h
  obtain ⟨hnodup, hall⟩ := h
  exact ⟨hnodup, fun hmem => (hall _ hmem).1.1,
    fun hmem name hname => isFileName_of_isPlain ((hall _ hmem).1.2 name hname),
    fun hmem => (hall _ hmem).2⟩

end FileTree

end AgentConfig
