import AgentConfig.Path
import AgentConfig.Text.Utf8
import Mathlib.Data.List.Induction
import Mathlib.Data.List.TakeWhile

namespace AgentConfig.Path

open List

variable {names as bs base others rest : List Text} {name other path : Text}

/-- A name that stands for itself on the way to a file. If a file can have it at all, it is read
back as it is written. -/
structure IsProper (name : Text) : Prop where
  ne_empty : name ≠ ""
  ne_dot : name ≠ "."
  ne_up : name ≠ ".."
  no_slash : .char '/' ∉ name
  reads_back : ∀ {read}, Text.fileName? name = some read → read = name

/-- Names of which each stands for itself. -/
def AreProper (names : List Text) : Prop := ∀ name ∈ names, IsProper name

/-- A relative path in normal form, by the names it passes. -/
structure Leads (path : Text) (names : List Text) : Prop where
  ne_nil : names ≠ []
  proper : AreProper names
  path_eq : path = relative names

theorem AreProper.append (ha : AreProper as) (hb : AreProper bs) : AreProper (as ++ bs) := by
  intro name hname
  rcases mem_append.mp hname with h | h
  · exact ha name h
  · exact hb name h

theorem AreProper.of_subset (hb : AreProper bs) (h : as ⊆ bs) : AreProper as :=
  fun name hname => hb name (h hname)

theorem AreProper.tail (h : AreProper (name :: rest)) : AreProper rest :=
  h.of_subset (subset_cons_self _ _)

theorem AreProper.reverse (h : AreProper names) : AreProper names.reverse :=
  h.of_subset (reverse_subset.mpr (Subset.refl _))

theorem AreProper.dropLast (h : AreProper names) : AreProper names.dropLast :=
  h.of_subset (dropLast_subset _)

theorem AreProper.singleton (h : IsProper name) : AreProper [name] := by
  intro other hother
  rw [mem_singleton.mp hother]
  exact h

theorem names_intercalate (hproper : AreProper names) (hne : names ≠ []) :
    Path.names (Text.intercalate "/" names) = names := by
  have hsplit : Text.splitOn '/' (Text.intercalate "/" names) = names := by
    apply splitOn_intercalate
    · exact fun name hname => (hproper name hname).no_slash
    · exact hne
  unfold Path.names
  rw [hsplit, filter_eq_self]
  intro name hname
  have h := hproper name hname
  simp [h.ne_empty, h.ne_dot]

theorem relative_eq_intercalate (hne : names ≠ []) :
    relative names = Text.intercalate "/" names := by
  simp [relative, hne]

private theorem head?_intercalate (hproper : AreProper names) :
    (Text.intercalate "/" names).head? ≠ some (.char '/') := by
  match names with
  | [] => simp [Text.intercalate, List.intercalate]
  | name :: rest =>
    have h := hproper name (by simp)
    match name with
    | [] => exact absurd rfl h.ne_empty
    | l :: tail =>
      have hl : l ≠ .char '/' := fun he => h.no_slash (by simp [he])
      cases rest with
      | nil => simpa [Text.intercalate, List.intercalate] using hl
      | cons next more => simpa [Text.intercalate, intercalate_cons_cons] using hl

namespace Leads

variable {path other : Text}

theorem not_isAbsolute (h : Leads path names) : isAbsolute path = false := by
  rw [h.path_eq, relative_eq_intercalate h.ne_nil, isAbsolute, beq_eq_false_iff_ne]
  exact head?_intercalate h.proper

theorem names_eq (h : Leads path names) : Path.names path = names := by
  rw [h.path_eq, relative_eq_intercalate h.ne_nil]
  exact names_intercalate h.proper h.ne_nil

theorem join_eq (h : Leads path names) (base : List Text) : join base path = base ++ names := by
  simp [join, h.not_isAbsolute, h.names_eq]

theorem unique (h : Leads path names) (h' : Leads other names) : path = other :=
  h.path_eq.trans h'.path_eq.symm

end Leads

theorem leads_relative (hne : names ≠ []) (hproper : AreProper names) :
    Leads (relative names) names :=
  ⟨hne, hproper, rfl⟩

theorem names_relative (hproper : AreProper names) : Path.names (relative names) = names := by
  by_cases hne : names = []
  · subst hne
    decide +kernel
  · exact (leads_relative hne hproper).names_eq

theorem relative_injective (ha : AreProper as) (hb : AreProper bs) (h : relative as = relative bs) :
    as = bs := by
  rw [← names_relative ha, h, names_relative hb]

theorem isUnder_iff (hnames : AreProper names) (hbase : AreProper base) :
    isUnder names base = true ↔ base <+: names := by
  have hcollapse {names : List Text} (hproper : AreProper names) : collapse names = names := by
    induction names using reverseRecOn with
    | nil => rfl
    | append_singleton names name ih =>
      have hname : name ≠ ".." := (hproper name (by simp)).ne_up
      have ih := ih (hproper.of_subset (subset_append_left _ _))
      unfold collapse at ih ⊢
      rw [foldl_append, ih]
      simp [hname]
  rw [isUnder, hcollapse hnames, hcollapse hbase, isPrefixOf_iff_prefix]

def top (path : Text) : Text := path.takeWhile (· != .char '/')

theorem top_of_no_slash (h : .char '/' ∉ name) : top name = name := by
  refine takeWhile_eq_self_iff.mpr fun l hl => bne_iff_ne.mpr ?_
  rintro rfl
  exact h hl

theorem top_append (path rest : Text) : top (path ++ "/" ++ rest) = top path := by
  induction path with
  | nil => rfl
  | cons l path ih =>
    by_cases hl : l = .char '/'
    · simp [top, hl]
    have hrest : top (l :: path ++ "/" ++ rest) = l :: top (path ++ "/" ++ rest) := by
      simp [top, hl]
    rw [hrest, ih]
    simp [top, hl]

theorem top_relative (h : .char '/' ∉ name) (rest : List Text) :
    top (relative (name :: rest)) = name := by
  have hname := top_of_no_slash h
  rw [relative_eq_intercalate (by simp)]
  cases rest with
  | nil => simpa [Text.intercalate, List.intercalate] using hname
  | cons next more => rw [Text.intercalate, intercalate_cons_cons, top_append, hname]

theorem Leads.head?_eq (h : Leads path names) : names.head? = some (top path) := by
  obtain ⟨name, rest, rfl⟩ := exists_cons_of_ne_nil h.ne_nil
  rw [h.path_eq, top_relative (h.proper name mem_cons_self).no_slash]
  rfl

theorem Leads.top_eq_of_prefix (h : Leads path names) (h' : Leads other others)
    (hway : names <+: others) : top other = top path := by
  obtain ⟨rest, rfl⟩ := hway
  have hhead := h'.head?_eq
  rw [head?_append, h.head?_eq, Option.some_or, Option.some.injEq] at hhead
  exact hhead.symm

end AgentConfig.Path
