import AgentConfig.Platform.Page
import AgentConfig.Proofs.HeaderLines
import AgentConfig.Proofs.Yaml.Load

namespace AgentConfig

open List Json Text Yaml

variable {entries : List (Value × Value)} {items more texts : List Text} {m : Mapping}
  {fields members : Members} {after block first line second text : Text}

namespace Header

/-- Lines that can stand between the dashes: none of them is made of dashes, and the last one does
not end in a return, which would go with the break behind it. -/
structure IsBlock (text : Text) : Prop where
  last : text.getLast? ≠ some (.char '\r')
  clear : ∀ row ∈ Text.rows (text ++ [.char '\n']), ¬ IsDashes row

theorem IsBlock.atop (hfirst : IsBlock first) (hsecond : IsBlock second) :
    IsBlock (first ++ .char '\n' :: second) := by
  constructor
  · cases second with
    | nil => simp
    | cons l second => simpa [getLast?_append] using hsecond.last
  · have htext : first ++ .char '\n' :: second ++ [.char '\n'] =
        first ++ [.char '\n'] ++ (second ++ [.char '\n']) := by simp
    rw [htext, rows_append (by simp)]
    exact forall_mem_append.mpr ⟨hfirst.clear, hsecond.clear⟩

theorem IsBlock.lines (h : IsBlock text)
    (hmore : ∀ t ∈ more, IsBlock t) : IsBlock (text ++ more.flatMap (.char '\n' :: ·)) := by
  induction more generalizing text with
  | nil => simpa using h
  | cons next more ih =>
    rw [flatMap_cons, ← append_assoc]
    exact ih (h.atop (hmore next mem_cons_self)) fun t ht =>
      hmore t (mem_cons_of_mem _ ht)

section Indented

variable {written : List Char} (h : Yaml.IsIndented written)
include h

theorem return_not_mem : '\r' ∉ written := by
  induction written with
  | nil => simp
  | cons ch rest ih =>
    rw [mem_cons, not_or]
    refine ⟨?_, ih h.2⟩
    rintro rfl
    rcases h.1 with hink | hspace | ⟨hbreak, -⟩
    · exact absurd hink (by decide)
    · cases hspace
    · cases hbreak

theorem not_isDashes_of_mem_tail :
    ∀ row ∈ (Text.rows (ofChars written ++ [.char '\n'])).tail, ¬ IsDashes row := by
  induction written with
  | nil => exact nofun
  | cons ch rest ih =>
    change ∀ row ∈ (Text.rows (.char ch :: (ofChars rest ++ [.char '\n']))).tail, _
    by_cases hbreak : ch = '\n'
    · subst hbreak
      rw [← nil_append (_ :: _), rows_line not_mem_nil, tail_cons, forall_mem_rows_iff]
      refine ⟨?_, ih h.2⟩
      rcases h.1 with hink | hspace | ⟨-, hnext⟩
      · exact absurd hink (by decide)
      · cases hspace
      · rcases rest with _ | ⟨next, rest⟩
        · rfl
        · rcases hnext with hnext | hnext <;> cases hnext <;> rfl
    · rw [tail_rows_cons (by simpa using hbreak)]
      exact ih h.2

theorem isBlock_of_isIndented (hstart : written.take 3 ≠ ['-', '-', '-']) :
    IsBlock (ofChars written) := by
  refine ⟨fun hlast => ?_, forall_mem_rows_iff.mpr ⟨?_, not_isDashes_of_mem_tail h⟩⟩
  · have hmem := mem_of_getLast? hlast
    simp only [ofChars, mem_map, Letter.char.injEq, exists_eq_right] at hmem
    exact return_not_mem h hmem
  have hstrip : stripPrefix? "---" (ofChars written ++ [.char '\n']) = none := by
    rw [Option.eq_none_iff_forall_ne_some]
    intro rest hrest
    rw [stripPrefix?_eq_some_iff] at hrest
    rcases written with _ | ⟨a, _ | ⟨b, _ | ⟨d, more⟩⟩⟩ <;>
      simp_all [ofString, ofChars]
  rw [afterDashes?, hstrip]
  rfl

end Indented

/-- The block and the body of a document with a header. -/
def document (block body : Text) : Text := "---\n" ++ block ++ "\n---\n" ++ body

theorem parts?_document (h : IsBlock block) (body : Text) :
    parts? (document block body) = some (block, body) := by
  have hdashes : IsDashes "---\n" := ⟨[], "\n", rfl, nofun, .inr (.inl rfl)⟩
  refine parts?_eq_some_iff.mpr ⟨"---\n", "\n", "---\n", hdashes, rfl,
    ⟨.inr ⟨rfl, h.last⟩, ?_, hdashes,
    .inl rfl⟩, by simp only [document, append_assoc]; rfl⟩
  exact fun row hrow => h.clear row (mem_of_mem_tail hrow)

end Header

namespace Yaml

open Header (IsBlock isBlock_of_isIndented)

/-- The values of the fields of a header: texts, truth values and lists of texts. -/
inductive IsField : Json → Prop where
  | text (s : Text) : IsField (.str s)
  | flag (b : Bool) : IsField (.bool b)
  | texts (items : List Text) : IsField (.arr (items.map .str))

namespace Print

variable {indent : Nat} {v : Json}

/-- `Indents text`: a text without breaks, or with indented lines below each of them. -/
def Indents (text : Text) : Prop := ∃ written, text = ofChars written ∧ IsIndented written

theorem Indents.append (hfirst : Indents first) (hsecond : Indents second) :
    Indents (first ++ second) := by
  obtain ⟨a, rfl, ha⟩ := hfirst
  obtain ⟨b, rfl, hb⟩ := hsecond
  exact ⟨a ++ b, by simp [ofChars], ha.append hb⟩

theorem Indents.isBlock (h : Indents text) (hstart : text.take 3 ≠ "---") : IsBlock text := by
  obtain ⟨written, rfl, hindented⟩ := h
  refine isBlock_of_isIndented hindented fun heq => hstart ?_
  rw [ofChars, ← map_take, heq]
  rfl

theorem indents_scalar (split : Bool) (column : Nat) (hindent : indent + 1 < width)
    (s : Text) : Indents (scalar split (indent + 1) column s) := by
  obtain ⟨written, hwritten, hscalar⟩ := exists_scalar split indent column s hindent
  exact ⟨written, hwritten, hscalar.isIndented⟩

theorem indents_ofString {s : String} (h : ∀ ch ∈ s.toList, IsInk ch ∨ ch = ' ') : Indents s :=
  ⟨s.toList, rfl, .of_visible h⟩

theorem indents_newline (indent : Nat) : Indents (newline (indent + 1)) :=
  ⟨'\n' :: replicate (indent + 1) ' ', by simp [newline, ofChars], .breaks 0 indent⟩

theorem Indents.intercalate (h : ∀ t ∈ texts, Indents t) :
    Indents (Text.intercalate (newline (indent + 1)) texts) := by
  induction texts with
  | nil => exact ⟨[], rfl, trivial⟩
  | cons first rest ih =>
    cases rest with
    | nil => simpa [Text.intercalate] using h
    | cons next more =>
      rw [Text.intercalate, intercalate_cons_cons]
      exact ((h first mem_cons_self).append (indents_newline indent)).append
        (ih fun t ht => h t (mem_cons_of_mem _ ht))

theorem indents_inline (column : Nat) (h : IsField v) : Indents (" " ++ inline 2 column v) := by
  refine (indents_ofString (by simp [IsInk])).append ?_
  cases h with
  | text s => exact indents_scalar true column (by decide) s
  | flag b => cases b <;> exact indents_ofString (by simp [IsInk])
  | texts items => exact indents_ofString (by simp [IsInk])

theorem mem_marked (hindent : indent + 2 < width)
    (h : line ∈ marked indent (items.map .str)) : Indents line ∧ IsBlock line := by
  induction items with
  | nil => cases h
  | cons s items ih =>
    rw [map_cons, marked, afterMark, inline, mem_cons] at h
    · rcases h with rfl | h
      · have hitem := (indents_ofString (s := " ") (by simp [IsInk])).append
          (indents_scalar true (indent + 2) hindent s)
        have hline := (indents_ofString (s := "-") (by simp [IsInk])).append hitem
        exact ⟨hline, hline.isBlock (by simp [ofString, ofChars])⟩
      · exact ih h
    · rintro _ _ ⟨⟩
    · rintro _ _ ⟨⟩

theorem cases_list (h : IsField v) : (∃ first rest, v = .arr (List.map .str (first :: rest))) ∨
      ∀ column, afterMark 0 v = " " ++ inline 2 2 v ∧
        afterName 0 column v = " " ++ inline 2 (column + 1) v := by
  cases h with
  | text | flag => simp [afterMark, afterName]
  | texts items =>
    cases items with
    | nil => simp [afterMark, afterName]
    | cons first rest => exact .inl ⟨first, rest, rfl⟩

theorem indents_afterMark (h : IsField v) : Indents (afterMark 0 v) := by
  rcases cases_list h with ⟨first, rest, rfl⟩ | hinline
  · rw [map_cons, afterMark, ← map_cons]
    exact (indents_ofString (by simp [IsInk])).append
      (.intercalate fun line hline => (mem_marked (by decide) hline).1)
  · rw [(hinline 0).1]
    exact indents_inline 2 h

theorem exists_name (name : Text) :
    ∃ written, scalar false 2 0 name = ofChars written ∧ IsIndented written ∧
      written.take 3 ≠ ['-', '-', '-'] := by
  obtain ⟨written, hwritten, hscalar⟩ := exists_scalar false 1 0 name (by decide)
  refine ⟨written, hwritten, hscalar.isIndented, ?_⟩
  cases hplain : isPlain name with
  | true =>
    obtain ⟨l, rest, rfl, h⟩ := plainText_of_isPlain hplain
    rw [scalar_false _ _ hplain] at hwritten
    refine fun heq => h.dashes ?_
    rw [hwritten, ofChars, ← map_take, heq]
    rfl
  | false =>
    rw [hplain] at hscalar
    cases hscalar with
    | quoted double => cases double <;> simp [Quoted.mark]

theorem isBlock_name (name : Text) (h : Indents after) :
    IsBlock (scalar false 2 0 name ++ ":" ++ after) := by
  obtain ⟨written, hwritten, hindented, hstart⟩ := exists_name name
  obtain ⟨more, rfl, hmore⟩ := h
  have hblock := isBlock_of_isIndented (hindented.append
    (show IsIndented (':' :: more) from ⟨.inl (by decide), hmore⟩))
    (Lexer.take_ne (by decide) hstart)
  rw [hwritten]
  simpa [ofChars, ofString] using hblock

theorem isBlock_named (h : ∀ f ∈ fields, IsField f.2)
    (hblock : block ∈ named 0 fields) : IsBlock block := by
  induction fields with
  | nil => cases hblock
  | cons f fields ih =>
    obtain ⟨name, v⟩ := f
    have hv : IsField v := h (name, v) mem_cons_self
    rw [named, mem_cons] at hblock
    rcases hblock with rfl | hblock
    · split
      next hsimple =>
        rw [opening, if_pos hsimple]
        rcases cases_list hv with ⟨first, rest, rfl⟩ | hinline
        · rw [map_cons, afterName, ← map_cons]
          have hname := isBlock_name name ⟨[], rfl, trivial⟩
          rw [ofChars, map_nil, append_nil] at hname
          exact hname.lines fun line hline => (mem_marked (by decide) hline).2
        · rw [(hinline _).2]
          exact isBlock_name name (indents_inline _ hv)
      next hsimple =>
        rw [opening, if_neg hsimple, append_assoc, append_assoc, newline]
        have hname := (indents_ofString (s := "? ") (by simp [IsInk])).append
          (indents_scalar true 2 (by decide : 1 + 1 < width) name)
        have hvalue := (indents_ofString (s := ":") (by simp [IsInk])).append (indents_afterMark hv)
        have hblock := (hname.isBlock (by simp [ofString, ofChars])).atop
          (hvalue.isBlock (by simp [ofString, ofChars]))
        exact hblock
    · exact ih (fun f hf => h f (mem_cons_of_mem _ hf)) hblock

end Print

theorem isBlock_print (h : ∀ f ∈ fields, IsField f.2) : IsBlock (print fields) := by
  have hall : ∀ block ∈ Print.named 0 fields, IsBlock block := fun _ => Print.isBlock_named h
  rw [print]
  cases hnamed : Print.named 0 fields with
  | nil => exact isBlock_of_isIndented (show IsIndented [] from trivial) (by decide)
  | cons first rest =>
    rw [hnamed] at hall
    rw [intercalate_cons]
    exact (hall first mem_cons_self).lines fun t ht => hall t (mem_cons_of_mem _ ht)

theorem isField_of_isPrintable
    (h : Forall₂ IsPrintable members entries) : ∀ f ∈ members, IsField f.2 := by
  intro f hf
  obtain ⟨_, -, hprintable⟩ := Outcome.exists_of_forall₂_left h hf
  rcases hprintable.value_eq with ⟨s, hs, -⟩ | ⟨b, hb, -⟩
  · exact hs ▸ .text s
  · exact hb ▸ .flag b

end Yaml

namespace Header

/-- The block of printed fields is all that stands before the dashes that close it, so what is read
from it is what the header holds. -/
theorem split_of_load {g : Yaml.Graph} (hfields : ∀ f ∈ fields, Yaml.IsField f.2)
    (hload : Yaml.load (Yaml.print fields) = .ok g) (hmapping : Mapping.ofGraph? g = some m)
    (hentries : m.entries ≠ []) (body : Text) :
    split (document (Yaml.print fields) body) = .ok (m, body) := by
  rw [split, splitWith, parts?_document (isBlock_print hfields)]
  simp only [hload, Mapping.isTruthy_of_ofGraph? hmapping hentries, if_true, hmapping]

theorem split_print (hne : members ≠ []) (h : Forall₂ IsPrintable members entries)
    (hkeys : (members.map (·.1)).Nodup) (body : Text) :
    split (document (Yaml.print members) body) = .ok (⟨.ofEntries entries, entries⟩, body) := by
  refine split_of_load (isField_of_isPrintable h) (load_print hne h hkeys) rfl ?_ body
  rintro (rfl : entries = [])
  exact hne (forall₂_nil_right_iff.mp h)

end Header

theorem Document.header_ofText (hne : members ≠ []) (h : Forall₂ IsPrintable members entries)
    (hkeys : (members.map (·.1)).Nodup) (body : Text) :
    ofText (Header.document (Yaml.print members) body) =
      (Header.ofMapping ⟨.ofEntries entries, entries⟩).map (⟨·, Text.trim body⟩) := by
  rw [ofText, Header.split_print hne h hkeys body]
  change (Header.ofMapping _ >>= _) = _
  cases Header.ofMapping ⟨.ofEntries entries, entries⟩ <;> rfl

theorem Page.exists_document (hne : fields ≠ []) (body : Text) :
    ∃ below, document fields body = Header.document (Yaml.print fields) below ∧
      Text.trim below = Text.trim body := by
  have hheader : header fields = "---\n" ++ Yaml.print fields ++ "\n---" := by
    rw [header, if_neg (by simpa using hne)]
  rw [document, hheader, under, if_neg (by simp [ofString, ofChars])]
  split
  next hempty =>
    refine ⟨"", ?_, (isEmpty_iff.mp hempty).symm⟩
    simp only [Header.document, append_assoc]
    rfl
  next hempty =>
    refine ⟨"\n" ++ Text.trim body ++ "\n", ?_, trim_between (by simpa using hempty)⟩
    simp only [Header.document, append_assoc]
    rfl

namespace Yaml

/-- `Shows g value v`: a value of a graph is the text, the truth value or the list of texts `v`. -/
def Graph.Shows (g : Graph) (value : Value) : Json → Prop
  | .str s => value = .str s
  | .bool b => value = .bool b
  | .arr items => ∃ texts : List Text, items = texts.map .str ∧
      g.items? value = some (texts.map .str)
  | _ => False

/-- A mapping of exactly some fields. -/
def Mapping.Holds (m : Mapping) (fields : Json.Members) : Prop :=
  Forall₂ (fun f entry => entry.1 = .str f.1 ∧ m.graph.Shows entry.2 f.2) fields m.entries

/-- The reader of the lines inverts the printer: the mapping that is read has exactly the fields
that were printed. -/
def Recovers (fields : Json.Members) : Prop :=
  ∃ g m, load (print fields) = .ok g ∧ Mapping.ofGraph? g = some m ∧ m.Holds fields

/-- Texts and truth values under plain names. -/
def IsPlainField (f : Text × Json) : Prop :=
  Print.isPlain f.1 = true ∧ Print.isSimpleName f.1 = true ∧
    ((∃ s, f.2 = .str s) ∨ ∃ b, f.2 = .bool b)

/-- The value a field of a header is read as, if it takes no cell. -/
def Value.ofField : Json → Value
  | .str s => .str s
  | .bool b => .bool b
  | _ => .null

theorem recovers_of_isPlainField {fields : Json.Members} (hne : fields ≠ [])
    (hkeys : (fields.map (·.1)).Nodup) (h : ∀ f ∈ fields, IsPlainField f) : Recovers fields := by
  have hprintable : Forall₂ IsPrintable fields
      (fields.map fun f => (.str f.1, .ofField f.2)) := by
    rw [forall₂_map_right_iff, forall₂_same]
    rintro ⟨name, v⟩ hf
    obtain ⟨hplain, hsimple, ⟨s, rfl⟩ | ⟨b, rfl⟩⟩ := h _ hf
    · exact .str hplain hsimple s
    · exact .bool hplain hsimple b
  refine ⟨_, _, load_print hne hprintable hkeys, rfl, ?_⟩
  refine forall₂_map_right_iff.mpr (forall₂_same.mpr ?_)
  rintro ⟨name, v⟩ hf
  obtain ⟨-, -, ⟨s, rfl⟩ | ⟨b, rfl⟩⟩ := h _ hf
  · exact ⟨rfl, rfl⟩
  · exact ⟨rfl, rfl⟩

end Yaml

namespace Header

/-- A document of fields is taken apart into these fields, in their order, and a text that trims to
the body, also where the body or a field has lines of dashes. -/
theorem split_document {fields : Json.Members} (hne : fields ≠ [])
    (hkeys : (fields.map (·.1)).Nodup) (hfields : ∀ f ∈ fields, Yaml.IsField f.2)
    (hreads : (∀ f ∈ fields, Yaml.IsPlainField f) ∨ Yaml.Recovers fields) (body : Text) :
    ∃ mapping below, split (Page.document fields body) = .ok (mapping, below) ∧
      mapping.Holds fields ∧ Text.trim below = Text.trim body := by
  obtain ⟨g, m, hload, hmapping, hholds⟩ : Yaml.Recovers fields :=
    hreads.elim (Yaml.recovers_of_isPlainField hne hkeys) id
  obtain ⟨below, hdocument, htrim⟩ := Page.exists_document hne body
  refine ⟨m, below, ?_, hholds, htrim⟩
  rw [hdocument]
  refine split_of_load hfields hload hmapping (fun hnil => ?_) below
  rw [Yaml.Mapping.Holds, hnil] at hholds
  exact hne (List.forall₂_nil_right_iff.mp hholds)

/-- Fields with dashes in a list and in a text, and a name that is quoted. -/
def dashedFields : Json.Members :=
  [("globs", .arr [.str "*.md", .str "---"]), ("description", .str "a\n---\nb"), ("on", .bool true)]

theorem split_document_of_dashedFields :
    ∃ mapping below, split (Page.document dashedFields "---\nx: y\n---\n") =
        .ok (mapping, below) ∧
      mapping.Holds dashedFields ∧ Text.trim below = "---\nx: y\n---" := by
  have hread : (Yaml.load (Yaml.print dashedFields)).toOption.map (fun g => (g.cells, g.root)) =
      some (#[.map [(.str "globs", .cell 1), (.str "description", .str "a\n---\nb"),
        (.str "on", .bool true)], .seq [.str "*.md", .str "---"]], .cell 0) := by
    decide +kernel
  refine split_document (List.cons_ne_nil _ _) (by decide) ?_ (.inr ?_) "---\nx: y\n---\n"
  · simp only [List.forall_mem_cons]
    exact ⟨.texts ["*.md", "---"], .text _, .flag _, List.forall_mem_nil _⟩
  · cases hload : Yaml.load (Yaml.print dashedFields) with
    | error fault => simp [hload, Except.toOption] at hread
    | ok g =>
      obtain ⟨cells, root⟩ := g
      rw [hload] at hread
      obtain ⟨rfl, rfl⟩ := Prod.mk.inj (Option.some.inj hread)
      refine ⟨_, _, hload, rfl, ?_⟩
      exact .cons ⟨rfl, ["*.md", "---"], rfl, rfl⟩ (.cons ⟨rfl, rfl⟩ (.cons ⟨rfl, rfl⟩ .nil))

end Header

end AgentConfig
