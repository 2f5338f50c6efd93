import AgentConfig.Proofs.Insertion
import AgentConfig.Proofs.Json.KeyPaths

namespace AgentConfig.Text

open List

variable {above line : Text}

theorem linesFrom_append (line : Text) (h : above.getLast? = some (.char '\n'))
    (below : Text) : linesFrom line (above ++ below) = linesFrom line above ++ lines below := by
  fun_induction linesFrom line above with
  | case1 => cases h
  | case2 => cases h
  | case3 line above ih =>
    change linesFrom line (.char '\r' :: .char '\n' :: (above ++ below)) = _
    rw [linesFrom, cons_append]
    cases above with
    | nil => rfl
    | cons l above => rw [ih (by simpa using h)]
  | case4 line l above hpair hend ih =>
    cases above with
    | nil =>
      obtain rfl : l = .char '\n' := by simpa using h
      rfl
    | cons next above =>
      rw [cons_append, linesFrom, if_pos hend, ih (by simpa using h), cons_append]
      rintro rest rfl heq
      obtain ⟨rfl, -⟩ := List.cons.inj heq
      exact hpair _ rfl rfl
  | case5 line l above hpair hend ih =>
    cases above with
    | nil =>
      obtain rfl : l = .char '\n' := by simpa using h
      exact absurd rfl hend
    | cons next above =>
      rw [cons_append, linesFrom, if_neg hend, ih (by simpa using h)]
      rintro rest rfl heq
      obtain ⟨rfl, -⟩ := List.cons.inj heq
      exact hpair _ rfl rfl

theorem linesFrom_append_of_not_end (before : Text)
    (h : ∀ l ∈ line, isLineEnd l = false) (rest : Text) :
    linesFrom before (line ++ rest) = linesFrom (line.reverse ++ before) rest := by
  induction line generalizing before with
  | nil => rfl
  | cons l line ih =>
    have hl : isLineEnd l = false := h l mem_cons_self
    rw [cons_append, linesFrom, hl, if_neg Bool.false_ne_true,
      ih _ fun m hm => h m (mem_cons_of_mem _ hm), reverse_cons, append_assoc]
    · rfl
    · rintro rest rfl
      cases hl

theorem lines_insert (habove : above = [] ∨ above.getLast? = some (.char '\n'))
    (hline : ∀ l ∈ line, isLineEnd l = false) (below : Text) :
    lines (above ++ line ++ "\n" ++ below) = lines above ++ line :: lines below := by
  have hfirst : lines (line ++ "\n" ++ below) = line :: lines below := by
    rw [lines, append_assoc, linesFrom_append_of_not_end [] hline, append_nil]
    change linesFrom line.reverse (.char '\n' :: below) = _
    rw [linesFrom, if_pos (by decide), reverse_reverse]
    · rfl
    · rintro rest ⟨⟩
  rcases habove with rfl | hend
  · exact hfirst
  · rw [append_assoc, append_assoc, lines, linesFrom_append [] hend, ← hfirst, append_assoc]
    rfl

end AgentConfig.Text

namespace AgentConfig.Marker

open List Json Text

variable {path line content : Text}

/-- The lines that stay above the marker: a first line that starts with `#!`. -/
def shebang (content : Text) : Text :=
  if startsWith content "#!" then (splitLine content).1 ++ "\n" else []

/-- The lines that stay above the marker: the header in a document that has one, else what stays
above in any text. A header that ends the text gets the break that it lacks. -/
def above (path content : Text) : Text :=
  if Path.kind path = ".md" ∨ Path.kind path = ".mdc" then
    match splitHeader? content with
    | some (head, _) => if head.getLast? = some (.char '\n') then head else head ++ "\n"
    | none => shebang content
  else shebang content

/-- Whole lines, or none. -/
def AreLines (text : Text) : Prop := text = [] ∨ text.getLast? = some (.char '\n')

theorem areLines_append_break (text : Text) : AreLines (text ++ "\n") :=
  .inr (by rw [getLast?_append]; rfl)

theorem areLines_shebang (content : Text) : AreLines (shebang content) := by
  unfold shebang
  split
  · exact areLines_append_break _
  · exact .inl rfl

theorem exists_addAtTop (line content : Text) :
    ∃ below, addAtTop line content = shebang content ++ line ++ "\n" ++ below := by
  unfold shebang
  rcases addAtTop_cases line content with ⟨hnot, htop⟩ | ⟨hstarts, htop⟩
  · rw [if_neg (mt startsWith_iff.mp hnot)]
    exact ⟨content, htop⟩
  · rw [if_pos (startsWith_iff.mpr hstarts)]
    exact ⟨_, htop⟩

theorem exists_add (h : line? path = some line) (content : Text) : AreLines (above path content) ∧
      ∃ below, add path content = above path content ++ line ++ "\n" ++ below := by
  rcases style_cases h with ⟨hkind, -, hadd⟩ | ⟨hkind, -, hadd⟩
  · rw [above, if_pos (by simpa using hkind), hadd, addBelowHeader]
    cases splitHeader? content with
    | none => exact ⟨areLines_shebang content, exists_addAtTop line content⟩
    | some parts =>
      obtain ⟨head, body⟩ := parts
      refine ⟨?_, body, rfl⟩
      dsimp only
      split
      next hend => exact .inr hend
      next => exact areLines_append_break head
  · rw [above, if_neg (by simpa using hkind), hadd]
    exact ⟨areLines_shebang content, exists_addAtTop line content⟩

theorem isLineEnd_of_mem_line (h : line? path = some line) : ∀ l ∈ line, isLineEnd l = false := by
  have hnotice : ∀ l ∈ notice, isLineEnd l = false := by
    simp [notice, ofString, ofChars, isLineEnd, Letter.code]
  have hmarks (marks : Text) (hmarks : marks.all (fun l => !isLineEnd l) = true) :
      ∀ l ∈ marks, isLineEnd l = false := by simpa using hmarks
  rcases style_cases h with ⟨-, rfl, -⟩ | ⟨-, rfl | rfl, -⟩
  · exact forall_mem_append.mpr ⟨forall_mem_append.mpr
      ⟨hmarks "<!-- " (by decide), hnotice⟩, hmarks " -->" (by decide)⟩
  · exact forall_mem_append.mpr ⟨hmarks "# " (by decide), hnotice⟩
  · exact forall_mem_append.mpr ⟨hmarks "// " (by decide), hnotice⟩

theorem has_eq_contains (h : line? path = some line) (content : Text) :
    has path content = ((Text.lines content).take searchedLines).contains line := by
  unfold line? at h
  unfold has
  cases hstyle : style path with
  | comment other belowHeader =>
    rw [hstyle] at h
    rw [Option.some.inj h]
  | jsonMember => rw [hstyle] at h; cases h
  | unmarked => rw [hstyle] at h; cases h

theorem mem_take_append_cons {α : Type} (before after : List α) (a : α) (n : Nat) :
    a ∈ (before ++ a :: after).take n ↔ before.length < n ∨ a ∈ before.take n := by
  rw [take_append, mem_append]
  by_cases hroom : before.length < n
  · obtain ⟨k, hk⟩ := Nat.exists_eq_add_one.mpr (Nat.sub_pos_of_lt hroom)
    simp [hroom, hk]
  · simp [hroom, Nat.sub_eq_zero_of_le (Nat.le_of_not_lt hroom)]

theorem style_of_kind_json (h : Path.kind path = ".json") : style path = .jsonMember := by
  rw [style, h]
  exact if_pos rfl

theorem read_addMember {members : Members} (hchars : content.IsChars)
    (hread : Json.read content = .ok (.obj members)) :
    Json.read (addMember content) =
      .ok (.obj ((jsonKey, .str notice) :: Members.erase jsonKey members)) := by
  have hkept : AreReadable (maxLevels - 1) (Members.erase jsonKey members) :=
    (areReadable_iff.mpr (isReadable_of_read hchars hread)).erase jsonKey
  have hmarked : AreReadable (maxLevels - 1)
      ((jsonKey, .str notice) :: Members.erase jsonKey members) := by
    refine ⟨nodup_cons.mpr ⟨?_, hkept.keys⟩, ?_, ?_⟩
    · exact fun hmem => (Members.mem_keys_erase.mp hmem).2 rfl
    · exact forall_mem_cons.mpr ⟨isJoined_of_isChars (isChars_ofString _), hkept.joined⟩
    · exact forall_mem_cons.mpr
        ⟨⟨.str (isJoined_of_isChars (isChars_ofString _)), Nat.zero_le _⟩, hkept.values⟩
  obtain ⟨hreadable, hlevels⟩ := areReadable_iff.mp hmarked
  rw [addMember, hread]
  exact hreadable.read_write hlevels

/-- A marked text is recognised exactly if fewer lines stay above the marker than are searched, or
one of those that are searched reads like the marker. A marked object is always recognised. It is
asked to be a text of whole characters, as every text of a file is: halves of one that stand side by
side come back as one when the object is written, and two keys may become one by that. -/
theorem marked_is_recognised_iff (path content : Text) :
    (∀ line, line? path = some line →
        (has path (add path content) = true ↔
          (Text.lines (above path content)).length < searchedLines ∨
            line ∈ (Text.lines (above path content)).take searchedLines)) ∧
      ∀ members, Path.kind path = ".json" → content.IsChars →
        Json.read content = .ok (.obj members) → has path (add path content) = true := by
  constructor
  · intro line hline
    obtain ⟨hlines, below, hadd⟩ := exists_add hline content
    rw [has_eq_contains hline, List.contains_iff_mem, hadd,
      Text.lines_insert hlines (isLineEnd_of_mem_line hline), mem_take_append_cons]
  · intro members hkind hchars hread
    have hstyle := style_of_kind_json hkind
    have hadd : add path content = addMember content := by rw [add, hstyle]
    rw [has, hstyle, hadd]
    dsimp only
    rw [read_addMember hchars hread]
    simp [Json.Members.hasKey]

/-- A header of so many lines. -/
def longHeader (n : Nat) : Text :=
  "---\n" ++ (replicate n ("- a\n" : Text)).flatten ++ "---\n"

/-- The closing line of the header is the last one that may stand above the marker. -/
theorem marked_is_recognised_below_header :
    line? ".claude/rules/a.md" = some ("<!-- " ++ notice ++ " -->") ∧
      has ".claude/rules/a.md" (add ".claude/rules/a.md" (longHeader 61)) = true ∧
      has "a.json" (add "a.json" "\x7b\"b\": [2, \x7b\x7d], \"_generated\": 1\x7d") = true := by
  have hline : line? ".claude/rules/a.md" = some ("<!-- " ++ notice ++ " -->") := by decide
  have hroom :
      (Text.lines (above ".claude/rules/a.md" (longHeader 61))).length < searchedLines := by
    decide +kernel
  have hobject : Outcome.checks (fun v => v.mentions? [] == none && v.levels != 0)
      (Json.read "\x7b\"b\": [2, \x7b\x7d], \"_generated\": 1\x7d") = true := by decide +kernel
  obtain ⟨v, hread, hmembers⟩ := Outcome.exists_of_checks hobject
  cases v with
  | obj members =>
    exact ⟨hline, ((marked_is_recognised_iff _ (longHeader 61)).1 _ hline).mpr (.inl hroom),
      (marked_is_recognised_iff "a.json" _).2 _ (by decide) (Text.isChars_ofString _) hread⟩
  | _ => cases hmembers

/-- Behind one line more the marker is not found. -/
theorem marker_below_long_header_is_missed :
    line? ".claude/rules/a.md" = some ("<!-- " ++ notice ++ " -->") ∧
      has ".claude/rules/a.md" (add ".claude/rules/a.md" (longHeader 62)) = false := by
  decide +kernel

end AgentConfig.Marker
