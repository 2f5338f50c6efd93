import AgentConfig.Marker
import AgentConfig.Proofs.Header

namespace AgentConfig

open List Header Text

namespace Header

variable {text block body below other : Text}

/-- Whole lines that are a header around the block, whatever stands below them. -/
structure Encloses (head block : Text) : Prop where
  ends : head.getLast? = some (.char '\n')
  parts? (new : Text) : Header.parts? (head ++ new) = some (block, new)

/-- The lines of a header; the last one may lack its break at the end of the text. -/
theorem exists_encloses (h : parts? text = some (block, body)) :
    ∃ head, text = head ++ body ∧ (Encloses head block ∨
      body = [] ∧ head.getLast? ≠ some (.char '\n') ∧ Encloses (head ++ "\n") block) := by
  obtain ⟨opening, ending, closing, hopening, hbreak, hcloses, rfl⟩ := parts?_eq_some_iff.mp h
  have hencloses {other : Text} (hother : IsDashes other)
      (hlast : other.getLast? = some (.char '\n')) :
      Encloses (opening ++ (block ++ (ending ++ other))) block := by
    refine ⟨by simp [getLast?_append, hlast], fun new => parts?_eq_some_iff.mpr ?_⟩
    refine ⟨opening, ending, other, hopening, hbreak, ?_, by simp only [append_assoc]⟩
    exact ⟨hcloses.ended, hcloses.first, hother, .inl hlast⟩
  refine ⟨opening ++ (block ++ (ending ++ closing)), by simp only [append_assoc], ?_⟩
  by_cases hlast : closing.getLast? = some (.char '\n')
  · exact .inl (hencloses hcloses.dashes hlast)
  obtain ⟨blanks, last, rfl, hblanks, rfl | hending⟩ := hcloses.dashes
  · have hother : IsDashes ("---" ++ blanks ++ "\n") :=
      ⟨blanks, "\n", rfl, hblanks, .inr (.inl rfl)⟩
    refine .inr ⟨hcloses.ends.resolve_left hlast, ?_, ?_⟩
    · simpa [getLast?_append, ofString, ofChars] using hlast
    · simpa [ofString, ofChars] using hencloses hother (by rw [getLast?_append]; rfl)
  · refine absurd ?_ hlast
    rw [getLast?_append]
    rcases hending with rfl | rfl <;> rfl

theorem body_ne_of_parts? (h : parts? text = some (block, body)) : body ≠ text := by
  rintro rfl
  obtain ⟨head, htext, hhead⟩ := exists_encloses h
  obtain rfl : head = [] := by simpa using htext
  rcases hhead with hencloses | ⟨rfl, -⟩
  · cases hencloses.ends
  · cases h

theorem splitWith_of_parts? (load : Text → Except Yaml.Fault Yaml.Graph)
    (h : parts? text = some (block, body)) (hother : parts? other = some (block, below)) :
    (splitWith load other).map (·.1) = (splitWith load text).map (·.1) ∧
      ∀ mapping, splitWith load text = .ok (mapping, body) →
        splitWith load other = .ok (mapping, below) := by
  have hbody := body_ne_of_parts? h
  rw [splitWith, splitWith, h, hother]
  dsimp only
  cases load block with
  | error fault =>
    cases fault <;> exact ⟨rfl, by simp [Ne.symm hbody]⟩
  | ok graph =>
    dsimp only
    split
    · cases Yaml.Mapping.ofGraph? graph with
      | none => exact ⟨rfl, by simp [Ne.symm hbody]⟩
      | some mapping => exact ⟨rfl, by simp⟩
    · exact ⟨rfl, by simp⟩

end Header

namespace Marker

variable {content line block body first path text : Text}

/-- What is left of a text is all of it but so many letters. -/
def Measures (rest? : Text → Option Text) (length? : Text → Option Nat) : Prop :=
  ∀ text, rest? text = (length? text).map text.drop

theorem Measures.both {first second : Text → Option Text} {m n : Text → Option Nat}
    (hfirst : Measures first m) (hsecond : Measures second n) :
    Measures (fun text => (first text).bind second) (Marker.both m n) := by
  intro text
  dsimp only [Marker.both]
  rw [hfirst]
  cases m text with
  | none => rfl
  | some length =>
    change second (text.drop length) = _
    rw [hsecond]
    cases h : n (text.drop length) with
    | none => simp [h]
    | some more => simp [h, drop_drop]

theorem measures_breakLength? : Measures afterBreak? breakLength? := by
  intro text
  unfold afterBreak?
  split <;> simp [breakLength?, *]

theorem measures_endLength? :
    Measures (fun text => if text.isEmpty then some [] else afterBreak? text) endLength? := by
  intro text
  dsimp only [endLength?]
  split
  next h => simp [isEmpty_iff.mp h]
  next => exact measures_breakLength? text

theorem measures_dashesLength? :
    Measures (fun text => (stripPrefix? "---" text).map (·.dropWhile isSpaceOrTab))
      dashesLength? := by
  intro text
  change (stripPrefix? "---" text).map _ = _
  unfold dashesLength? startsWith
  cases h : stripPrefix? "---" text with
  | none => rfl
  | some rest =>
    obtain rfl := stripPrefix?_eq_some_iff.mp h
    have hdrop : (("---" : Text) ++ rest).drop 3 = rest := rfl
    have hblanks :
        rest.drop (rest.takeWhile isSpaceOrTab).length = rest.dropWhile isSpaceOrTab := by
      have hleft : (rest.takeWhile isSpaceOrTab ++ rest.dropWhile isSpaceOrTab).drop
          (rest.takeWhile isSpaceOrTab).length = _ := drop_left
      rwa [takeWhile_append_dropWhile] at hleft
    simp [hdrop, hblanks, ← drop_drop]

theorem measures_lengthToClosing? :
    Measures (fun text => (splitAtClosing? text).map (·.2)) lengthToClosing? := by
  have hclosing : Measures afterClosing? (Marker.both breakLength?
      (Marker.both dashesLength? endLength?)) := by
    intro text
    rw [← measures_breakLength?.both (measures_dashesLength?.both measures_endLength?) text]
    simp only [afterClosing?, Option.bind_map]
    rfl
  intro text
  induction text with
  | nil => rfl
  | cons l text ih =>
    dsimp only [splitAtClosing?, lengthToClosing?] at ih ⊢
    rw [hclosing]
    cases Marker.both breakLength? (Marker.both dashesLength? endLength?) (l :: text) with
    | some n => rfl
    | none => simpa [Function.comp_def] using ih

/-- The two readings of a header agree: what is measured here is what the reader of headers leaves
out, so the marker goes right below the header that is read. -/
theorem measures_headerLength? :
    Measures (fun text => (Header.parts? text).map (·.2)) headerLength? := by
  intro text
  rw [headerLength?, ← measures_dashesLength?.both
    (measures_breakLength?.both measures_lengthToClosing?) text]
  simp only [parts?, afterOpening?, Option.bind_map]
  cases stripPrefix? "---" text with
  | none => rfl
  | some rest =>
    change ((afterBreak? (rest.dropWhile isSpaceOrTab)).bind splitAtClosing?).map _ =
      (afterBreak? (rest.dropWhile isSpaceOrTab)).bind _
    cases afterBreak? (rest.dropWhile isSpaceOrTab) <;> rfl

theorem splitHeader?_eq (content : Text) : splitHeader? content =
    (Header.parts? content).map fun (_, body) =>
      (content.take (content.length - body.length), body) := by
  have hcut (n : Nat) : content.splitAt n =
      (content.take (content.length - (content.drop n).length), content.drop n) := by
    rw [splitAt_eq, length_drop, take_eq_take_min, take_eq_take_min (i := content.length - _)]
    congr 2
    omega
  have hbody := congrArg
    (Option.map fun body => (content.take (content.length - body.length), body))
    (measures_headerLength? content)
  rw [Option.map_map, Option.map_map] at hbody
  rw [splitHeader?, funext hcut]
  exact hbody.symm

theorem exists_addBelowHeader (h : Header.parts? content = some (block, body)) (line : Text) :
    ∃ head, Encloses head block ∧
      addBelowHeader line content = head ++ line ++ "\n" ++ body ∧
      (head ++ body = content ∨ body = [] ∧ head = content ++ "\n") := by
  obtain ⟨head, rfl, hhead⟩ := exists_encloses h
  have hsplit : splitHeader? (head ++ body) = some (head, body) := by
    simp [splitHeader?_eq, h]
  rw [addBelowHeader, hsplit]
  rcases hhead with hencloses | ⟨rfl, hend, hencloses⟩
  · exact ⟨head, hencloses, by simp only [hencloses.ends, if_true], .inl rfl⟩
  · refine ⟨head ++ "\n", hencloses, by simp only [hend, if_false], .inr ⟨rfl, ?_⟩⟩
    rw [append_nil]

/-- A marked text: one line more, which stands between whole lines. The last of them may gain the
break that it lacks. -/
structure HasLineMore (line content marked : Text) : Prop where
  oneLine : .char '\n' ∉ line
  inserted : ∃ before after, marked = before ++ line ++ "\n" ++ after ∧
    (before = [] ∨ before.getLast? = some (.char '\n')) ∧
    (before ++ after = content ∨ after = [] ∧ before = content ++ "\n")

theorem exists_splitLine (content : Text) : ∃ first rest, splitLine content = (first, rest) ∧
    .char '\n' ∉ first ∧ (first ++ "\n" ++ rest = content ∨ rest = [] ∧ first = content) := by
  have hall := takeWhile_append_dropWhile (p := (· != Letter.char '\n')) (l := content)
  refine ⟨_, _, rfl, fun hmem => ?_, ?_⟩
  · simpa using mem_takeWhile_imp hmem
  cases hrest : content.dropWhile (· != Letter.char '\n') with
  | nil =>
    rw [hrest, append_nil] at hall
    exact .inr ⟨rfl, hall⟩
  | cons l rest =>
    have hbreak : l = .char '\n' := by
      simpa [hrest] using head?_dropWhile_not (· != Letter.char '\n') content
    rw [hrest, hbreak] at hall
    exact .inl ((append_assoc _ _ _).trans hall)

theorem splitLine_append (h : .char '\n' ∉ first) (rest : Text) :
    splitLine (first ++ "\n" ++ rest) = (first, rest) := by
  have hfirst : ∀ l ∈ first, (l != .char '\n') = true := by
    intro l hl
    rw [bne_iff_ne]
    rintro rfl
    exact h hl
  rw [splitLine, append_assoc, takeWhile_append_of_pos hfirst, dropWhile_append_of_pos hfirst]
  simp [ofString, ofChars]

theorem addAtTop_cases (line content : Text) :
    (¬ ("#!" : Text) <+: content ∧ addAtTop line content = line ++ "\n" ++ content) ∨
      ("#!" : Text) <+: content ∧ addAtTop line content =
        (splitLine content).1 ++ "\n" ++ line ++ "\n" ++ (splitLine content).2 := by
  unfold addAtTop
  split
  next rest => exact .inr ⟨⟨rest, rfl⟩, rfl⟩
  next hnot =>
    refine .inl ⟨?_, rfl⟩
    rintro ⟨rest, rfl⟩
    exact hnot rest rfl

theorem hasLineMore_addAtTop (hline : .char '\n' ∉ line) (content : Text) :
    HasLineMore line content (addAtTop line content) := by
  refine ⟨hline, ?_⟩
  rcases addAtTop_cases line content with ⟨-, htop⟩ | ⟨-, htop⟩
  · exact ⟨[], content, htop, .inl rfl, .inl rfl⟩
  obtain ⟨first, rest, hsplit, -, hcontent⟩ := exists_splitLine content
  rw [htop, hsplit]
  refine ⟨first ++ "\n", rest, rfl, .inr (by rw [getLast?_append]; rfl), ?_⟩
  rcases hcontent with hcontent | ⟨hrest, hfirst⟩
  · exact .inl hcontent
  · exact .inr ⟨hrest, by rw [hfirst]⟩

theorem hasLineMore_addBelowHeader (hline : .char '\n' ∉ line) (content : Text) :
    HasLineMore line content (addBelowHeader line content) := by
  cases hparts : Header.parts? content with
  | none =>
    rw [addBelowHeader, splitHeader?_eq, hparts]
    exact hasLineMore_addAtTop hline content
  | some parts =>
    obtain ⟨head, hencloses, hmarked, hcontent⟩ := exists_addBelowHeader hparts line
    exact ⟨hline, head, _, hmarked, .inr hencloses.ends, hcontent⟩

theorem parts?_eq_none (h : text.head? ≠ some (.char '-')) : Header.parts? text = none := by
  rw [Option.eq_none_iff_forall_ne_some]
  rintro ⟨block, body⟩ hparts
  obtain ⟨_, _, _, ⟨_, _, rfl, -⟩, -, -, rfl⟩ := parts?_eq_some_iff.mp hparts
  exact h rfl

theorem parts?_addAtTop (hline : ∃ l, line.head? = some l ∧ l ≠ .char '-') (content : Text) :
    Header.parts? (addAtTop line content) = none := by
  obtain ⟨l, hhead, hdash⟩ := hline
  refine parts?_eq_none ?_
  rcases addAtTop_cases line content with ⟨-, htop⟩ | ⟨⟨more, rfl⟩, htop⟩
  · rw [htop, append_assoc, head?_append, hhead]
    simpa using hdash
  · rw [htop]
    simp [splitLine, ofString, ofChars]

theorem style_cases (h : line? path = some line) :
    (Path.kind path ∈ ([".md", ".mdc"] : List Text) ∧ line = "<!-- " ++ notice ++ " -->" ∧
        ∀ content, add path content = addBelowHeader line content) ∨
      Path.kind path ∉ ([".md", ".mdc"] : List Text) ∧
        (line = "# " ++ notice ∨ line = "// " ++ notice) ∧
        ∀ content, add path content = addAtTop line content := by
  unfold line? at h
  unfold add
  cases hstyle : style path with
  | comment other belowHeader =>
    rw [hstyle] at h
    obtain rfl : other = line := Option.some.inj h
    unfold style at hstyle
    dsimp only at hstyle
    split_ifs at hstyle with hjson hmd hhash hslash
    · cases hstyle
      exact .inl ⟨contains_iff_mem.mp hmd, rfl, fun _ => rfl⟩
    · cases hstyle
      exact .inr ⟨fun hmem => hmd (contains_iff_mem.mpr hmem), .inl rfl, fun _ => rfl⟩
    · cases hstyle
      exact .inr ⟨fun hmem => hmd (contains_iff_mem.mpr hmem), .inr rfl, fun _ => rfl⟩
  | jsonMember => rw [hstyle] at h; cases h
  | unmarked => rw [hstyle] at h; cases h

theorem break_not_mem_notice : Letter.char '\n' ∉ notice := by
  simp [notice, ofString, ofChars]

theorem splitLine_addAtTop (line : Text) (h : ("#!" : Text) <+: content) :
    (splitLine (addAtTop line content)).1 = (splitLine content).1 := by
  rcases addAtTop_cases line content with ⟨hnot, -⟩ | ⟨-, htop⟩
  · exact absurd h hnot
  · obtain ⟨first, rest, hsplit, hfirst, -⟩ := exists_splitLine content
    rw [htop, hsplit, append_assoc, append_assoc, splitLine_append hfirst]

theorem splitWith_addBelowHeader (hline : ∃ l, line.head? = some l ∧ l ≠ .char '-')
    (load : Text → Except Yaml.Fault Yaml.Graph) (content : Text) :
    (splitWith load (addBelowHeader line content)).map (·.1) = (splitWith load content).map (·.1) ∧
      ∀ block body mapping, Header.parts? content = some (block, body) →
        splitWith load content = .ok (mapping, body) →
        splitWith load (addBelowHeader line content) =
          .ok (mapping, line ++ "\n" ++ body) := by
  cases hparts : Header.parts? content with
  | none =>
    rw [addBelowHeader, splitHeader?_eq, hparts]
    refine ⟨?_, nofun⟩
    rw [Option.map_none, splitWith, splitWith, parts?_addAtTop hline, hparts]
    rfl
  | some parts =>
    obtain ⟨head, hencloses, hmarked, -⟩ := exists_addBelowHeader hparts line
    rw [hmarked, append_assoc, append_assoc]
    obtain ⟨hmapping, hbody⟩ := splitWith_of_parts? load hparts (hencloses.parts? _)
    refine ⟨hmapping, ?_⟩
    rintro _ _ mapping ⟨⟩ hsplit
    rw [append_assoc]
    exact hbody mapping hsplit

theorem splitLine_addBelowHeader (line : Text) (h : ("#!" : Text) <+: content) :
    (splitLine (addBelowHeader line content)).1 = (splitLine content).1 := by
  have hparts : Header.parts? content = none := by
    obtain ⟨rest, rfl⟩ := h
    exact parts?_eq_none (by simp [ofString, ofChars])
  rw [addBelowHeader, splitHeader?_eq, hparts]
  exact splitLine_addAtTop line h

/-- A marked text has the marker line more and nothing else, with a first line that starts with `#!`
still the first. A marked document has the mapping it had, by whatever way blocks are read, and the
marker stands between its header and its body. -/
theorem add_changes_nothing_said {path line : Text} (h : line? path = some line) (content : Text) :
    HasLineMore line content (add path content) ∧
      (Text.startsWith content "#!" = true →
        (splitLine (add path content)).1 = (splitLine content).1) ∧
      (Path.kind path ∈ ([".md", ".mdc"] : List Text) →
        ∀ load : Text → Except Yaml.Fault Yaml.Graph,
          (Header.splitWith load (add path content)).map (·.1) =
              (Header.splitWith load content).map (·.1) ∧
            ∀ block body mapping, Header.parts? content = some (block, body) →
              Header.splitWith load content = .ok (mapping, body) →
              Header.splitWith load (add path content) = .ok (mapping, line ++ "\n" ++ body)) := by
  rw [Text.startsWith_iff]
  rcases style_cases h with ⟨-, rfl, hadd⟩ | ⟨hkind, hline, hadd⟩
  · have hbreak : Letter.char '\n' ∉ "<!-- " ++ notice ++ " -->" := by
      simp [Text.ofString, Text.ofChars, break_not_mem_notice]
    rw [hadd]
    exact ⟨hasLineMore_addBelowHeader hbreak content, splitLine_addBelowHeader _,
      fun _ load => splitWith_addBelowHeader ⟨.char '<', rfl, by decide⟩ load content⟩
  · have hbreak : Letter.char '\n' ∉ line := by
      rcases hline with rfl | rfl <;> simp [Text.ofString, Text.ofChars, break_not_mem_notice]
    rw [hadd]
    exact ⟨hasLineMore_addAtTop hbreak content, splitLine_addAtTop line,
      fun hmem => absurd hmem hkind⟩

/-- The closing line ends the file, and the breaks of the others are of two letters. -/
theorem add_changes_nothing_said_at_end_of_file :
    line? "a.MDC" = some ("<!-- " ++ notice ++ " -->") ∧
      ∃ mapping, Yaml.Mapping.get? mapping "a" = some (.int 1) ∧
        Header.split "---\r\na: 1\r\n--- \t" = .ok (mapping, []) ∧
        Header.split (add "a.MDC" "---\r\na: 1\r\n--- \t") =
          .ok (mapping, ("<!-- " ++ notice ++ " -->" : Text) ++ "\n" ++ "") := by
  have hline : line? "a.MDC" = some ("<!-- " ++ notice ++ " -->") := by decide
  have hparts : Header.parts? "---\r\na: 1\r\n--- \t" = some (("a: 1" : Text), []) := by decide
  have hchecks : Outcome.checks (fun r => r.1.get? "a" == some (.int 1) && r.2 == [])
      (Header.split "---\r\na: 1\r\n--- \t") = true := by decide +kernel
  obtain ⟨⟨mapping, body⟩, hsplit, hfound⟩ := Outcome.exists_of_checks hchecks
  simp only [Bool.and_eq_true, beq_iff_eq] at hfound
  obtain ⟨hvalue, rfl⟩ := hfound
  have hsaid := (add_changes_nothing_said hline "---\r\na: 1\r\n--- \t").2.2 (by decide) Yaml.load
  exact ⟨hline, mapping, hvalue, hsplit, hsaid.2 _ _ _ hparts hsplit⟩

end Marker

open AgentConfig.Path

namespace Path

variable {ending : Text}

theorem exists_splitOn_append (before : Text) (hslash : Letter.char '/' ∉ ending) :
    ∃ pieces start, Text.splitOn '/' (before ++ ending) = pieces ++ [start ++ ending] := by
  induction before with
  | nil => exact ⟨[], [], splitOn_eq_singleton hslash⟩
  | cons l before ih =>
    obtain ⟨pieces, start, hpieces⟩ := ih
    change List.splitOn _ (before ++ ending) = _ at hpieces
    change ∃ pieces start, List.splitOn _ (l :: (before ++ ending)) = _
    rw [splitOn_cons_eq_if_modifyHead, hpieces]
    split
    · exact ⟨[] :: pieces, start, rfl⟩
    · cases pieces with
      | nil => exact ⟨[], l :: start, rfl⟩
      | cons piece pieces => exact ⟨(l :: piece) :: pieces, start, rfl⟩

theorem exists_fileName_append (before : Text) (hslash : Letter.char '/' ∉ ending)
    (hlong : 1 < ending.length) : ∃ start, fileName (before ++ ending) = start ++ ending := by
  obtain ⟨pieces, start, hpieces⟩ := exists_splitOn_append before hslash
  have hkept {name : Text} (hname : name.length ≤ 1) : (start ++ ending != name) = true := by
    rw [bne_iff_ne]
    rintro rfl
    rw [length_append] at hname
    omega
  refine ⟨start, ?_⟩
  rw [fileName, names, hpieces, filter_append, filter_singleton, hkept (by decide),
    hkept (by decide), getLast?_append]
  rfl

theorem splitLastDot?_append (start : Text) (hdot : Letter.char '.' ∉ ending) :
    splitLastDot? (start ++ .char '.' :: ending) = some (start, .char '.' :: ending) := by
  have hpass : ∀ l ∈ ending.reverse, (l != .char '.') = true := by
    intro l hl
    rw [bne_iff_ne]
    rintro rfl
    exact hdot (mem_reverse.mp hl)
  have hreverse : (start ++ .char '.' :: ending).reverse =
      ending.reverse ++ .char '.' :: start.reverse := by simp
  rw [splitLastDot?, hreverse, takeWhile_append_of_pos hpass, dropWhile_append_of_pos hpass]
  simp

theorem kind_append (before ending : Text) (hslash : Letter.char '/' ∉ ending)
    (hdot : Letter.char '.' ∉ ending) (hne : ending ≠ []) :
    kind (before ++ .char '.' :: ending) = Text.lower (.char '.' :: ending) ∨
      kind (before ++ .char '.' :: ending) = "" := by
  obtain ⟨l, more, rfl⟩ := exists_cons_of_ne_nil hne
  have hending : Letter.char '/' ∉ Letter.char '.' :: l :: more := by simpa using hslash
  obtain ⟨start, hname⟩ := exists_fileName_append before hending (by simp)
  rw [kind, hname, suffix, splitLastDot?_append start hdot]
  cases start with
  | nil => exact .inr (show Text.lower ("" : Text) = "" by decide)
  | cons first start => exact .inl rfl

end Path

namespace Marker

theorem addBelowHeader_document {block : Text} (h : Header.IsBlock block) (line body : Text) :
    addBelowHeader line (Header.document block body) =
      Header.document block (line ++ "\n" ++ body) := by
  have hsplit : splitHeader? (Header.document block body) =
      some ("---\n" ++ block ++ "\n---\n", body) := by
    rw [splitHeader?_eq, Header.parts?_document h]
    change some (List.take _ _, body) = _
    rw [Header.document, length_append, Nat.add_sub_cancel, take_left' rfl]
  have hbreak : ("---\n" ++ block ++ "\n---\n" : Text).getLast? = some (.char '\n') := by
    rw [getLast?_append]
    rfl
  rw [addBelowHeader, hsplit]
  simp only [hbreak, if_true]
  simp only [Header.document, append_assoc]

theorem style_mdc (before : Text) :
    style (before ++ ".mdc") = .comment ("<!-- " ++ notice ++ " -->") true ∨
      style (before ++ ".mdc") = .unmarked := by
  have hkind : kind (before ++ ".mdc") = Text.lower ".mdc" ∨
      kind (before ++ ".mdc") = "" :=
    Path.kind_append before "mdc" (by decide) (by decide) (by decide)
  rcases hkind with hkind | hkind
  · exact .inl (by rw [style, hkind]; rfl)
  · exact .inr (by rw [style, hkind]; rfl)

theorem style_toml (before : Text) :
    style (before ++ ".toml") = .comment ("# " ++ notice) false ∨
      style (before ++ ".toml") = .unmarked := by
  have hkind : kind (before ++ ".toml") = Text.lower ".toml" ∨
      kind (before ++ ".toml") = "" :=
    Path.kind_append before "toml" (by decide) (by decide) (by decide)
  rcases hkind with hkind | hkind
  · exact .inl (by rw [style, hkind]; rfl)
  · exact .inr (by rw [style, hkind]; rfl)

theorem exists_add_mdc {members : Json.Members} {entries : List (Yaml.Value × Yaml.Value)}
    (h : Forall₂ Yaml.IsPrintable members entries) (before body : Text) :
    ∃ below, add (before ++ ".mdc") (Header.document (Yaml.print members) body) =
      Header.document (Yaml.print members) below := by
  have hblock := Yaml.isBlock_print (Yaml.isField_of_isPrintable h)
  rcases style_mdc before with hstyle | hstyle
  · refine ⟨"<!-- " ++ notice ++ " -->" ++ "\n" ++ body, ?_⟩
    rw [add, hstyle]
    exact addBelowHeader_document hblock _ body
  · refine ⟨body, ?_⟩
    rw [add, hstyle]

end Marker

end AgentConfig
