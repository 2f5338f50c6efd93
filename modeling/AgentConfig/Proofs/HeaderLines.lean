import AgentConfig.Header
import AgentConfig.Proofs.Outcome
import AgentConfig.Proofs.Text.Find
import Mathlib.Data.List.SplitBy
import Mathlib.Data.List.TakeWhile

namespace AgentConfig

open List Text

variable {l : Letter} {more : List Text}

namespace Yaml

theorem Mapping.isTruthy_of_ofGraph? {g : Graph} {m : Mapping} (h : ofGraph? g = some m)
    (hentries : m.entries ≠ []) : g.isTruthy g.root = true := by
  obtain ⟨entries, hroot, rfl⟩ := Option.map_eq_some_iff.mp h
  unfold Graph.entries? at hroot
  split at hroot
  next cells hcell =>
    cases hroot
    cases hplace : g.root with
    | cell place =>
      rw [hplace] at hcell
      simpa [Graph.isTruthy, hcell, Cell.isEmpty] using hentries
    | _ => simp [hplace, Graph.cell?] at hcell
  next => cases hroot

end Yaml

namespace Text

variable {above line text : Text}

/-- The lines of a text, each with its break. Only the last one can lack it. -/
def rows (text : Text) : List Text := text.splitBy fun l _ => l != .char '\n'

theorem rows_append (h : above.getLast? = some (.char '\n')) (below : Text) :
    rows (above ++ below) = rows above ++ rows below := by
  refine splitBy_append fun l hl _ _ => ?_
  obtain rfl : .char '\n' = l := Option.some.inj (h.symm.trans hl)
  rfl

theorem head?_rows_append (h : above.getLast? = some (.char '\n')) (below : Text) :
    (above ++ below).rows.head? = above.rows.head? := by
  have hne : above.rows ≠ [] := splitBy_ne_nil.mpr (by rintro rfl; cases h)
  rw [rows_append h, head?_append_of_ne_nil _ hne]

theorem ends_of_rows (h : text.rows = line :: more) :
    line.getLast? = some (.char '\n') ∨ more = [] := by
  cases more with
  | nil => exact .inr rfl
  | cons next more =>
    have hchain := isChain_getLast_head_splitBy (fun l _ => l != Letter.char '\n') text
    rw [show text.splitBy _ = _ from h] at hchain
    obtain ⟨hne, -, hbreak⟩ := (isChain_cons_cons.mp hchain).1
    exact .inl (by rw [getLast?_eq_some_getLast hne, bne_eq_false_iff_eq.mp hbreak])

theorem rows_of_not_mem (hne : line ≠ []) (h : .char '\n' ∉ line.dropLast) :
    rows line = [line] := by
  refine splitBy_of_isChain hne ?_
  rw [← dropLast_append_getLast hne]
  refine isChain_append.mpr ⟨?_, isChain_singleton _, fun l hl _ _ => ?_⟩
  · refine (pairwise_of_forall_mem_list fun l hl _ _ => ?_).isChain
    exact bne_iff_ne.mpr (ne_of_mem_of_not_mem hl h)
  · exact bne_iff_ne.mpr (ne_of_mem_of_not_mem (mem_of_mem_getLast? hl) h)

theorem rows_line (h : .char '\n' ∉ line) (below : Text) :
    rows (line ++ .char '\n' :: below) = (line ++ [.char '\n']) :: rows below := by
  rw [append_cons, rows_append (by simp), rows_of_not_mem (by simp) (by simpa using h)]
  rfl

theorem tail_rows_of_not_mem (h : .char '\n' ∉ line) : line.rows.tail = [] := by
  by_cases hne : line = []
  · rw [hne]
    rfl
  · rw [rows_of_not_mem hne fun hmem => h (mem_of_mem_dropLast hmem)]
    rfl

theorem rows_induction {motive : Text → Prop} (last : ∀ line, .char '\n' ∉ line → motive line)
    (line : ∀ line below, .char '\n' ∉ line → motive below → motive (line ++ .char '\n' :: below))
    (text : Text) : motive text := by
  by_cases hbreak : .char '\n' ∈ text
  · obtain ⟨first, below, rfl, hfirst⟩ := eq_append_cons_of_mem hbreak
    exact line first below hfirst (rows_induction last line below)
  · exact last text hbreak
termination_by text.length
decreasing_by
  subst_vars
  rw [length_append, length_cons]
  omega

theorem tail_rows_cons (h : l ≠ .char '\n') (text : Text) :
    (rows (l :: text)).tail = text.rows.tail := by
  have hcons {line : Text} (hline : .char '\n' ∉ line) : .char '\n' ∉ l :: line := by
    simpa [hline] using h.symm
  induction text using rows_induction with
  | last line hline => rw [tail_rows_of_not_mem hline, tail_rows_of_not_mem (hcons hline)]
  | line line below hline =>
    rw [rows_line hline, ← cons_append, rows_line (hcons hline)]
    rfl

end Text

namespace Header

variable {text rest block ending closing body line blanks first opening : Text}

def IsBreak (text : Text) : Prop := text = "\n" ∨ text = "\r\n"

theorem afterBreak?_eq_some_iff :
    afterBreak? text = some rest ↔ ∃ ending, IsBreak ending ∧ text = ending ++ rest := by
  constructor
  · intro h
    unfold afterBreak? at h
    split at h
    next => exact ⟨"\n", .inl rfl, by cases h; rfl⟩
    next => exact ⟨"\r\n", .inr rfl, by cases h; rfl⟩
    next => cases h
  · rintro ⟨ending, rfl | rfl, rfl⟩ <;> rfl

/-- A line has its break, or nothing follows it. -/
def EndsAt (line body : Text) : Prop := line.getLast? = some (.char '\n') ∨ body = []

/-- A line of three dashes, with blanks behind them. -/
def IsDashes (line : Text) : Prop :=
  ∃ blanks ending : Text, line = "---" ++ blanks ++ ending ∧
    (∀ l ∈ blanks, isSpaceOrTab l = true) ∧ (ending = "" ∨ IsBreak ending)

theorem break_not_mem_dashes (h : ∀ l ∈ blanks, isSpaceOrTab l = true) :
    .char '\n' ∉ ("---" ++ blanks : Text) := by
  intro hmem
  rcases mem_append.mp hmem with hdash | hblank
  · exact absurd hdash (by decide)
  · exact absurd (h _ hblank) (by decide)

theorem IsDashes.rows_append (h : IsDashes line) (hend : EndsAt line body) :
    Text.rows (line ++ body) = line :: body.rows := by
  have hline : line.rows = [line] := by
    obtain ⟨blanks, ending, rfl, hblanks, hending⟩ := h
    have hnone := break_not_mem_dashes hblanks
    refine Text.rows_of_not_mem (by simp [Text.ofString, Text.ofChars]) ?_
    rcases hending with rfl | rfl | rfl
    · exact fun hmem => hnone ((append_nil _).subst (mem_of_mem_dropLast hmem))
    all_goals
      rw [dropLast_append_of_ne_nil (by decide)]
      simpa [ofString, ofChars] using hnone
  rcases hend with hbreak | rfl
  · rw [Text.rows_append hbreak, hline, singleton_append]
  · rw [append_nil, hline]
    rfl

/-- What follows a first line of dashes, which may end the text. -/
def afterDashes? (text : Text) : Option Text := do
  let rest ← stripPrefix? "---" text
  let rest := rest.dropWhile isSpaceOrTab
  if rest.isEmpty then some [] else afterBreak? rest

theorem IsDashes.afterDashes? (h : IsDashes line) (hend : EndsAt line body) :
    Header.afterDashes? (line ++ body) = some body := by
  obtain ⟨blanks, ending, rfl, hblanks, hending⟩ := h
  rw [append_assoc, append_assoc, Header.afterDashes?, stripPrefix?_append]
  change (if ((blanks ++ (ending ++ body)).dropWhile _).isEmpty then _ else _) = _
  rw [dropWhile_append_of_pos hblanks]
  rcases hending with rfl | rfl | rfl
  · rcases hend with hlast | rfl
    · have hmem := mem_of_getLast? hlast
      rw [show ("" : Text) = [] from rfl, append_nil] at hmem
      exact absurd hmem (break_not_mem_dashes hblanks)
    · rfl
  · rfl
  · rfl

theorem exists_of_afterDashes? (h : afterDashes? text = some body) :
    ∃ line, IsDashes line ∧ text = line ++ body ∧ EndsAt line body := by
  obtain ⟨rest, hdashes, hrest⟩ := Option.bind_eq_some_iff.mp h
  rw [stripPrefix?_eq_some_iff] at hdashes
  dsimp only at hrest
  split at hrest
  next hempty =>
    obtain rfl : [] = body := Option.some.inj hrest
    have hblanks := dropWhile_eq_nil_iff.mp (isEmpty_iff.mp hempty)
    refine ⟨text, ⟨rest, "", ?_, hblanks, .inl rfl⟩, (append_nil _).symm, .inr rfl⟩
    exact hdashes.trans (append_nil _).symm
  next =>
    obtain ⟨ending, hending, hbreak⟩ := afterBreak?_eq_some_iff.mp hrest
    refine ⟨_, ⟨rest.takeWhile isSpaceOrTab, ending, rfl, fun l hl => mem_takeWhile_imp hl,
      .inr hending⟩, ?_, .inl ?_⟩
    · rw [append_assoc, append_assoc, ← hbreak, takeWhile_append_dropWhile, hdashes]
    · rw [getLast?_append]
      rcases hending with rfl | rfl <;> rfl

theorem afterDashes?_eq_none_iff :
    afterDashes? text = none ↔ ∀ line ∈ text.rows.head?, ¬ IsDashes line := by
  constructor
  · intro h first hhead hfirst
    obtain ⟨more, hrows⟩ := head?_eq_some_iff.mp hhead
    have htext : text = first ++ more.flatten := by
      rw [← flatten_cons, ← hrows, Text.rows, flatten_splitBy]
    rw [htext, hfirst.afterDashes? ((ends_of_rows hrows).imp_right (by simp [·]))] at h
    cases h
  · intro h
    rw [Option.eq_none_iff_forall_ne_some]
    intro body hbody
    obtain ⟨line, hline, rfl, hends⟩ := exists_of_afterDashes? hbody
    rw [hline.rows_append hends] at h
    exact h line rfl hline

/-- A block and the break that ends it, of which the block holds no part. -/
def IsEnded (block ending : Text) : Prop :=
  ending = "\r\n" ∨ ending = "\n" ∧ block.getLast? ≠ some (.char '\r')

theorem afterClosing?_cons_eq_none (hbreak : l ≠ .char '\n')
    (hreturn : l = .char '\r' → text.head? ≠ some (.char '\n')) :
    afterClosing? (l :: text) = none := by
  have hnone : afterBreak? (l :: text) = none := by
    unfold afterBreak?
    split <;> simp_all
  rw [afterClosing?, hnone]
  rfl

theorem splitAtClosing?_of_not_mem (h : .char '\n' ∉ text) : splitAtClosing? text = none := by
  induction text with
  | nil => rfl
  | cons l text ih =>
    rw [mem_cons, not_or] at h
    rw [splitAtClosing?, afterClosing?_cons_eq_none (Ne.symm h.1), ih h.2]
    · rfl
    · exact fun _ hhead => h.2 (mem_of_mem_head? hhead)

theorem splitAtClosing?_ended (hblock : .char '\n' ∉ block) (hended : IsEnded block ending)
    (rest : Text) : splitAtClosing? (block ++ (ending ++ rest)) =
      match afterDashes? rest with
      | some body => some (block, body)
      | none => (splitAtClosing? rest).map fun (more, body) =>
        (block ++ (ending ++ more), body) := by
  induction block with
  | nil =>
    have hbreak : splitAtClosing? (.char '\n' :: rest) =
        match afterDashes? rest with
        | some body => some ([], body)
        | none => (splitAtClosing? rest).map fun (more, body) => (.char '\n' :: more, body) := rfl
    rcases hended with rfl | ⟨rfl, -⟩
    · change (match afterDashes? rest with
        | some body => some ([], body)
        | none => (splitAtClosing? (.char '\n' :: rest)).map _) = _
      rw [hbreak]
      cases afterDashes? rest with
      | some body => rfl
      | none => cases splitAtClosing? rest <;> rfl
    · exact hbreak
  | cons l block ih =>
    rw [mem_cons, not_or] at hblock
    have hnone : afterClosing? (l :: (block ++ (ending ++ rest))) = none := by
      refine afterClosing?_cons_eq_none (Ne.symm hblock.1) ?_
      rintro rfl
      cases block with
      | nil => rcases hended with rfl | ⟨rfl, hlast⟩ <;> simp_all [ofString, ofChars]
      | cons next block => simp_all [eq_comm]
    have hrest : IsEnded block ending := by
      refine hended.imp_right fun ⟨hending, hlast⟩ => ⟨hending, fun hreturn => hlast ?_⟩
      simp [getLast?_cons, hreturn]
    rw [cons_append, splitAtClosing?, hnone, ih hblock.2 hrest]
    cases afterDashes? rest with
    | some body => rfl
    | none => cases splitAtClosing? rest <;> rfl

theorem exists_splitAtClosing?_line (h : .char '\n' ∉ line) :
    ∃ block ending, line ++ [.char '\n'] = block ++ ending ∧ IsEnded block ending ∧
      ∀ rest, splitAtClosing? (line ++ .char '\n' :: rest) =
        match afterDashes? rest with
        | some body => some (block, body)
        | none => (splitAtClosing? rest).map fun (more, body) =>
            (line ++ .char '\n' :: more, body) := by
  by_cases hreturn : line.getLast? = some (.char '\r')
  · obtain ⟨block, rfl⟩ := getLast?_eq_some_iff.mp hreturn
    have hended : IsEnded block "\r\n" := .inl rfl
    refine ⟨block, "\r\n", append_assoc _ _ _, hended, fun rest => ?_⟩
    simp only [append_assoc]
    exact splitAtClosing?_ended (fun hmem => h (mem_append_left _ hmem)) hended rest
  · have hended : IsEnded line "\n" := .inr ⟨rfl, hreturn⟩
    exact ⟨line, "\n", rfl, hended, splitAtClosing?_ended h hended⟩

theorem IsEnded.getLast? (h : IsEnded block ending) (above : Text) :
    (above ++ ending).getLast? = some (.char '\n') := by
  rw [getLast?_append]
  rcases h with rfl | ⟨rfl, -⟩ <;> rfl

/-- A block, the break behind it, and the first line of dashes below its first line. The first line
may itself be one of dashes. -/
structure Closes (block ending closing body : Text) : Prop where
  ended : IsEnded block ending
  first : ∀ row ∈ (block ++ ending).rows.tail, ¬ IsDashes row
  dashes : IsDashes closing
  ends : EndsAt closing body

theorem forall_mem_rows_iff : (∀ row ∈ text.rows, ¬ IsDashes row) ↔
      afterDashes? text = none ∧ ∀ row ∈ text.rows.tail, ¬ IsDashes row := by
  rw [afterDashes?_eq_none_iff]
  cases text.rows <;> simp

theorem closes_line_iff (h : .char '\n' ∉ line) :
    Closes (line ++ .char '\n' :: block) ending closing body ↔
      afterDashes? (block ++ (ending ++ (closing ++ body))) = none ∧
        Closes block ending closing body := by
  have hended : IsEnded (line ++ .char '\n' :: block) ending ↔ IsEnded block ending := by
    cases block <;> simp [IsEnded, getLast?_append]
  have hfirst (hlast : IsEnded block ending) :
      afterDashes? (block ++ (ending ++ (closing ++ body))) = none ↔
        afterDashes? (block ++ ending) = none := by
    rw [afterDashes?_eq_none_iff, afterDashes?_eq_none_iff, ← append_assoc,
      head?_rows_append (hlast.getLast? block)]
  constructor
  · rintro ⟨hlast, hrows, hdashes, hends⟩
    rw [append_assoc, cons_append, rows_line h, tail_cons, forall_mem_rows_iff] at hrows
    rw [hended] at hlast
    exact ⟨(hfirst hlast).mpr hrows.1, hlast, hrows.2, hdashes, hends⟩
  · rintro ⟨hnone, hlast, hrows, hdashes, hends⟩
    refine ⟨hended.mpr hlast, ?_, hdashes, hends⟩
    rw [append_assoc, cons_append, rows_line h, tail_cons, forall_mem_rows_iff]
    exact ⟨(hfirst hlast).mp hnone, hrows⟩

theorem exists_closes (h : splitAtClosing? text = some (block, body)) :
    ∃ ending closing, Closes block ending closing body ∧
      text = block ++ (ending ++ (closing ++ body)) := by
  induction text using rows_induction generalizing block with
  | last line hline => rw [splitAtClosing?_of_not_mem hline] at h; cases h
  | line line more hline ih =>
    obtain ⟨inside, ending, hsplit, hended, hstep⟩ := exists_splitAtClosing?_line hline
    rw [hstep] at h
    split at h
    next hdashes =>
      obtain ⟨rfl, rfl⟩ := Prod.mk.inj (Option.some.inj h)
      obtain ⟨closing, hclosing, rfl, hends⟩ := exists_of_afterDashes? hdashes
      refine ⟨ending, closing, ⟨hended, ?_, hclosing, hends⟩, ?_⟩
      · rw [← hsplit, rows_line hline]
        exact nofun
      · rw [← append_assoc, ← hsplit, append_cons]
    next hdashes =>
      obtain ⟨⟨above, body'⟩, hmore, heq⟩ := Option.map_eq_some_iff.mp h
      obtain ⟨rfl, rfl⟩ := Prod.mk.inj heq
      obtain ⟨ending', closing, hcloses, rfl⟩ := ih hmore
      exact ⟨ending', closing, (closes_line_iff hline).mpr ⟨hdashes, hcloses⟩, by simp⟩

theorem Closes.splitAtClosing? (h : Closes block ending closing body) :
    Header.splitAtClosing? (block ++ (ending ++ (closing ++ body))) = some (block, body) := by
  induction block using rows_induction with
  | last line hline => rw [splitAtClosing?_ended hline h.ended, h.dashes.afterDashes? h.ends]
  | line line more hline ih =>
    obtain ⟨_, _, _, _, hstep⟩ := exists_splitAtClosing?_line hline
    obtain ⟨hnone, hmore⟩ := (closes_line_iff hline).mp h
    rw [append_assoc, cons_append, hstep, hnone, ih hmore]
    rfl

theorem forall_rows_of_splitAtClosing? (h : splitAtClosing? text = none) :
    ∀ row ∈ text.rows.tail, ¬ IsDashes row := by
  induction text using rows_induction with
  | last line hline => rw [tail_rows_of_not_mem hline]; exact nofun
  | line line more hline ih =>
    obtain ⟨_, _, _, _, hstep⟩ := exists_splitAtClosing?_line hline
    rw [rows_line hline, tail_cons, forall_mem_rows_iff]
    rw [hstep] at h
    split at h
    next => cases h
    next hdashes => exact ⟨hdashes, ih (Option.map_eq_none_iff.mp h)⟩

theorem parts?_eq (text : Text) : parts? text = (afterDashes? text).bind splitAtClosing? := by
  unfold parts? afterOpening? afterDashes?
  cases stripPrefix? "---" text with
  | none => rfl
  | some rest =>
    simp only [Option.bind_eq_bind, Option.bind_some]
    split
    next hempty => rw [isEmpty_iff.mp hempty]; rfl
    next => rfl

/-- A header is framed by two lines of dashes: the first line, and the first one below the line that
follows it. -/
theorem parts?_eq_some_iff : parts? text = some (block, body) ↔
    ∃ opening ending closing, IsDashes opening ∧ opening.getLast? = some (.char '\n') ∧
      Closes block ending closing body ∧
      text = opening ++ (block ++ (ending ++ (closing ++ body))) := by
  rw [parts?_eq]
  constructor
  · intro h
    obtain ⟨rest, hopening, hrest⟩ := Option.bind_eq_some_iff.mp h
    obtain ⟨opening, hdashes, rfl, hbreak | rfl⟩ := exists_of_afterDashes? hopening
    · obtain ⟨ending, closing, hcloses, rfl⟩ := exists_closes hrest
      exact ⟨opening, ending, closing, hdashes, hbreak, hcloses, rfl⟩
    · cases hrest
  · rintro ⟨opening, ending, closing, hdashes, hbreak, hcloses, rfl⟩
    rw [hdashes.afterDashes? (.inl hbreak), Option.bind_some, hcloses.splitAtClosing?]

theorem rows_of_closes (hopening : IsDashes opening) (hbreak : opening.getLast? = some (.char '\n'))
    (h : Closes block ending closing body) :
    ∃ first between, (block ++ ending).rows = first :: between ∧
      Text.rows (opening ++ (block ++ (ending ++ (closing ++ body)))) =
        opening :: first :: (between ++ closing :: body.rows) := by
  have hlast := h.ended.getLast? block
  cases hbetween : (block ++ ending).rows with
  | nil => rw [splitBy_eq_nil.mp hbetween] at hlast; cases hlast
  | cons first between =>
    refine ⟨first, between, rfl, ?_⟩
    rw [hopening.rows_append (.inl hbreak), ← append_assoc block, rows_append hlast, hbetween,
      h.dashes.rows_append h.ends]
    rfl

theorem isSome_parts? (hrows : text.rows = opening :: first :: more) (hopening : IsDashes opening)
    (hmore : ∃ row ∈ more, IsDashes row) : (parts? text).isSome := by
  obtain ⟨row, hmem, hrow⟩ := hmore
  have htext : text = opening ++ (first :: more).flatten := by
    rw [← flatten_cons, ← hrows, Text.rows, flatten_splitBy]
  have hbreak := (ends_of_rows hrows).resolve_right (cons_ne_nil _ _)
  have hrest := hopening.rows_append (.inl hbreak : EndsAt opening (first :: more).flatten)
  rw [← htext, hrows] at hrest
  rw [parts?_eq, htext, hopening.afterDashes? (.inl hbreak), Option.bind_some,
    Option.isSome_iff_ne_none]
  intro hnone
  have hclear := forall_rows_of_splitAtClosing? hnone
  rw [← (List.cons.inj hrest).2] at hclear
  exact hclear row hmem hrow

/-- A text has a header if and only if its first line and a line below the second are made of
dashes. The first such line closes it, the block is all between the two lines but for the last
break, and the text is these parts one after the other. The block is left in the body when it is
malformed or a value that is no mapping, unless that value counts as false. Other faults of a block
are those of the text. -/
theorem split_closes_at_first_dashes (text : Text) :
    ((parts? text).isSome ↔ ∃ opening first more, text.rows = opening :: first :: more ∧
      IsDashes opening ∧ ∃ row ∈ more, IsDashes row) ∧
    (parts? text = none → split text = .ok ({}, text)) ∧
    ∀ block body, parts? text = some (block, body) →
      (∃ opening first between closing ending, IsDashes opening ∧ IsDashes closing ∧
        (∀ row ∈ between, ¬ IsDashes row) ∧
        text.rows = opening :: first :: (between ++ closing :: body.rows) ∧
        first ++ between.flatten = block ++ ending ∧ IsEnded block ending ∧
        text = opening ++ block ++ ending ++ closing ++ body) ∧
      (Yaml.load block = .error .malformed → split text = .ok ({}, text)) ∧
      (∀ fault ≠ .malformed, Yaml.load block = .error fault → split text = .error fault) ∧
      ∀ g, Yaml.load block = .ok g →
        (g.isTruthy g.root = false → split text = .ok ({}, body)) ∧
        (g.isTruthy g.root = true →
          split text = .ok (((Yaml.Mapping.ofGraph? g).map (·, body)).getD ({}, text))) := by
  refine ⟨⟨fun h => ?_, ?_⟩, fun h => ?_, fun block body h => ⟨?_, ?_, ?_, fun g hload => ⟨?_, ?_⟩⟩⟩
  · obtain ⟨⟨block, body⟩, hparts⟩ := Option.isSome_iff_exists.mp h
    obtain ⟨opening, ending, closing, hopening, hbreak, hcloses, rfl⟩ :=
      parts?_eq_some_iff.mp hparts
    obtain ⟨first, between, -, hrows⟩ := rows_of_closes hopening hbreak hcloses
    exact ⟨opening, first, _, hrows, hopening, closing, by simp, hcloses.dashes⟩
  · rintro ⟨opening, first, more, hrows, hopening, hmore⟩
    exact isSome_parts? hrows hopening hmore
  · rw [split, splitWith, h]
  · obtain ⟨opening, ending, closing, hopening, hbreak, hcloses, rfl⟩ := parts?_eq_some_iff.mp h
    obtain ⟨first, between, hbetween, hrows⟩ := rows_of_closes hopening hbreak hcloses
    have hfirst := hcloses.first
    rw [hbetween] at hfirst
    refine ⟨opening, first, between, closing, ending, hopening, hcloses.dashes, hfirst, hrows, ?_,
      hcloses.ended, by simp only [append_assoc]⟩
    rw [← flatten_cons, ← hbetween, Text.rows, flatten_splitBy]
  · intro hload
    simp only [split, splitWith, h, hload]
  · intro fault hfault hload
    simp only [split, splitWith, h, hload]
  · intro hfalse
    simp [split, splitWith, h, hload, hfalse]
  · intro htrue
    simp only [split, splitWith, h, hload, htrue, if_true]
    cases Yaml.Mapping.ofGraph? g <;> rfl

/-- A date that is none is no malformed block, and the text is not read. -/
theorem impossible_date_in_header_escapes :
    Outcome.fails (· == .unconvertible "month must be in 1..12")
      (split "---\nd: 2024-13-01\n---\nbody") = true := by
  decide +kernel

end Header

end AgentConfig
