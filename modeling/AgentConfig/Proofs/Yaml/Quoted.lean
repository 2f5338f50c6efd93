import AgentConfig.Proofs.Text.Letters
import AgentConfig.Proofs.Yaml.Cursor
import AgentConfig.Yaml.Scalar

namespace AgentConfig.Yaml.Quoted

open List Text

variable {done value : Text} {fuel indent more n : Nat} {ch : Char} {next : Cursor}

/-- `Escapes written l`: after a backslash the characters `written` stand for the letter `l`. -/
inductive Escapes : List Char → Letter → Prop where
  | short {ch value : Char} (h : simpleEscape? ch = some value) : Escapes [ch] (.char value)
  | numeric {ch : Char} {width : Nat} {digits : List Char} {l : Letter}
      (hch : simpleEscape? ch = none) (hwidth : escapeWidth? ch = some width)
      (hlength : digits.length = width) (hdigits : hexNumber? digits = some l.code) :
      Escapes (ch :: digits) l

def mark (double : Bool) : Char := if double then '"' else '\''

/-- `Spells double written text`: between quotes the characters `written` stand for `text`. Blanks
at a line break belong to the break, so what follows one starts with a visible character, and no
space stands before one. -/
inductive Spells (double : Bool) : List Char → Text → Prop where
  | nil : Spells double [] []
  | letter {ch : Char} {written : List Char} {text : Text} (hink : IsInk ch)
      (hmark : ch ≠ mark double) (hslash : double = true → ch ≠ '\\')
      (h : Spells double written text) : Spells double (ch :: written) (.char ch :: text)
  | quote {written : List Char} {text : Text} (hsingle : double = false)
      (h : Spells double written text) :
      Spells double ('\'' :: '\'' :: written) (.char '\'' :: text)
  | space {written : List Char} {text : Text} (hhead : written.head? ≠ some '\n')
      (h : Spells double written text) : Spells double (' ' :: written) (.char ' ' :: text)
  /-- A break folds into a space, and with further breaks into those. -/
  | breaks {written : List Char} {text : Text} (more indent : Nat)
      (hhead : ∀ ch ∈ written.head?, IsInk ch) (h : Spells double written text) :
      Spells double
        ('\n' :: (replicate more '\n' ++ (replicate (indent + 1) ' ' ++ written)))
        (ofChars (foldBreaks '\n' (replicate more '\n')) ++ text)
  | escape {written sequence : List Char} {text : Text} {l : Letter} (hdouble : double = true)
      (hescape : Escapes sequence l) (hvisible : ∀ ch ∈ sequence, IsInk ch ∨ ch = ' ')
      (h : Spells double written text) :
      Spells double ('\\' :: (sequence ++ written)) (l :: text)
  /-- A break behind a backslash stands for nothing. -/
  | continued {written : List Char} {text : Text} (indent : Nat) (hdouble : double = true)
      (hhead : ∀ ch ∈ written.head?, IsInk ch) (h : Spells double written text) :
      Spells double ('\\' :: '\n' :: (replicate (indent + 1) ' ' ++ written)) text

variable {double : Bool} {c : Cursor} {written tail gap sequence : List Char} {text : Text}

theorem isInk_mark (double : Bool) : IsInk (mark double) := by cases double <;> decide

theorem Spells.spaces (h : Spells double written text) :
    ∃ n written' text', written = replicate n ' ' ++ written' ∧
      text = replicate n (.char ' ') ++ text' ∧ Spells double written' text' ∧
      written'.head? ≠ some ' ' ∧ (n ≠ 0 → written'.head? ≠ some '\n') := by
  induction h with
  | space hhead h ih =>
    obtain ⟨n, written', text', rfl, rfl, h', hspace, hbreak⟩ := ih
    refine ⟨n + 1, written', text', rfl, rfl, h', hspace, fun _ => ?_⟩
    cases n with
    | zero => exact hhead
    | succ n => exact hbreak (by omega)
  | nil => exact ⟨0, _, _, rfl, rfl, .nil, by simp, by simp⟩
  | letter hink hmark hslash h =>
    exact ⟨0, _, _, rfl, rfl, .letter hink hmark hslash h, by simpa using hink.ne (by decide),
      by simp⟩
  | quote hsingle h => exact ⟨0, _, _, rfl, rfl, .quote hsingle h, by simp, by simp⟩
  | breaks more indent hhead h =>
    exact ⟨0, _, _, rfl, rfl, .breaks more indent hhead h, by simp, by simp⟩
  | escape hdouble hescape hvisible h =>
    exact ⟨0, _, _, rfl, rfl, .escape hdouble hescape hvisible h, by simp, by simp⟩
  | continued indent hdouble hhead h =>
    exact ⟨0, _, _, rfl, rfl, .continued indent hdouble hhead h, by simp, by simp⟩

theorem quotedBreaks_eq (breaks : List Char) (hfuel : more < fuel)
    (hrest : c.rest = replicate more '\n' ++ (replicate (indent + 1) ' ' ++ tail))
    (htail : ∀ ch ∈ tail.head?, IsInk ch) :
    quotedBreaks fuel breaks c =
      .ok (breaks ++ replicate more '\n', c.advanceBy (more + (indent + 1))) := by
  induction more generalizing fuel breaks c with
  | zero =>
    obtain _ | fuel := fuel
    · omega
    rw [replicate_zero, nil_append] at hrest
    have hseparator : c.atSeparator = false :=
      Cursor.atSeparator_eq_false fun ch hch => by
        have : ch = ' ' := by simpa [hrest, replicate_succ] using hch.symm
        subst this
        decide
    have hskip : c.skipWhile (fun ch => ch == ' ' || ch == '\t') = c.advanceBy (indent + 1) := by
      rw [Cursor.skipWhile, Cursor.takeWhile_eq hrest, length_replicate]
      · exact fun ch hch => by simp [eq_of_mem_replicate hch]
      · intro ch hch
        have hink := htail ch hch
        simpa using ⟨hink.ne (by decide), hink.ne (by decide)⟩
    have hafter : (c.advanceBy (indent + 1)).rest = tail := by
      simpa using Cursor.rest_after hrest
    have hbreak : (c.advanceBy (indent + 1)).lineBreak? = none :=
      Cursor.lineBreak?_eq_none fun ch hch => (htail ch (hafter ▸ hch)).isBreak
    simp [quotedBreaks, hseparator, hskip, hbreak]
  | succ more ih =>
    obtain _ | fuel := fuel
    · omega
    rw [replicate_succ, cons_append] at hrest
    have hseparator : c.atSeparator = false :=
      Cursor.atSeparator_eq_false fun ch hch => by
        have : ch = '\n' := by simpa [hrest] using hch.symm
        subst this
        decide
    have hskip : c.skipWhile (fun ch => ch == ' ' || ch == '\t') = c := by
      rw [Cursor.skipWhile, Cursor.takeWhile_none (by simp [hrest])]
    have hnext := ih (c := c.advance) (breaks ++ ['\n']) (by omega : more < fuel)
      (by rw [Cursor.rest_advance, hrest]; rfl)
    simp only [quotedBreaks, hseparator, hskip, Cursor.lineBreak?_newline hrest, hnext,
      Bool.false_eq_true, if_false]
    rw [append_assoc, ← Cursor.advanceBy_succ, singleton_append, ← replicate_succ]
    congr 3
    omega

theorem quotedGap_spaces (hrest : c.rest = replicate n ' ' ++ tail)
    (htail : ∃ ch, tail.head? = some ch ∧ IsInk ch) :
    quotedGap c = .ok (replicate n ' ', c.advanceBy n) := by
  obtain ⟨ch, hhead, hink⟩ := htail
  have htake : c.takeWhile (fun ch => ch == ' ' || ch == '\t') =
      (replicate n ' ', c.advanceBy n) := by
    rw [Cursor.takeWhile_eq hrest, length_replicate]
    · exact fun d hd => by simp [eq_of_mem_replicate hd]
    · intro d hd
      obtain rfl : ch = d := by simpa [hhead] using hd
      simpa using ⟨hink.ne (by decide), hink.ne (by decide)⟩
  have hafter : (c.advanceBy n).rest = tail := by simpa using Cursor.rest_after hrest
  have hbreak : (c.advanceBy n).lineBreak? = none :=
    Cursor.lineBreak?_eq_none fun d hd => by
      obtain rfl : ch = d := by simpa [hafter, hhead] using hd
      exact hink.isBreak
  have hne : tail ≠ [] := by
    rintro rfl
    cases hhead
  simp [quotedGap, htake, hafter, hbreak, hne]

theorem quotedGap_breaks (hlimit : c.rest.length < c.limit) (hrest : c.rest =
      '\n' :: (replicate more '\n' ++ (replicate (indent + 1) ' ' ++ tail)))
    (htail : ∀ ch ∈ tail.head?, IsInk ch) :
    quotedGap c = .ok (foldBreaks '\n' (replicate more '\n'),
      c.advanceBy (1 + more + (indent + 1))) := by
  have htake : c.takeWhile (fun ch => ch == ' ' || ch == '\t') = ([], c) :=
    Cursor.takeWhile_none (by simp [hrest])
  have hmore : more < c.limit := by
    rw [hrest] at hlimit
    simp only [length_cons, length_append, length_replicate] at hlimit
    omega
  have hbreaks := quotedBreaks_eq (c := c.advance) [] hmore
    (by rw [Cursor.rest_advance, hrest]; rfl) htail
  simp only [quotedGap, htake, Cursor.lineBreak?_newline hrest, Cursor.limit_advance, hbreaks,
    nil_append, Except.map]
  rw [← Cursor.advanceBy_succ, if_neg (by simp [hrest])]
  congr 3
  omega

theorem escapeSequence_eq {l : Letter} (h : Escapes sequence l)
    (hrest : c.rest = sequence ++ tail) :
    escapeSequence c = .ok ([l], c.advanceBy sequence.length) := by
  cases h with
  | short h =>
    have hpeek : c.peek = _ := congrArg List.head? hrest
    simp [escapeSequence, hpeek, h, Cursor.advanceBy_succ]
  | @numeric ch width digits l hch hwidth hlength hdigits =>
    have hpeek : c.peek = _ := congrArg List.head? hrest
    simp only [cons_append, head?_cons] at hpeek
    have hdigitsTaken : c.advance.rest.take width = digits := by
      rw [Cursor.rest_advance, hrest, ← hlength]
      simp
    have hletter : letterOfCode l.code = .ok l := by
      rw [letterOfCode, if_pos l.code_lt, l.ofCode_code]
    simp only [escapeSequence, hpeek, hch, hwidth, hdigitsTaken, hdigits, hletter, hlength,
      Nat.lt_irrefl, if_false, Except.map, length_cons]
    rw [← Cursor.advanceBy_succ]

theorem escapeSequence_continued (hlimit : 0 < c.limit)
    (hrest : c.rest = '\n' :: (replicate (indent + 1) ' ' ++ tail))
    (htail : ∀ ch ∈ tail.head?, IsInk ch) :
    escapeSequence c = .ok ([], c.advanceBy (1 + (indent + 1))) := by
  have hpeek : c.peek = some '\n' := congrArg List.head? hrest
  have hbreaks := quotedBreaks_eq (c := c.advance) [] hlimit
    (by rw [Cursor.rest_advance, hrest, replicate_zero]; rfl) htail
  have hsimple : simpleEscape? '\n' = none := rfl
  have hwidth : escapeWidth? '\n' = none := rfl
  simp only [escapeSequence, hpeek, hsimple, hwidth, Cursor.lineBreak?_newline hrest,
    Cursor.limit_advance, hbreaks, Except.map]
  rw [← Cursor.advanceBy_succ]
  congr 3
  omega

/-- What is left after a spelling starts with a visible character, if the spelling does or is
empty. -/
theorem isInk_head (h : ∀ ch ∈ written.head?, IsInk ch)
    (hch : ch ∈ (written ++ mark double :: tail).head?) : IsInk ch := by
  cases written with
  | nil =>
    obtain rfl : mark double = ch := by simpa using hch
    exact isInk_mark double
  | cons => exact h ch (by simpa using hch)

theorem exists_isInk (h : Spells double written text) (hspace : written.head? ≠ some ' ')
    (hbreak : written.head? ≠ some '\n') :
    ∃ ch, (written ++ mark double :: tail).head? = some ch ∧ IsInk ch := by
  cases h with
  | nil => exact ⟨_, rfl, isInk_mark double⟩
  | letter hink => exact ⟨_, rfl, hink⟩
  | quote => exact ⟨_, rfl, by decide⟩
  | space => exact absurd rfl hspace
  | breaks => exact absurd rfl hbreak
  | escape => exact ⟨_, rfl, by decide⟩
  | continued => exact ⟨_, rfl, by decide⟩

theorem quotedFrom_mark (hrest : c.rest = mark double :: tail)
    (htail : double = false → tail.head? ≠ some '\'') :
    quotedFrom double (fuel + 1) done c = .ok (done.reverse, c.advance) := by
  rw [quotedFrom, hrest]
  cases double with
  | true => simp [mark]
  | false => simp [mark, htail rfl]

theorem quotedFrom_letter (hrest : c.rest = ch :: tail) (hink : IsInk ch) (hmark : ch ≠ mark double)
    (hslash : double = true → ch ≠ '\\') :
    quotedFrom double (fuel + 1) done c = quotedFrom double fuel (.char ch :: done) c.advance := by
  rw [quotedFrom, hrest]
  simp only [hink.isEndOrBlank, Bool.false_eq_true, if_false]
  cases double with
  | true => simp [show ch ≠ '"' from hmark, hslash rfl]
  | false => simp [show ch ≠ '\'' from hmark]

theorem quotedFrom_gap (hrest : c.rest = ch :: tail) (hch : isEndOrBlank (some ch) = true)
    (hgap : quotedGap c = .ok (gap, next)) :
    quotedFrom double (fuel + 1) done c =
      quotedFrom double fuel (ofChars gap.reverse ++ done) next := by
  have hne {d : Char} (hd : IsInk d) : ch ≠ d := fun h => by
    rw [h, hd.isEndOrBlank] at hch
    cases hch
  rw [quotedFrom, hrest]
  simp [hgap, hch, hne (d := '\'') (by decide), hne (d := '"') (by decide),
    hne (d := '\\') (by decide)]

theorem quotedFrom_escape (hrest : c.rest = '\\' :: tail)
    (hescape : escapeSequence c.advance = .ok (value, next)) :
    quotedFrom true (fuel + 1) done c = quotedFrom true fuel (value.reverse ++ done) next := by
  rw [quotedFrom, hrest]
  simp [hescape]

/-- The reader of quoted scalars follows the spelling up to the closing quote, piece by piece: runs
of letters, escapes and folded breaks. -/
theorem quotedFrom_eq (h : Spells double written text) (hfuel : written.length < fuel)
    (hrest : c.rest = written ++ mark double :: tail) (hlimit : c.rest.length < c.limit)
    (htail : double = false → tail.head? ≠ some '\'') :
    quotedFrom double fuel done c =
      .ok (done.reverse ++ text, c.advanceBy (written.length + 1)) := by
  -- On the fuel, since a run of spaces is read at once.
  induction fuel generalizing done c written text with
  | zero => omega
  | succ fuel ih =>
    -- What is left once a piece that stands for `part` has been read.
    have next (piece : List Char) (part : Text) {written' : List Char} {text' : Text}
        (h' : Spells double written' text') (hpiece : piece ≠ [])
        (hwritten : written = piece ++ written') :
        quotedFrom double fuel (part.reverse ++ done) (c.advanceBy piece.length) =
          .ok (done.reverse ++ (part ++ text'), c.advanceBy (written.length + 1)) := by
      have hpositive : 0 < piece.length := length_pos_iff.mpr hpiece
      have hlength : written.length = piece.length + written'.length := by simp [hwritten]
      rw [hwritten, append_assoc] at hrest
      have hrest' := Cursor.rest_after hrest
      have hlimit' : (c.advanceBy piece.length).rest.length < (c.advanceBy piece.length).limit := by
        rw [Cursor.limit_advanceBy, Cursor.rest_advanceBy, length_drop]
        omega
      rw [ih h' (by omega) hrest' hlimit', ← Cursor.advanceBy_add, hlength, Nat.add_assoc,
        reverse_append, reverse_reverse, append_assoc]
    cases h with
    | nil =>
      rw [quotedFrom_mark hrest htail, append_nil]
      rfl
    | @letter ch written' text' hink hmark hslash h' =>
      rw [quotedFrom_letter hrest hink hmark hslash]
      exact next [ch] [.char ch] h' (by simp) rfl
    | @quote written' text' hsingle h' =>
      subst hsingle
      have hquote : quotedFrom false (fuel + 1) done c =
          quotedFrom false fuel (.char '\'' :: done) (c.advanceBy 2) := by
        rw [quotedFrom, hrest]
        simp
      rw [hquote]
      exact next ['\'', '\''] [.char '\''] h' (by simp) rfl
    | @space written' text' hhead h' =>
      obtain ⟨n, after, text'', rfl, rfl, h'', hspace, hbreak⟩ := h'.spaces
      have hafter : after.head? ≠ some '\n' := by
        cases n with
        | zero => exact hhead
        | succ n => exact hbreak (by omega)
      have hspaces : c.rest = replicate (n + 1) ' ' ++ (after ++ mark double :: tail) := by
        rw [hrest, replicate_succ]
        simp
      have hgap := quotedGap_spaces hspaces (exists_isInk h'' hspace hafter)
      rw [quotedFrom_gap hrest (by decide) hgap]
      have hread := next (replicate (n + 1) ' ') (replicate (n + 1) (.char ' ')) h''
        (by simp) (by rfl)
      rw [length_replicate, reverse_replicate] at hread
      rw [reverse_replicate, ofChars, map_replicate, hread]
      simp [replicate_succ]
    | @breaks written' text' more indent hhead h' =>
      have hbreaks : c.rest = '\n' :: (replicate more '\n' ++
          (replicate (indent + 1) ' ' ++ (written' ++ mark double :: tail))) := by
        rw [hrest]
        simp
      have hgap := quotedGap_breaks hlimit hbreaks fun ch => isInk_head hhead
      rw [quotedFrom_gap hbreaks (by decide) hgap]
      have hread := next ('\n' :: (replicate more '\n' ++ replicate (indent + 1) ' '))
        (ofChars (foldBreaks '\n' (replicate more '\n'))) h' (by simp) (by simp)
      have hlength :
          ('\n' :: (replicate more '\n' ++ replicate (indent + 1) ' ')).length =
            1 + more + (indent + 1) := by
        simp only [length_cons, length_append, length_replicate]
        omega
      rw [hlength] at hread
      rw [ofChars, map_reverse]
      exact hread
    | @escape written' sequence text' l hdouble hescape _ h' =>
      subst hdouble
      have hsequence : c.advance.rest = sequence ++ (written' ++ mark true :: tail) := by
        rw [Cursor.rest_advance, hrest]
        simp
      rw [quotedFrom_escape hrest (escapeSequence_eq hescape hsequence), ← Cursor.advanceBy_succ]
      exact next ('\\' :: sequence) [l] h' (by simp) (by simp)
    | @continued written' _ indent hdouble hhead h' =>
      subst hdouble
      have hbreak : c.advance.rest =
          '\n' :: (replicate (indent + 1) ' ' ++ (written' ++ mark true :: tail)) := by
        rw [Cursor.rest_advance, hrest]
        simp
      have hescape := escapeSequence_continued (by rw [Cursor.limit_advance]; omega) hbreak
        fun ch => isInk_head hhead
      rw [quotedFrom_escape hrest hescape, ← Cursor.advanceBy_succ]
      have hread := next ('\\' :: '\n' :: replicate (indent + 1) ' ') [] h' (by simp) (by simp)
      have hlength : ('\\' :: '\n' :: replicate (indent + 1) ' ').length =
          1 + (indent + 1) + 1 := by
        simp only [length_cons, length_replicate]
        omega
      rwa [hlength] at hread

theorem quotedScalar_eq (h : Spells double written text)
    (hrest : c.rest = mark double :: (written ++ mark double :: tail))
    (hlimit : c.rest.length < c.limit) (htail : double = false → tail.head? ≠ some '\'') :
    quotedScalar c = .ok (text, c.advanceBy (written.length + 2)) := by
  have hpeek : c.peek = some (mark double) := by simp [Cursor.peek, hrest]
  have hform : decide (c.peek = some '"') = double := by cases double <;> simp [hpeek, mark]
  have hrest' : c.advance.rest = written ++ mark double :: tail := by
    rw [Cursor.rest_advance, hrest]
    rfl
  have hlength : c.rest.length = written.length + 1 + tail.length + 1 := by simp [hrest]; omega
  rw [quotedScalar, hform, quotedFrom_eq h (by omega) hrest' _ htail, ← Cursor.advanceBy_succ]
  · rfl
  · rw [Cursor.limit_advance, Cursor.rest_advance, length_tail]
    omega

end AgentConfig.Yaml.Quoted
