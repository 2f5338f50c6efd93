import AgentConfig.Proofs.Yaml.Cursor
import AgentConfig.Yaml.Scalar

namespace AgentConfig.Yaml.Plain

open List Cursor

/-- A word: it starts no comment, and no colon ends it. -/
structure IsWord (run : List Char) : Prop where
  ne_nil : run ≠ []
  isInk : ∀ ch ∈ run, IsInk ch
  head_ne : run.head? ≠ some '#'
  getLast_ne : run.getLast? ≠ some ':'

/-- `IsGap written text`: between two words `written` stands for `text`. -/
inductive IsGap : List Char → List Char → Prop where
  | spaces (n : Nat) : IsGap (replicate (n + 1) ' ') (replicate (n + 1) ' ')
  | folded (indent : Nat) : IsGap ('\n' :: replicate (indent + 1) ' ') [' ']

/-- `Spells written text`: the words and gaps of `written` stand for `text`. -/
inductive Spells : List Char → List Char → Prop where
  | word {run : List Char} (h : IsWord run) : Spells run run
  | more {run gap meaning written text : List Char} (h : IsWord run) (hgap : IsGap gap meaning)
      (hmore : Spells written text) : Spells (run ++ (gap ++ written)) (run ++ (meaning ++ text))

/-- What a plain scalar may start with: no indicator, and a visible character after those marks that
are indicators before a blank. -/
structure Opens (written : List Char) : Prop where
  head : ∀ ch ∈ written.head?, ch ∉ "#,[]\x7b\x7d&*!|>'\"%@`".toList
  second : ∀ ch ∈ written.head?, ch = '-' ∨ ch = '?' ∨ ch = ':' →
    ∃ next, written.tail.head? = some next ∧ IsInk next

/-- `Ends tail n broken`: a plain scalar ends before `tail`, and its reader goes `n` characters
further, over a line break if `broken`. -/
inductive Ends : List Char → Nat → Bool → Prop where
  | all : Ends [] 0 false
  | colon {tail : List Char} (h : isEndOrBlank tail.head? = true) : Ends (':' :: tail) 0 false
  | line {tail : List Char} (h : ∀ ch ∈ tail.head?, IsInk ch) : Ends ('\n' :: tail) 1 true

variable {c : Cursor} {run gap meaning written text tail before done : List Char} {n fuel : Nat}
  {broken b : Bool} {indent : Int} {ch : Char}

theorem IsWord.plainRun_eq (h : IsWord run) (htail : isEndOrBlank tail.head? = true ∨
      ∃ more, tail = ':' :: more ∧ isEndOrBlank more.head? = true) :
    plainRun false (run ++ tail) = run := by
  obtain ⟨hne, hink, -, hlast⟩ := h
  induction run with
  | nil => exact absurd rfl hne
  | cons ch run ih =>
    have hch := (hink ch (by simp)).isEndOrBlank
    cases run with
    | nil =>
      have hcolon : ch ≠ ':' := by simpa using hlast
      have hstop : plainRun false tail = [] := by
        rcases htail with hblank | ⟨more, rfl, hmore⟩
        · cases tail with
          | nil => rfl
          | cons d tail => simp [plainRun, show isEndOrBlank (some d) = true from hblank]
        · simp [plainRun, hmore]
      simp [plainRun, hch, hcolon, hstop]
    | cons next run =>
      have hnext := (hink next (by simp)).isEndOrBlank
      have hrest := ih (by simp) (fun d hd => hink d (by simp [hd])) (by simpa using hlast)
      rw [cons_append, plainRun, hrest]
      simp [hch, hnext]

theorem Spells.exists_word (h : Spells written text) :
    ∃ run tail, written = run ++ tail ∧ IsWord run := by
  cases h with
  | word h => exact ⟨_, [], (append_nil _).symm, h⟩
  | more h => exact ⟨_, _, rfl, h⟩

theorem Spells.exists_head (h : Spells written text) (tail : List Char) :
    ∃ ch more, written ++ tail = ch :: more ∧ IsInk ch ∧ ch ≠ '#' := by
  obtain ⟨run, more, rfl, hword⟩ := h.exists_word
  obtain ⟨ch, run, rfl⟩ := exists_cons_of_ne_nil hword.ne_nil
  exact ⟨ch, run ++ (more ++ tail), by simp, hword.isInk ch (by simp), by simpa using hword.head_ne⟩

theorem followingBreaks_eq {indent : Nat} (hfuel : indent < fuel)
    (hrest : c.rest = replicate indent ' ' ++ ch :: tail) (hink : IsInk ch) :
    followingBreaks fuel [] c = (some [], c.advanceBy indent) := by
  induction indent generalizing fuel c with
  | zero =>
    obtain _ | fuel := fuel
    · omega
    have hpeek : c.peek ≠ some ' ' := by simpa [Cursor.peek, hrest] using hink.ne (by decide)
    have hbreak : c.lineBreak? = none :=
      lineBreak?_eq_none fun d hd => by
        obtain rfl : ch = d := by simpa [hrest] using hd
        exact hink.isBreak
    simp [followingBreaks, hpeek, hbreak]
  | succ indent ih =>
    obtain _ | fuel := fuel
    · omega
    have hpeek : c.peek = some ' ' := by simp [Cursor.peek, hrest, replicate_succ]
    rw [followingBreaks, if_pos hpeek, ih (by omega), advanceBy_succ]
    rw [rest_advance, hrest]
    rfl

theorem Spells.second_eq (h : Spells written text) : written.head? = text.head? ∧
      ((text.tail.head?.any fun ch => ch != ' ') = true →
        written.tail.head? = text.tail.head?) := by
  cases h with
  | word => exact ⟨rfl, fun _ => rfl⟩
  | @more run gap meaning written text hword hgap hmore =>
    obtain ⟨ch, run, rfl⟩ := exists_cons_of_ne_nil hword.ne_nil
    refine ⟨rfl, fun hsecond => ?_⟩
    cases run with
    | nil => cases hgap <;> simp [replicate_succ] at hsecond
    | cons => rfl

theorem plainGap_eq (hgap : IsGap gap meaning) (hrest : c.rest = gap ++ ch :: tail)
    (hink : IsInk ch) (hlimit : c.rest.length < c.limit) :
    ∃ b, plainGap c = ⟨meaning, c.advanceBy gap.length, b⟩ ∧
      0 < (c.advanceBy gap.length).column := by
  cases hgap with
  | spaces n =>
    have hafter := rest_after hrest
    have htake := takeWhile_eq (p := (· == ' ')) hrest
      (fun d hd => by simp [eq_of_mem_replicate hd])
      (by simpa using hink.ne (d := ' ') (by decide))
    have hbreak : (c.advanceBy (replicate (n + 1) ' ').length).lineBreak? = none :=
      lineBreak?_eq_none fun d hd => by
        obtain rfl : ch = d := by rw [hafter] at hd; simpa using hd
        exact hink.isBreak
    have hplace := place_after hrest fun d hd => .inr (eq_of_mem_replicate hd)
    refine ⟨false, by simp only [plainGap, htake, hbreak], ?_⟩
    rw [hplace.2, length_replicate]
    omega
  | folded indent =>
    have htake : c.takeWhile (· == ' ') = ([], c) := takeWhile_none (by simp [hrest])
    have hline : c.advance.rest = replicate (indent + 1) ' ' ++ ch :: tail := by
      rw [rest_advance, hrest]
      rfl
    have hseparator : c.advance.atSeparator = false :=
      atSeparator_eq_false fun d hd => by
        have : d = ' ' := by simpa [hline, replicate_succ] using hd.symm
        subst this
        decide
    have hfuel : indent + 1 < c.limit := by
      rw [hrest] at hlimit
      simp only [length_append, length_cons, length_replicate] at hlimit
      omega
    have hbreaks := followingBreaks_eq hfuel hline hink
    have hplace := place_after hline fun d hd => .inr (eq_of_mem_replicate hd)
    rw [length_replicate, column_advance_newline hrest] at hplace
    refine ⟨true, ?_, ?_⟩
    · simp [plainGap, htake, lineBreak?_newline hrest, hseparator, hbreaks, foldBreaks,
        advanceBy_succ]
    · rw [length_cons, length_replicate, advanceBy_succ, hplace.2]
      omega

theorem plainGap_end (hend : Ends tail n broken) (hrest : c.rest = tail) (hlimit : 0 < c.limit) :
    ∃ text, plainGap c = ⟨text, c.advanceBy n, broken⟩ ∧
      (text = [] ∨ broken = true ∧ (c.advanceBy n).column = 0) := by
  cases hend with
  | all =>
    have htake : c.takeWhile (· == ' ') = ([], c) := takeWhile_none (by simp [hrest])
    have hbreak : c.lineBreak? = none := lineBreak?_eq_none (by simp [hrest])
    exact ⟨[], by simp [plainGap, htake, hbreak], .inl rfl⟩
  | colon =>
    have htake : c.takeWhile (· == ' ') = ([], c) := takeWhile_none (by simp [hrest])
    have hbreak : c.lineBreak? = none := lineBreak?_eq_none (by simp [hrest, isBreak])
    exact ⟨[], by simp [plainGap, htake, hbreak], .inl rfl⟩
  | @line tail h =>
    have htake : c.takeWhile (· == ' ') = ([], c) := takeWhile_none (by simp [hrest])
    have hcolumn := column_advance_newline hrest
    cases hseparator : c.advance.atSeparator with
    | true =>
      exact ⟨[], by simp [plainGap, htake, lineBreak?_newline hrest, hseparator,
        advanceBy_succ], .inl rfl⟩
    | false =>
      have hbreaks : followingBreaks c.limit [] c.advance = (some [], c.advance) := by
        have hline : c.advance.rest = tail := by
          rw [rest_advance, hrest]
          rfl
        cases tail with
        | nil =>
          obtain ⟨limit, hsucc⟩ := Nat.exists_eq_add_one_of_ne_zero (by omega : c.limit ≠ 0)
          have hbreak : c.advance.lineBreak? = none := lineBreak?_eq_none (by simp [hline])
          simp [hsucc, followingBreaks, Cursor.peek, hline, hbreak]
        | cons ch tail => exact followingBreaks_eq hlimit (by simpa using hline) (h ch (by simp))
      exact ⟨[' '], by simp [plainGap, htake, lineBreak?_newline hrest, hseparator, hbreaks,
        foldBreaks, advanceBy_succ], .inr ⟨rfl, hcolumn⟩⟩

theorem Ends.isEndOrBlank (hend : Ends tail n broken) : isEndOrBlank tail.head? = true ∨
      ∃ more, tail = ':' :: more ∧ isEndOrBlank more.head? = true := by
  cases hend with
  | all => exact .inl rfl
  | colon h => exact .inr ⟨_, rfl, h⟩
  | line => exact .inl rfl

theorem IsGap.isEndOrBlank (hgap : IsGap gap meaning) :
    isEndOrBlank (gap ++ tail).head? = true := by
  cases hgap <;> rfl

theorem IsGap.ne_nil (hgap : IsGap gap meaning) : meaning ≠ [] := by
  cases hgap <;> simp [replicate_succ]

theorem plainFrom_word {next : Gap} (hword : IsWord run) (hrest : c.rest = run ++ tail)
    (htail : isEndOrBlank tail.head? = true ∨
      ∃ more, tail = ':' :: more ∧ isEndOrBlank more.head? = true)
    (hgap : plainGap (c.advanceBy run.length) = next) :
    plainFrom false indent (fuel + 1) done before b c =
      if next.text.isEmpty ∨ next.cursor.peek = some '#' ∨ (next.cursor.column : Int) < indent then
        ⟨done.reverse ++ (before ++ run), next.cursor, next.broken⟩
      else
        plainFrom false indent fuel (run.reverse ++ (before.reverse ++ done)) next.text next.broken
          next.cursor := by
  have hrun : plainRun false c.rest = run := by rw [hrest, hword.plainRun_eq htail]
  have hstart : ¬ (c.peek = some '#' ∨ run.isEmpty = true) := by
    obtain ⟨ch, run, rfl⟩ := exists_cons_of_ne_nil hword.ne_nil
    simpa [Cursor.peek, hrest] using hword.head_ne
  simp only [plainFrom, hrun, hgap, if_neg hstart]
  simp

/-- The reader of plain scalars follows the spelling to its end, word by word. Between words it
folds the gap into what the spelling says it stands for. -/
theorem plainFrom_eq (h : Spells written text) (hend : Ends tail n broken)
    (hrest : c.rest = written ++ tail) (hfuel : written.length < fuel)
    (hlimit : c.rest.length < c.limit) (hindent : indent ≤ 1)
    (hbroken : broken = true → 0 < indent) :
    plainFrom false indent fuel done before b c =
      ⟨done.reverse ++ (before ++ text), c.advanceBy (written.length + n), broken⟩ := by
  induction h generalizing fuel done before b c with
  | @word run hword =>
    obtain _ | fuel := fuel
    · omega
    obtain ⟨gap, hgap, hstop⟩ := plainGap_end hend (rest_after hrest)
      (by rw [limit_advanceBy]; omega)
    rw [plainFrom_word hword hrest hend.isEndOrBlank hgap, if_pos, advanceBy_add]
    rcases hstop with rfl | ⟨hline, hcolumn⟩
    · exact .inl rfl
    · refine .inr (.inr ?_)
      rw [hcolumn]
      exact hbroken hline
  | @more run gap meaning written text hword hgap hmore ih =>
    obtain _ | fuel := fuel
    · omega
    obtain ⟨ch, more, hmoreTail, hink, hcomment⟩ := hmore.exists_head tail
    rw [append_assoc, append_assoc] at hrest
    have hlength : (run ++ (gap ++ written)).length =
        run.length + gap.length + written.length := by simp [Nat.add_assoc]
    have hpositive := length_pos_iff.mpr hword.ne_nil
    have hafterRun := rest_after hrest
    rw [hmoreTail] at hafterRun
    obtain ⟨b', hnext, hcolumn⟩ := plainGap_eq hgap hafterRun hink (by
      rw [limit_advanceBy, rest_advanceBy, length_drop]
      omega)
    have hafterGap := rest_after hafterRun
    have hgoes : ¬ (meaning.isEmpty = true ∨
        ((c.advanceBy run.length).advanceBy gap.length).peek = some '#' ∨
        (((c.advanceBy run.length).advanceBy gap.length).column : Int) < indent) := by
      rintro (hempty | hpeek | hless)
      · exact hgap.ne_nil (isEmpty_iff.mp hempty)
      · rw [Cursor.peek, hafterGap] at hpeek
        exact hcomment (by simpa using hpeek)
      · omega
    rw [plainFrom_word hword hrest (.inl hgap.isEndOrBlank) hnext, if_neg hgoes,
      ih (by rw [hafterGap, hmoreTail]) (by omega), ← advanceBy_add, ← advanceBy_add,
      hlength, reverse_append, reverse_append]
    · simp [Nat.add_assoc]
    · simp only [limit_advanceBy, rest_advanceBy, length_drop]
      omega

theorem plainScalar_eq (h : Spells written text) (hend : Ends tail n broken)
    (hrest : c.rest = written ++ tail) (hlimit : c.rest.length < c.limit) (hindent : indent ≤ 1)
    (hbroken : broken = true → 0 < indent) :
    plainScalar false indent c = ⟨text, c.advanceBy (written.length + n), broken⟩ := by
  have hfuel : written.length < c.limit := by
    rw [hrest, length_append] at hlimit
    omega
  rw [plainScalar, plainFrom_eq h hend hrest hfuel hlimit hindent hbroken]
  rfl

end AgentConfig.Yaml.Plain
