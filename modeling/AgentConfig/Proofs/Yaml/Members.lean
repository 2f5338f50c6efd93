import AgentConfig.Proofs.Yaml.Written
import AgentConfig.Yaml.Lexer

namespace AgentConfig.Yaml

open List Cursor

variable {lines : List (List Char)} {members : List Member}

namespace Lexer

variable {s after saved : Lexer} {written chars tail : List Char} {text : Text}
  {plain broken keyPlain : Bool} {n fuel level : Nat} {m : Member}

theorem skipToToken_spaces (hfuel : 0 < fuel) (hrest : s.cursor.rest = replicate n ' ' ++ tail)
    (htail : ∀ ch ∈ tail.head?, IsInk ch ∧ ch ≠ '#') :
    skipToToken fuel s = s.move (s.cursor.advanceBy n) := by
  obtain _ | fuel := fuel
  · omega
  have hspace : tail.head? ≠ some ' ' := fun h => absurd (htail _ h).1 (by decide)
  have hafter : (s.cursor.advanceBy n).rest = tail := by simpa using rest_after hrest
  have hcomment : (s.cursor.advanceBy n).peek ≠ some '#' := by
    rw [Cursor.peek, hafter]
    exact fun h => (htail _ h).2 rfl
  have hbreak : (s.cursor.advanceBy n).lineBreak? = none :=
    lineBreak?_eq_none fun ch hch => (htail ch (by rwa [hafter] at hch)).1.isBreak
  simp only [skipToToken, skipSpaces_eq hrest hspace, if_neg hcomment, hbreak]

theorem skipToToken_newline (hfuel : 1 < fuel) (hflow : s.flowLevel = 0)
    (hrest : s.cursor.rest = '\n' :: tail) (htail : ∀ ch ∈ tail.head?, IsInk ch ∧ ch ≠ '#') :
    skipToToken fuel s = { s with cursor := s.cursor.advance, allowKey := true } := by
  obtain _ | fuel := fuel
  · omega
  have hskip : s.cursor.skipSpaces = s.cursor :=
    skipSpaces_eq (n := 0) hrest (by simp)
  have hcomment : s.cursor.peek ≠ some '#' := by simp [Cursor.peek, hrest]
  have hline : s.cursor.advance.rest = replicate 0 ' ' ++ tail := by
    rw [rest_advance, hrest]
    rfl
  simp only [skipToToken, hskip, if_neg hcomment, lineBreak?_newline hrest]
  rw [skipToToken_spaces (by omega) hline htail]
  simp [inFlow, hflow, move]

theorem skipBlanks_eq (hfirst : ∀ ch ∈ s.cursor.rest.head?, ch ≠ '\ufeff') :
    s.skipBlanks = skipToToken s.cursor.limit s := by
  have hmark : ¬ (s.cursor.index = 0 ∧ s.cursor.peek = some '\ufeff') :=
    fun h => hfirst _ h.2 rfl
  simp only [skipBlanks, if_neg hmark]
  rfl

theorem skipBlanks_spaces (hrest : s.cursor.rest = replicate n ' ' ++ tail)
    (htail : ∀ ch ∈ tail.head?, IsInk ch ∧ ch ≠ '#') (hlimit : 0 < s.cursor.limit) :
    s.skipBlanks = s.move (s.cursor.advanceBy n) := by
  rw [skipBlanks_eq, skipToToken_spaces hlimit hrest htail]
  intro ch hch
  cases n with
  | zero => exact (htail ch (by simpa [hrest] using hch)).1.ne (by decide)
  | succ n =>
    have : ch = ' ' := by simpa [hrest, replicate_succ] using hch.symm
    subst this
    decide

theorem skipBlanks_newline (hflow : s.flowLevel = 0) (hrest : s.cursor.rest = '\n' :: tail)
    (htail : ∀ ch ∈ tail.head?, IsInk ch ∧ ch ≠ '#')
    (hlimit : s.cursor.rest.length < s.cursor.limit) :
    s.skipBlanks = { s with cursor := s.cursor.advance, allowKey := true } := by
  have hfuel : 1 < s.cursor.limit := by
    rw [hrest, length_cons] at hlimit
    omega
  rw [skipBlanks_eq (by simp [hrest]), skipToToken_newline hfuel hflow hrest htail]

theorem unwind_eq {column : Int} (h : s.indent ≤ column) : s.unwind column = s := by
  unfold unwind
  split
  · rfl
  have hclose : closeTo column s.indent s.outer = (0, s.indent, s.outer) := by
    unfold closeTo
    split
    next hnil => rw [hnil]
    next hcons => rw [hcons, if_neg (by omega)]
  rw [hclose]
  simp

/-- The marks that separate documents do not stand here. -/
def IsInside (c : Cursor) : Prop := c.column = 0 → c.hasMark '-' = false ∧ c.hasMark '.' = false

theorem token_plain (hflow : s.flowLevel = 0) (hplain : Plain.Spells written chars)
    (hopens : Plain.Opens written) (hrest : s.cursor.rest = written ++ tail)
    (hinside : IsInside s.cursor) : s.token = s.plain := by
  obtain ⟨ch, more, hmore, hink, -⟩ := hplain.exists_head []
  rw [append_nil] at hmore
  subst hmore
  have hpeek : s.cursor.peek = some ch := by simp [Cursor.peek, hrest]
  have hindicator : ch ∉ "#,[]\x7b\x7d&*!|>'\"%@`".toList := hopens.head ch (by simp)
  have hne (d : Char) (hd : d ∈ "#,[]\x7b\x7d&*!|>'\"%@`".toList) : ch ≠ d :=
    fun h => hindicator (h ▸ hd)
  have hspaced (hch : ch = '-' ∨ ch = '?' ∨ ch = ':') :
      isEndOrBlank (s.cursor.peekAt 1) = false := by
    obtain ⟨next, hnext, hinkNext⟩ := hopens.second ch (by simp) hch
    obtain ⟨more, rfl⟩ := head?_eq_some_iff.mp hnext
    simpa [peekAt, hrest] using hinkNext.isEndOrBlank
  have hmargin (mark : Char) (hmark : s.cursor.column = 0 → s.cursor.hasMark mark = false) :
      ¬ (s.cursor.column == 0 && s.cursor.hasMark mark) = true := by
    by_cases hcolumn : s.cursor.column = 0
    · simp [hmark hcolumn]
    · simp [hcolumn]
  have hstarts : plainStarts s.inFlow s.cursor = true := by
    by_cases hch : ch = '-' ∨ ch = '?' ∨ ch = ':'
    · simp only [plainStarts, hpeek, Option.any_some, inFlow, hflow, hspaced hch]
      rcases hch with rfl | rfl | rfl <;> rfl
    have hcontains : "-?:,[]\x7b\x7d#&*!|>'\"%@`".toList.contains ch = false := by
      have hcases : ∀ d ∈ "-?:,[]\x7b\x7d#&*!|>'\"%@`".toList,
          (d = '-' ∨ d = '?' ∨ d = ':') ∨ d ∈ "#,[]\x7b\x7d&*!|>'\"%@`".toList := by simp
      rw [contains_eq_mem, decide_eq_false_iff_not]
      exact fun hmem => (hcases ch hmem).elim hch hindicator
    simp only [plainStarts, hpeek, Option.any_some, hink.isEndOrBlank, hcontains, Bool.or_false,
      Bool.not_false, Bool.true_or]
  simp only [token, hpeek]
  rw [if_neg fun h => hne '%' (by decide) h.1, if_neg (hmargin '-' fun h => (hinside h).1),
    if_neg (hmargin '.' fun h => (hinside h).2), if_neg (hne '[' (by decide)),
    if_neg (hne '\x7b' (by decide)), if_neg (hne ']' (by decide)), if_neg (hne '\x7d' (by decide)),
    if_neg (hne ',' (by decide)), if_neg fun h => by simp [hspaced (.inl h.1)] at h,
    if_neg fun h => by simp [hspaced (.inr (.inl h.1)), inFlow, hflow] at h,
    if_neg fun h => by simp [hspaced (.inr (.inr h.1)), inFlow, hflow] at h,
    if_neg (hne '*' (by decide)), if_neg (hne '&' (by decide)), if_neg (hne '!' (by decide)),
    if_neg fun h => h.1.elim (hne '|' (by decide)) (hne '>' (by decide)),
    if_neg fun h => h.elim (hne '\'' (by decide)) (hne '"' (by decide)), if_pos hstarts]

theorem token_quoted (double : Bool) (hrest : s.cursor.rest = Quoted.mark double :: tail) :
    s.token = s.keyable fun c => (quotedScalar c).map fun (text, c) => (.scalar text false, c) := by
  have hpeek : s.cursor.peek = some (Quoted.mark double) := by simp [Cursor.peek, hrest]
  have hmark (mark : Char) (hmark : Quoted.mark double ≠ mark) : s.cursor.hasMark mark = false := by
    simp [hasMark, hrest, hmark]
  have hdash := hmark '-' (by cases double <;> decide)
  have hdot := hmark '.' (by cases double <;> decide)
  cases double <;> simp [token, hpeek, Quoted.mark, hdash, hdot]

/-- `Stops plain tail n broken`: a scalar ends before `tail`, and its reader goes `n` characters
further, over a line break if `broken`. -/
def Stops (plain : Bool) (tail : List Char) (n : Nat) (broken : Bool) : Prop :=
  if plain then Plain.Ends tail n broken
  else tail.head? ≠ some '\'' ∧ n = 0 ∧ broken = false

theorem token_scalar (h : IsScalar written text plain) (hstops : Stops plain tail n broken)
    (hrest : s.cursor.rest = written ++ tail) (hlimit : s.cursor.rest.length < s.cursor.limit)
    (hinside : IsInside s.cursor) (hflow : s.flowLevel = 0) (hindent : s.indent ≤ 0)
    (hbroken : broken = true → 0 ≤ s.indent) (hsave : s.saveKey = .ok saved)
    (hsaved : saved.cursor = s.cursor ∧ saved.indent = s.indent ∧ saved.flowLevel = s.flowLevel) :
    s.token = .ok ({ saved with
      cursor := s.cursor.advanceBy (written.length + n)
      allowKey := broken }.push (.scalar text plain)) := by
  obtain ⟨hcursor, hindent', hflow'⟩ := hsaved
  cases h with
  | plain h hopens =>
    have hscalar : plainScalar false (s.indent + 1) s.cursor = _ :=
      Plain.plainScalar_eq h hstops hrest hlimit (by omega) fun hb => by have := hbroken hb; omega
    rw [token_plain hflow h hopens hrest hinside, Lexer.plain, hsave]
    simp only [bind, Except.bind, inFlow, hcursor, hindent', hflow', hflow]
    rw [show ((0 : Nat) != 0) = false from rfl, hscalar]
  | @quoted written _ double h =>
    obtain ⟨htail, rfl, rfl⟩ : tail.head? ≠ some '\'' ∧ n = 0 ∧ broken = false := hstops
    have hrest' : s.cursor.rest =
        Quoted.mark double :: (written ++ Quoted.mark double :: tail) := by simp [hrest]
    have hscalar := Quoted.quotedScalar_eq h hrest' hlimit fun _ => htail
    rw [token_quoted double hrest', keyable, hsave]
    simp only [bind, Except.bind, hcursor, hscalar, Except.map]
    simp [move]

theorem step_eq (hskip : s.skipBlanks = after)
    (hkeys : after.dropStaleKeys = .ok after) (hindent : after.indent ≤ after.cursor.column) :
    s.step = after.token := by
  rw [step, hskip, hkeys]
  simp only [bind, Except.bind, unwind_eq hindent]

theorem dropStaleKeys_singleton {key : KeyPlace} (hkeys : s.keys = [(level, key)])
    (hfresh : s.isStale key = false) : s.dropStaleKeys = .ok s := by
  cases s
  cases hkeys
  simp [dropStaleKeys, hfresh]

/-- The lexer at a place inside a mapping, or before one that starts at the margin. -/
def line (c : Cursor) (opened allowKey : Bool) (done : List Token) : Lexer :=
  { cursor := c
    indent := if opened then 0 else -1
    outer := if opened then [-1] else []
    allowKey
    tokens := done
    count := done.length }

/-- The lexer after a name that started at `start`. -/
def afterName (start c : Cursor) (opened : Bool) (name : Token) (done : List Token) : Lexer :=
  { line c opened false (name :: done) with
    keys := [(0,
      { tokens := done.length, required := opened
        index := start.index, line := start.line, column := 0 })] }

/-- What a name may be: it stands on one line and near its colon, and separates no documents. -/
structure IsName (name : List Char) : Prop where
  visible : ∀ ch ∈ name, IsInk ch ∨ ch = ' '
  length_le : name.length ≤ 1024
  dashes : name.take 3 ≠ ['-', '-', '-']
  dots : name.take 3 ≠ ['.', '.', '.']

/-- The token that opens the mapping, in front of its first key. -/
def opening (opened : Bool) : List Token := if opened then [] else [.blockMappingStart]

variable {c : Cursor} {opened : Bool} {done : List Token} {name : List Char} {key : Text}

theorem take_ne {mark ch : Char} (hch : mark ≠ ch) (h : name.take 3 ≠ [mark, mark, mark]) :
    (name ++ ch :: tail).take 3 ≠ [mark, mark, mark] := by
  intro heq
  rcases name with _ | ⟨a, _ | ⟨b, _ | ⟨d, more⟩⟩⟩
  · simp only [nil_append, take_succ_cons, List.cons.injEq] at heq
    exact hch heq.1.symm
  · simp only [cons_append, nil_append, take_succ_cons, List.cons.injEq] at heq
    exact hch heq.2.1.symm
  · simp only [cons_append, nil_append, take_succ_cons, List.cons.injEq] at heq
    exact hch heq.2.2.1.symm
  · exact h heq

theorem IsName.isInside (h : IsName name) (hrest : c.rest = name ++ ':' :: tail) : IsInside c := by
  have hmark (mark : Char) (hcolon : mark ≠ ':') (htake : name.take 3 ≠ [mark, mark, mark]) :
      c.hasMark mark = false := by
    simp [hasMark, hrest, take_ne hcolon htake]
  exact fun _ => ⟨hmark '-' (by decide) h.dashes, hmark '.' (by decide) h.dots⟩

theorem step_name (hskip : s.skipBlanks = line c opened true done) (h : IsScalar name key plain)
    (hname : IsName name) (hrest : c.rest = name ++ ':' :: ' ' :: tail) (hcolumn : c.column = 0)
    (hlimit : c.rest.length < c.limit) :
    s.step = .ok (afterName c (c.advanceBy name.length) opened (.scalar key plain) done) := by
  have hstops : Stops plain (':' :: ' ' :: tail) 0 false := by
    unfold Stops
    split
    · exact .colon rfl
    · exact ⟨by simp, rfl, rfl⟩
  have hsave : (line c opened true done).saveKey = .ok { line c opened true done with
      keys := [(0,
        { tokens := done.length, required := opened
          index := c.index, line := c.line, column := 0 })] } := by
    cases opened <;> simp [saveKey, dropKey, currentKey?, line, inFlow, hcolumn, bind, Except.bind]
  rw [step_eq hskip rfl (by cases opened <;> simp [line, hcolumn]),
    token_scalar h hstops hrest hlimit (hname.isInside hrest) rfl (by cases opened <;> simp [line])
      (by simp) hsave ⟨rfl, rfl, rfl⟩]
  rfl

theorem step_colon (opened : Bool) (t : Token) (done : List Token) (hname : IsName name)
    (hrest : c.rest = name ++ ':' :: ' ' :: tail) (hlimit : c.rest.length < c.limit) :
    (afterName c (c.advanceBy name.length) opened t done).step =
      .ok (line (c.advanceBy (name.length + 1)) true false
        (.value :: t :: .key :: (opening opened ++ done))) := by
  have hafter := rest_after hrest
  have hline := (place_after hrest hname.visible).1
  have hindex := index_after hrest
  have hskip : (afterName c (c.advanceBy name.length) opened t done).skipBlanks =
      afterName c (c.advanceBy name.length) opened t done :=
    skipBlanks_spaces (n := 0) hafter (by simp; decide) (by
      change 0 < (c.advanceBy name.length).limit
      rw [limit_advanceBy]
      omega)
  have hstale : (afterName c (c.advanceBy name.length) opened t done).dropStaleKeys =
      .ok (afterName c (c.advanceBy name.length) opened t done) := by
    have hfresh : isStale (afterName c (c.advanceBy name.length) opened t done)
        { tokens := done.length, required := opened
          index := c.index, line := c.line, column := 0 } = false := by
      simp [isStale, afterName, line, hline, hindex, hname.length_le]
    exact dropStaleKeys_singleton rfl hfresh
  have hpeek : (c.advanceBy name.length).peek = some ':' := by simp [Cursor.peek, hafter]
  have hnext : (c.advanceBy name.length).peekAt 1 = some ' ' := by simp [peekAt, hafter]
  have hdash : (c.advanceBy name.length).hasMark '-' = false := by simp [hasMark, hafter]
  have hdot : (c.advanceBy name.length).hasMark '.' = false := by simp [hasMark, hafter]
  rw [step_eq hskip hstale (by cases opened <;> simp [afterName, line])]
  have htoken : (afterName c (c.advanceBy name.length) opened t done).token =
      (afterName c (c.advanceBy name.length) opened t done).valueMark := by
    simp [token, afterName, line, hpeek, hnext, hdash, hdot, isEndOrBlank]
  -- The key goes in front of the name, and the start of the mapping in front of the key.
  have hplace : done.length + 1 + 1 - done.length = 2 := by omega
  rw [htoken, advanceBy_add]
  cases opened <;>
    simp [valueMark, currentKey?, afterName, line, insert, openAt, inFlow, move, push, opening,
      List.insertIdx, advanceBy_succ, hplace]

theorem step_value (done : List Token) (h : IsScalar written text plain)
    (hstops : Stops plain tail n broken) (hrest : c.rest = ' ' :: (written ++ tail))
    (hlimit : c.rest.length < c.limit) :
    (line c true false done).step =
      .ok (line (c.advanceBy (1 + written.length + n)) true broken
        (.scalar text plain :: done)) := by
  obtain ⟨ch, more, hhead, hink, hcomment⟩ := h.exists_head
  have hspace : c.rest = replicate 1 ' ' ++ (written ++ tail) := hrest
  have hcolumn : (c.advanceBy 1).column = c.column + 1 :=
    (place_after hspace (by simp)).2
  have hskip : (line c true false done).skipBlanks = line (c.advanceBy 1) true false done :=
    skipBlanks_spaces hspace (by simpa [hhead] using ⟨hink, hcomment⟩) (by
      change 0 < c.limit
      omega)
  have hlimit' : (c.advanceBy 1).rest.length < (c.advanceBy 1).limit := by
    rw [limit_advanceBy, rest_advanceBy, length_drop]
    omega
  have hinside : IsInside (c.advanceBy 1) := fun hzero => by omega
  have hafter : (c.advanceBy 1).rest = written ++ tail := rest_after hspace
  rw [step_eq hskip rfl (by simp [line]),
    token_scalar h hstops hafter hlimit' hinside rfl (by simp [line]) (by simp [line]) rfl
      ⟨rfl, rfl, rfl⟩, Nat.add_assoc, advanceBy_add 1]
  rfl

theorem run_step (fuel : Nat) (htokens : s.tokens.head? ≠ some .streamEnd)
    (hstep : s.step = .ok after) : run (fuel + 1) s = run fuel after := by
  rw [run, if_neg htokens, hstep]

/-- The lexer has read `done` and comes to a line, or to the end of the text. -/
structure AtLine (s : Lexer) (opened : Bool) (done : List Token) (rest : List Char) : Prop where
  tokens : s.tokens = done
  unended : done.head? ≠ some .streamEnd
  skips : ∃ c, s.skipBlanks = line c opened (!rest.isEmpty) done ∧ c.rest = rest ∧
    (rest ≠ [] → c.column = 0) ∧ c.rest.length < c.limit

def lineTokens (opened : Bool) (key : Text) (keyPlain : Bool) (value : Text) (valuePlain : Bool) :
    List Token :=
  [.scalar value valuePlain, .value, .scalar key keyPlain, .key] ++ opening opened

/-- What stands behind a value: nothing, or the next line. -/
def IsLineEnd (tail : List Char) : Prop :=
  tail = [] ∨ ∃ ch more, tail = '\n' :: ch :: more ∧ IsInk ch ∧ ch ≠ '#'

theorem IsLineEnd.exists_stops (h : IsLineEnd tail) (plain : Bool) :
    ∃ n broken, Stops plain tail n broken ∧
      ∀ {c : Cursor} {done : List Token}, c.rest = tail → c.rest.length < c.limit →
        done.head? ≠ some .streamEnd →
        AtLine (line (c.advanceBy n) true broken done) true done tail.tail := by
  rcases h with rfl | ⟨ch, more, rfl, hink, hcomment⟩
  · refine ⟨0, false, ?_, fun {c done} hrest hlimit hdone =>
      ⟨rfl, hdone, c, ?_, hrest, by simp, hlimit⟩⟩
    · unfold Stops
      split
      · exact .all
      · exact ⟨by simp, rfl, rfl⟩
    · exact skipBlanks_spaces (n := 0) hrest (by simp) (Nat.lt_of_le_of_lt (Nat.zero_le _) hlimit)
  · have hhead : ∀ d ∈ (ch :: more).head?, IsInk d ∧ d ≠ '#' := by simpa using ⟨hink, hcomment⟩
    have hline {c : Cursor} (hrest : c.rest = '\n' :: ch :: more) :
        c.advance.rest = ch :: more := by
      rw [rest_advance, hrest]
      rfl
    have hshort {c : Cursor} (hlimit : c.rest.length < c.limit) :
        c.advance.rest.length < c.advance.limit := by
      rw [rest_advance, limit_advance, length_tail]
      omega
    cases plain with
    | true =>
      refine ⟨1, true, .line fun d hd => (hhead d hd).1, fun {c done} hrest hlimit hdone =>
        ⟨rfl, hdone, c.advance, ?_, hline hrest, fun _ => column_advance_newline hrest,
          hshort hlimit⟩⟩
      exact skipBlanks_spaces (n := 0) (hline hrest) hhead
        (Nat.lt_of_le_of_lt (Nat.zero_le _) (hshort hlimit))
    | false =>
      refine ⟨0, false, ⟨by simp, rfl, rfl⟩, fun {c done} hrest hlimit hdone =>
        ⟨rfl, hdone, c.advance, ?_, hline hrest, fun _ => column_advance_newline hrest,
          hshort hlimit⟩⟩
      exact skipBlanks_newline rfl hrest hhead hlimit

theorem AtLine.run_line (h : AtLine s opened done (name ++ ':' :: ' ' :: (written ++ tail)))
    (hkey : IsScalar name key keyPlain) (hname : IsName name) (hvalue : IsScalar written text plain)
    (htail : IsLineEnd tail) :
    ∃ after, (∀ fuel, run (fuel + 3) s = run fuel after) ∧
      AtLine after true (lineTokens opened key keyPlain text plain ++ done) tail.tail := by
  obtain ⟨htokens, hdone, c, hskip, hrest, hcolumn, hlimit⟩ := h
  obtain ⟨n, broken, hstops, hnext⟩ := htail.exists_stops plain
  have hne : name ++ ':' :: ' ' :: (written ++ tail) ≠ [] := by simp
  have hallow : (!(name ++ ':' :: ' ' :: (written ++ tail)).isEmpty) = true := by simp
  rw [hallow] at hskip
  have hstart := step_name hskip hkey hname hrest (hcolumn hne) hlimit
  have hcolon := step_colon opened (.scalar key keyPlain) done hname hrest hlimit
  have hvalueRest : (c.advanceBy (name.length + 1)).rest = ' ' :: (written ++ tail) := by
    rw [rest_advanceBy, hrest, drop_append]
    simp
  have hvalueLimit : (c.advanceBy (name.length + 1)).rest.length <
      (c.advanceBy (name.length + 1)).limit := by
    rw [limit_advanceBy, rest_advanceBy, length_drop]
    omega
  have hread := step_value (.value :: .scalar key keyPlain :: .key :: (opening opened ++ done))
    hvalue hstops hvalueRest hvalueLimit
  have hrun (fuel : Nat) := (run_step (fuel + 2) (by rwa [htokens]) hstart).trans
    ((run_step _ (by simp [afterName, line]) hcolon).trans (run_step _ (by simp [line]) hread))
  refine ⟨_, hrun, ?_⟩
  · have hvalueRest' : (c.advanceBy (name.length + 1)).rest = (' ' :: written) ++ tail := hvalueRest
    have hafter := rest_after hvalueRest'
    have hlimit' : ((c.advanceBy (name.length + 1)).advanceBy (' ' :: written).length).rest.length <
        ((c.advanceBy (name.length + 1)).advanceBy (' ' :: written).length).limit := by
      rw [limit_advanceBy, rest_advanceBy, length_drop]
      omega
    rw [advanceBy_add, Nat.add_comm 1]
    exact hnext hafter hlimit' (by simp)

theorem AtLine.run_end (h : AtLine s true done []) :
    run (fuel + 2) s = (done.reverse ++ [.blockEnd, .streamEnd], none) := by
  obtain ⟨htokens, hdone, c, hskip, hrest, -, -⟩ := h
  have hstep : s.step = .ok { line c false false (.streamEnd :: .blockEnd :: done) with } := by
    have hpeek : c.peek = none := by simp [Cursor.peek, hrest]
    rw [step_eq hskip rfl (by simp [line])]
    simp [token, line, hpeek, streamEnd, unwind, closeTo, inFlow, dropKey, currentKey?, push, bind,
      Except.bind]
  rw [run_step _ (by rwa [htokens]) hstep, run]
  simp [line]

/-- A line and the key and value it is written for, each with its form. -/
structure Member where
  key : Text
  keyPlain : Bool
  value : Text
  valuePlain : Bool

/-- `IsLine written m`: the line `written` gives the member `m`. -/
def IsLine (written : List Char) (m : Member) : Prop :=
  ∃ name value, written = name ++ ':' :: ' ' :: value ∧ IsScalar name m.key m.keyPlain ∧
    IsName name ∧ IsScalar value m.value m.valuePlain

def Member.tokens (m : Member) : List Token :=
  [.key, .scalar m.key m.keyPlain, .value, .scalar m.value m.valuePlain]

theorem IsLine.exists_head (h : IsLine written m) :
    ∃ ch more, written = ch :: more ∧ IsInk ch ∧ ch ≠ '#' := by
  obtain ⟨name, value, rfl, hkey, -⟩ := h
  obtain ⟨ch, more, rfl, hink⟩ := hkey.exists_head
  exact ⟨ch, _, rfl, hink⟩

theorem exists_intercalate (line : List Char) (lines : List (List Char)) :
    ∃ tail, List.intercalate ['\n'] (line :: lines) = line ++ tail := by
  cases lines with
  | nil => exact ⟨[], by simp⟩
  | cons next lines => exact ⟨_, by rw [intercalate_cons_cons, append_assoc]⟩

/-- The lexer reads the lines one after the other, the tokens of each being those of its member, and
closes the mapping at the end of the text. -/
theorem AtLine.run_lines (h : AtLine s opened done (List.intercalate ['\n'] lines))
    (hlines : Forall₂ IsLine lines (m :: members)) :
    run (fuel + 3 * members.length + 5) s =
      (done.reverse ++ opening opened ++ (m :: members).flatMap Member.tokens ++
        [.blockEnd, .streamEnd], none) := by
  induction members generalizing s opened done lines m with
  | nil =>
    cases hlines with
    | @cons written _ rest _ hline hnil =>
      cases hnil
      obtain ⟨name, value, rfl, hkey, hname, hvalue⟩ := hline
      rw [intercalate_singleton, ← append_nil value] at h
      obtain ⟨after, hrun, hend⟩ := h.run_line hkey hname hvalue (.inl rfl)
      rw [hrun, hend.run_end]
      cases opened <;> simp [lineTokens, opening, Member.tokens]
  | cons next members ih =>
    cases hlines with
    | @cons written _ rest _ hline hrest =>
      obtain ⟨name, value, rfl, hkey, hname, hvalue⟩ := hline
      cases hrest with
      | @cons written' _ rest _ hline' hrest =>
        obtain ⟨ch, more, hhead, hink, hcomment⟩ := hline'.exists_head
        obtain ⟨tail, htail⟩ := exists_intercalate written' rest
        have hend : IsLineEnd ('\n' :: List.intercalate ['\n'] (written' :: rest)) :=
          .inr ⟨ch, more ++ tail, by rw [htail, hhead]; rfl, hink, hcomment⟩
        have hsplit : List.intercalate ['\n'] ((name ++ ':' :: ' ' :: value) :: written' :: rest) =
            name ++ ':' :: ' ' ::
              (value ++ '\n' :: List.intercalate ['\n'] (written' :: rest)) := by
          simp
        rw [hsplit] at h
        obtain ⟨after, hrun, hnext⟩ := h.run_line hkey hname hvalue hend
        rw [length_cons, show fuel + 3 * (members.length + 1) + 5 =
          fuel + 3 * members.length + 5 + 3 by omega, hrun, ih hnext (.cons hline' hrest)]
        cases opened <;> simp [lineTokens, opening, Member.tokens]

theorem IsLine.isIndented (h : IsLine written m) : IsIndented written := by
  obtain ⟨name, value, rfl, -, hname, hvalue⟩ := h
  exact (IsIndented.of_visible hname.visible).append
    ⟨.inl (by decide), .inr (.inl rfl), hvalue.isIndented⟩

theorem IsLine.length_ge (h : IsLine written m) : 3 ≤ written.length := by
  obtain ⟨name, value, rfl, hkey, -⟩ := h
  obtain ⟨ch, more, rfl, -⟩ := hkey.exists_head
  simp only [length_append, length_cons]
  omega

theorem length_intercalate_ge (h : Forall₂ IsLine lines members) :
    3 * members.length ≤ (List.intercalate ['\n'] lines).length := by
  induction h with
  | nil => simp
  | @cons written m lines members hline hlines ih =>
    have hlength := hline.length_ge
    cases lines with
    | nil =>
      cases hlines
      simpa using hlength
    | cons next lines =>
      rw [intercalate_cons_cons]
      simp only [length_append, length_cons] at ih ⊢
      omega

end Lexer

theorem IsIndented.all_isAllowed {written : List Char} (h : IsIndented written) :
    written.all isAllowed = true := by
  induction written with
  | nil => rfl
  | cons ch written ih =>
    have hch : isAllowed ch = true := by
      rcases h.1 with hink | rfl | ⟨rfl, -⟩
      · have hlow := hink.1
        have hhigh := hink.2
        simp only [isAllowed, Bool.or_eq_true, Bool.and_eq_true, decide_eq_true_eq, beq_iff_eq]
        omega
      · rfl
      · rfl
    rw [all_cons, hch, ih h.2]
    rfl

theorem Lexer.all_isAllowed_lines (h : Forall₂ IsLine lines members) :
    (List.intercalate ['\n'] lines).all isAllowed = true := by
  induction h with
  | nil => rfl
  | @cons written m lines members hline hlines ih =>
    cases lines with
    | nil => simpa using hline.isIndented.all_isAllowed
    | cons next lines =>
      rw [intercalate_cons_cons, all_append, all_append, ih, hline.isIndented.all_isAllowed]
      rfl

open Lexer in
theorem tokens_lines {m : Member} (h : Forall₂ IsLine lines (m :: members)) :
    tokens (Text.ofChars (List.intercalate ['\n'] lines)) =
      (.blockMappingStart :: ((m :: members).flatMap Member.tokens ++ [.blockEnd, .streamEnd]),
        none) := by
  have hallowed : (List.intercalate ['\n'] lines).all isAllowed = true := all_isAllowed_lines h
  have hlength := length_intercalate_ge h
  obtain ⟨written, rest, rfl, hline, -⟩ : ∃ written rest, lines = written :: rest ∧
      IsLine written m ∧ Forall₂ IsLine rest members := by
    cases h with
    | cons hline hlines => exact ⟨_, _, rfl, hline, hlines⟩
  obtain ⟨ch, more, rfl, hink, hcomment⟩ := hline.exists_head
  obtain ⟨tail, hmore⟩ := exists_intercalate (ch :: more) rest
  generalize htext : List.intercalate ['\n'] ((ch :: more) :: rest) = text at *
  have hstart : AtLine { cursor := .ofChars text } false [] text := by
    refine ⟨rfl, by simp, .ofChars text, ?_, rfl, fun _ => rfl, Nat.lt_succ_self _⟩
    rw [skipBlanks_spaces (n := 0) rfl _ (Nat.succ_pos _)]
    · rw [hmore]
      rfl
    · simpa [ofChars, hmore] using ⟨hink, hcomment⟩
  rw [tokens, Text.chars?_ofChars]
  simp only [hallowed]
  rw [length_cons] at hlength
  rw [← htext] at hstart
  obtain ⟨fuel, hfuel⟩ : ∃ fuel, text.length + 2 = fuel + 3 * members.length + 5 :=
    ⟨text.length - 3 * (members.length + 1), by omega⟩
  rw [hfuel, ← htext, hstart.run_lines h]
  rfl

end AgentConfig.Yaml
