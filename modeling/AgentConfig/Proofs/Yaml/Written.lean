import AgentConfig.Proofs.Yaml.Plain
import AgentConfig.Proofs.Yaml.Quoted
import AgentConfig.Yaml.Print
import Mathlib.Data.List.SplitBy

namespace AgentConfig.Yaml

open List Text Plain

variable {written : List Char} {text : Text}

namespace Print

variable {l : Letter} {indent : Nat} {ch : Char} {run rest : Text}

/-- Runs of one kind each, neighbours being of different kinds. -/
inductive AreRuns (kind : Letter → Nat) : List Text → Prop where
  | nil : AreRuns kind []
  | cons {run : Text} {rest : List Text} (k : Nat) (hne : run ≠ []) (hrun : ∀ l ∈ run, kind l = k)
      (hnext : ∀ l ∈ rest.flatten.head?, kind l ≠ k) (h : AreRuns kind rest) :
      AreRuns kind (run :: rest)

theorem flatten_runs (kind : Letter → Nat) (text : Text) : (runs kind text).flatten = text :=
  flatten_splitBy _ _

private theorem kind_of_isChain {kind : Letter → Nat} {first : Letter}
    (h : (first :: run).IsChain fun a b => (kind a == kind b) = true) :
    ∀ l ∈ first :: run, kind l = kind first := by
  induction run generalizing first with
  | nil => simp
  | cons next run ih =>
    rw [isChain_cons_cons] at h
    have hnext : kind first = kind next := by simpa using h.1
    intro l hl
    rcases mem_cons.mp hl with rfl | hl
    · rfl
    · rw [ih h.2 l hl, hnext]

theorem areRuns_runs (kind : Letter → Nat) (text : Text) : AreRuns kind (runs kind text) := by
  have hne : ∀ run ∈ runs kind text, run ≠ [] := fun run => ne_nil_of_mem_splitBy
  have hchain : ∀ run ∈ runs kind text, run.IsChain fun a b => (kind a == kind b) = true :=
    fun run => isChain_of_mem_splitBy
  have hnext := isChain_getLast_head_splitBy (fun a b => kind a == kind b) text
  change (runs kind text).IsChain _ at hnext
  generalize runs kind text = all at hne hchain hnext
  induction all with
  | nil => exact .nil
  | cons run rest ih =>
    obtain ⟨first, run, rfl⟩ := exists_cons_of_ne_nil (hne run (by simp))
    have hrun := kind_of_isChain (hchain (first :: run) (by simp))
    refine .cons (kind first) (by simp) hrun ?_
      (ih (fun r hr => hne r (by simp [hr])) (fun r hr => hchain r (by simp [hr])) hnext.tail)
    intro l hl
    cases rest with
    | nil => simp at hl
    | cons next rest =>
      rw [isChain_cons_cons] at hnext
      obtain ⟨ha, hb, hdiffer⟩ := hnext.1
      obtain rfl : next.head hb = l := by
        obtain ⟨l', next, rfl⟩ := exists_cons_of_ne_nil hb
        simpa using hl
      rw [← hrun _ (getLast_mem ha)]
      exact fun h => by simp [h] at hdiffer

theorem isInk_iff : IsInk ch ↔ (' ' ≤ ch ∧ ch ≤ '~') ∧ ch ≠ ' ' := by
  have hspace : ch = ' ' ↔ ch.toNat = 0x20 :=
    ⟨fun h => h ▸ rfl, fun h => Char.ext (UInt32.toNat_inj.mp h)⟩
  rw [ne_eq, hspace, Char.le_def, Char.le_def, UInt32.le_iff_toNat_le, UInt32.le_iff_toNat_le]
  change 0x20 < ch.toNat ∧ ch.toNat < 0x7F ↔ (0x20 ≤ ch.toNat ∧ ch.toNat ≤ 0x7E) ∧ ¬ ch.toNat = 0x20
  omega

theorem hasPair_eq_false_iff {p q : Letter → Bool} :
    hasPair p q text = false ↔ text.IsChain fun a b => ¬ (p a = true ∧ q b = true) := by
  induction text with
  | nil => simp [hasPair]
  | cons a text ih =>
    cases text with
    | nil => simp [hasPair]
    | cons b text =>
      rw [isChain_cons_cons, ← ih]
      simp [hasPair, Bool.or_eq_false_iff]

/-- A text that single quotes can hold. -/
structure Fits (text : Text) : Prop where
  visible : ∀ l ∈ text, ∃ ch : Char, l = .char ch ∧ (IsInk ch ∨ ch = ' ' ∨ ch = '\n')
  spaceless : text.IsChain fun a b => ¬ (a = .char '\n' ∧ b = .char ' ')
  breakless : text.IsChain fun a b => ¬ (a = .char ' ' ∧ b = .char '\n')

theorem fits_of_fitsSingleQuotes (h : fitsSingleQuotes text = true) : Fits text := by
  simp only [fitsSingleQuotes, Bool.not_eq_true', Bool.or_eq_false_iff, any_eq_false] at h
  obtain ⟨⟨hspecial, hbreak⟩, hspace⟩ := h
  rw [hasPair_eq_false_iff] at hbreak hspace
  have hsp : isSpace (.char ' ') = true := rfl
  have hbr : isLineBreak (.char '\n') = true := rfl
  refine ⟨fun l hl => ?_, hbreak.imp ?_, hspace.imp ?_⟩
  · have hl := hspecial l hl
    cases l with
    | half place => simp [isSpecial, Letter.is] at hl
    | char ch =>
      refine ⟨ch, rfl, ?_⟩
      rw [isInk_iff]
      by_cases hsp : ch = ' '
      · exact .inr (.inl hsp)
      simp only [isSpecial, Letter.is, Bool.not_eq_true, Bool.not_eq_false', Bool.or_eq_true,
        beq_iff_eq, Bool.and_eq_true, decide_eq_true_eq] at hl
      rcases hl with hl | hl
      · exact .inr (.inr hl)
      · exact .inl ⟨hl, hsp⟩
  · rintro a b h ⟨rfl, rfl⟩
    exact h ⟨hbr, hsp⟩
  · rintro a b h ⟨rfl, rfl⟩
    exact h ⟨hsp, hbr⟩

theorem Fits.of_append {before after : Text} (h : Fits (before ++ after)) : Fits after :=
  ⟨fun l hl => h.visible l (by simp [hl]), h.spaceless.right_of_append, h.breakless.right_of_append⟩

/-- The kinds of letters inside single quotes: spaces, line breaks, and the letters of words. -/
def quoteKind (l : Letter) : Nat := if isSpace l then 0 else if l = '\n' then 1 else 2

theorem single_eq (split : Bool) (indent column : Nat) (text : Text) :
    single split indent column text =
      "'" ++ singleRuns split indent (column + 1) true (runs quoteKind text) ++ "'" := rfl

theorem quoteKind_eq_zero_iff : quoteKind l = 0 ↔ l = .char ' ' := by
  unfold quoteKind isSpace
  split
  · simp_all
  · split <;> simp_all

theorem quoteKind_eq_one_iff : quoteKind l = 1 ↔ l = .char '\n' := by
  unfold quoteKind isSpace
  split
  · simp_all
  · split <;> simp_all

open Quoted (Spells)

theorem spells_spaces {double : Bool} {written : List Char} (n : Nat)
    (h : Spells double written text) (hhead : written.head? ≠ some '\n') :
    Spells double (replicate n ' ' ++ written) (replicate n (.char ' ') ++ text) := by
  induction n with
  | zero => exact h
  | succ n ih =>
    refine .space ?_ ih
    cases n with
    | zero => exact hhead
    | succ n => simp [replicate_succ]

/-- The first letter of a text is visible. -/
def StartsVisibly (text : Text) : Prop := ∀ l ∈ text.head?, l ≠ .char ' ' ∧ l ≠ .char '\n'

/-- What is printed spells the text, and starts with a visible character if the text does. -/
def Prints (double : Bool) (out text : Text) : Prop :=
  ∃ written, out = ofChars written ∧ Spells double written text ∧
    (StartsVisibly text → ∀ ch ∈ written.head?, IsInk ch)

namespace Prints

variable {double : Bool} {out : Text}

theorem nil : Prints double [] [] := ⟨[], rfl, .nil, by simp⟩

theorem breaks (n indent : Nat) (h : Prints double out text) (hstart : StartsVisibly text) :
    Prints double (.char '\n' :: replicate (n + 1) (.char '\n') ++
      replicate (indent + 1) (.char ' ') ++ out)
      (replicate (n + 1) (.char '\n') ++ text) := by
  obtain ⟨written, rfl, hspells, hhead⟩ := h
  have hmore := Spells.breaks (n + 1) indent (hhead hstart) hspells
  have hfold : foldBreaks '\n' (replicate (n + 1) '\n') = replicate (n + 1) '\n' := by
    simp [foldBreaks, replicate_succ]
  rw [hfold, ofChars, map_replicate] at hmore
  refine ⟨_, ?_, hmore, fun hbreak => ?_⟩
  · simp [ofChars]
  · exact absurd rfl (hbreak (.char '\n') (by simp [replicate_succ])).2

theorem folded (indent : Nat) (h : Prints double out text) (hstart : StartsVisibly text) :
    Prints double (newline (indent + 1) ++ out) (.char ' ' :: text) := by
  obtain ⟨written, rfl, hspells, hhead⟩ := h
  refine ⟨_, ?_, Spells.breaks 0 indent (hhead hstart) hspells, fun hspace => ?_⟩
  · simp [newline, ofChars]
  · exact absurd rfl (hspace (.char ' ') (by simp)).1

theorem spaces (n : Nat) (h : Prints double out text) (hstart : StartsVisibly text) :
    Prints double (replicate (n + 1) (.char ' ') ++ out)
      (replicate (n + 1) (.char ' ') ++ text) := by
  obtain ⟨written, rfl, hspells, hhead⟩ := h
  have hbreak : written.head? ≠ some '\n' :=
    fun hbreak => absurd (hhead hstart '\n' hbreak) (by decide)
  refine ⟨_, ?_, spells_spaces (n + 1) hspells hbreak, fun hspace => ?_⟩
  · simp [ofChars]
  · exact absurd rfl (hspace (.char ' ') (by simp [replicate_succ])).1

theorem word (h : Prints false out text) (hrun : ∀ l ∈ run, ∃ ch, l = .char ch ∧ IsInk ch) :
    Prints false (doubleQuotes run ++ out) (run ++ text) := by
  induction run with
  | nil => exact h
  | cons l run ih =>
    obtain ⟨ch, rfl, hink⟩ := hrun l (by simp)
    obtain ⟨written, hout, hspells, -⟩ := ih fun l hl => hrun l (by simp [hl])
    rw [doubleQuotes, flatMap_cons, ← doubleQuotes, append_assoc, hout]
    by_cases hquote : ch = '\''
    · subst hquote
      exact ⟨'\'' :: '\'' :: written, rfl, .quote rfl hspells, by simpa using fun _ => hink⟩
    · refine ⟨ch :: written, ?_, .letter hink hquote (by simp) hspells,
        by simpa using fun _ => hink⟩
      simp [hquote, ofChars]

end Prints

theorem doubleQuotes_spaces (n : Nat) :
    doubleQuotes (replicate n (.char ' ')) = replicate n (.char ' ') := by
  induction n with
  | zero => rfl
  | succ n ih =>
    rw [replicate_succ, doubleQuotes, flatMap_cons, ← doubleQuotes, ih]
    rfl

theorem exists_replicate (hne : run ≠ []) (h : ∀ a ∈ run, a = l) :
    ∃ n, run = replicate (n + 1) l := by
  obtain ⟨a, more, rfl⟩ := exists_cons_of_ne_nil hne
  exact ⟨more.length, eq_replicate_iff.mpr ⟨rfl, h⟩⟩

theorem prints_singleRuns (split first : Bool) (indent column : Nat) {all : List Text}
    (hruns : AreRuns quoteKind all) (hfits : Fits all.flatten) :
    Prints false (singleRuns split (indent + 1) column first all) all.flatten := by
  induction hruns generalizing column first with
  | nil => exact .nil
  | @cons run rest k hne hrun hnext hruns ih =>
    have hafter := hfits.of_append
    -- By the kind of the run: it is all breaks, all spaces, or a word.
    by_cases hbreak : k = 1
    · subst hbreak
      obtain ⟨n, rfl⟩ := exists_replicate hne fun l hl => quoteKind_eq_one_iff.mp (hrun l hl)
      have hstart : StartsVisibly rest.flatten := fun l hl =>
        ⟨fun hl' => (isChain_append.mp hfits.spaceless).2.2 _
            (by simp [getLast?_replicate]) l hl ⟨rfl, hl'⟩,
          fun hl' => hnext l hl (quoteKind_eq_one_iff.mpr hl')⟩
      exact (ih _ _ hafter).breaks n indent hstart
    · by_cases hspace : k = 0
      · subst hspace
        obtain ⟨n, rfl⟩ := exists_replicate hne fun l hl => quoteKind_eq_zero_iff.mp (hrun l hl)
        have hstart : StartsVisibly rest.flatten := fun l hl =>
          ⟨fun hl' => hnext l hl (quoteKind_eq_zero_iff.mpr hl'),
            fun hl' => (isChain_append.mp hfits.breakless).2.2 _
              (by simp [getLast?_replicate]) l hl ⟨rfl, hl'⟩⟩
        rw [singleRuns, if_neg (by simp [replicate_succ]), doubleQuotes_spaces]
        split
        next hfold =>
          obtain rfl : n = 0 := by
            simp only [Bool.and_eq_true, beq_iff_eq] at hfold
            have hlength := congrArg List.length hfold.1.1.1.2
            rw [length_replicate] at hlength
            exact Nat.succ.inj hlength
          exact (ih _ _ hafter).folded indent hstart
        next => exact (ih _ _ hafter).spaces n hstart
      · have hword : ∀ l ∈ run, ∃ ch, l = .char ch ∧ IsInk ch := by
          intro l hl
          obtain ⟨ch, rfl, hink | rfl | rfl⟩ := hfits.visible l (by simp [hl])
          · exact ⟨ch, rfl, hink⟩
          · exact absurd (hrun _ hl).symm hspace
          · exact absurd (hrun _ hl).symm hbreak
        obtain ⟨l, more, rfl⟩ := exists_cons_of_ne_nil hne
        have hl : l ≠ .char ' ' ∧ l ≠ .char '\n' := by
          obtain ⟨ch, rfl, hink⟩ := hword l (by simp)
          simpa using ⟨hink.ne (by decide), hink.ne (by decide)⟩
        have hlone : (l :: more == (" " : Text)) = false := by
          rw [beq_eq_false_iff_ne]
          exact fun h => hl.1 (List.cons.inj h).1
        rw [singleRuns, if_neg (by simpa using hl.2), if_neg (by simp [hlone])]
        exact (ih _ _ hafter).word hword

theorem exists_single (split : Bool) (indent column : Nat) (hfits : Fits text) :
    ∃ written, single split (indent + 1) column text =
      ofChars ('\'' :: (written ++ ['\''])) ∧ Spells false written text := by
  have hruns := areRuns_runs quoteKind text
  obtain ⟨written, hout, hspells, -⟩ :=
    prints_singleRuns split true indent (column + 1) hruns (by rwa [flatten_runs])
  rw [flatten_runs] at hspells
  refine ⟨written, ?_, hspells⟩
  rw [single_eq, hout]
  simp [ofChars, ofString]

/-- The kinds of letters in a plain text: spaces, and the letters of words. -/
def plainKind (l : Letter) : Nat := if isSpace l then 0 else 1

theorem plainKind_eq_zero_iff : plainKind l = 0 ↔ l = .char ' ' := by
  unfold plainKind isSpace
  split <;> simp_all

/-- The rest of a plain text: visible letters and spaces, in which no comment starts, no colon ends
a word, and no space comes last. -/
structure Flows (text : Text) : Prop where
  visible : ∀ l ∈ text, ∃ ch : Char, l = .char ch ∧ (IsInk ch ∨ ch = ' ')
  commentless : text.IsChain fun a b => ¬ (a = .char ' ' ∧ b = .char '#')
  colonless : text.IsChain fun a b => ¬ (a = .char ':' ∧ b = .char ' ')
  last : ∀ l ∈ text.getLast?, l ≠ .char ' ' ∧ l ≠ .char ':'

theorem Flows.of_append {before after : Text} (h : Flows (before ++ after)) : Flows after := by
  refine ⟨fun l hl => h.visible l (by simp [hl]), h.commentless.right_of_append,
    h.colonless.right_of_append, fun l hl => h.last l ?_⟩
  have hne : after ≠ [] := by
    rintro rfl
    cases hl
  rwa [getLast?_append_of_ne_nil _ hne]

/-- What is printed for a plain text that starts with a word. -/
def StartsWord (out text : Text) : Prop :=
  ∃ written chars, out = ofChars written ∧ text = ofChars chars ∧ Plain.Spells written chars

/-- What is printed behind a word: nothing, or a gap and more words. -/
def FollowsWord (out text : Text) : Prop :=
  (out = [] ∧ text = []) ∨
    ∃ gap meaning more text', IsGap gap meaning ∧ StartsWord more text' ∧
      out = ofChars gap ++ more ∧ text = ofChars meaning ++ text'

theorem FollowsWord.word {run : List Char} {out : Text} (hrun : IsWord run)
    (h : FollowsWord out text) :
    StartsWord (ofChars run ++ out) (ofChars run ++ text) := by
  rcases h with ⟨rfl, rfl⟩ | ⟨gap, meaning, -, -, hgap, ⟨written, chars, rfl, rfl, h⟩, rfl, rfl⟩
  · exact ⟨run, run, by simp, by simp, .word hrun⟩
  · exact ⟨_, _, by simp [ofChars], by simp [ofChars], .more hrun hgap h⟩

theorem exists_chars (h : ∀ l ∈ run, ∃ ch, l = .char ch ∧ IsInk ch) :
    ∃ chars, run = ofChars chars ∧ ∀ ch ∈ chars, IsInk ch := by
  induction run with
  | nil => exact ⟨[], rfl, by simp⟩
  | cons l run ih =>
    obtain ⟨ch, rfl, hink⟩ := h l (by simp)
    obtain ⟨chars, rfl, hchars⟩ := ih fun l hl => h l (by simp [hl])
    exact ⟨ch :: chars, rfl, by simpa using ⟨hink, hchars⟩⟩

theorem isWord_of_flows {chars : List Char} (hne : chars ≠ []) (hink : ∀ ch ∈ chars, IsInk ch)
    (hhead : chars.head? ≠ some '#') (hflows : Flows (ofChars chars ++ rest))
    (hrest : ∀ l ∈ rest.head?, l = .char ' ') :
    IsWord chars := by
  refine ⟨hne, hink, hhead, fun hlast => ?_⟩
  have hcolon : (ofChars chars).getLast? = some (.char ':') := by
    rw [ofChars, getLast?_map, hlast]
    rfl
  cases rest with
  | nil => exact (hflows.last (.char ':') (by simpa using hcolon)).2 rfl
  | cons l rest =>
    exact (isChain_append.mp hflows.colonless).2.2 _ hcolon l (by simp) ⟨rfl, hrest l (by simp)⟩

theorem plainRuns_spells (split : Bool) (indent column : Nat) {all : List Text}
    (hruns : AreRuns plainKind all) (hflows : Flows all.flatten) :
    (all ≠ [] → (∀ l ∈ all.flatten.head?, l ≠ .char ' ' ∧ l ≠ .char '#') →
        StartsWord (plainRuns split (indent + 1) column all) all.flatten) ∧
      ((∀ l ∈ all.flatten.head?, l = .char ' ') →
        FollowsWord (plainRuns split (indent + 1) column all) all.flatten) := by
  induction hruns generalizing column with
  | nil => exact ⟨fun h => absurd rfl h, fun _ => .inl ⟨rfl, rfl⟩⟩
  | @cons run rest k hne hrun hnext hruns ih =>
    have hafter := hflows.of_append
    by_cases hspace : k = 0
    · subst hspace
      obtain ⟨n, rfl⟩ := exists_replicate hne fun l hl => plainKind_eq_zero_iff.mp (hrun l hl)
      refine ⟨fun _ hhead => absurd rfl (hhead (.char ' ') (by simp [replicate_succ])).1,
        fun _ => .inr ?_⟩
      have hrest : rest ≠ [] := by
        rintro rfl
        exact (hflows.last (.char ' ') (by simp [getLast?_replicate])).1 rfl
      have hword (column : Nat) := (ih column hafter).1 hrest fun l hl =>
        ⟨fun hl' => hnext l hl (plainKind_eq_zero_iff.mpr hl'), fun hl' =>
          (isChain_append.mp hflows.commentless).2.2 (.char ' ')
            (by simp [getLast?_replicate]) l hl ⟨rfl, hl'⟩⟩
      rw [plainRuns]
      split
      next hfold =>
        obtain rfl : n = 0 := by
          simp only [Bool.and_eq_true, beq_iff_eq] at hfold
          have hlength := congrArg List.length hfold.1.2
          rw [length_replicate] at hlength
          exact Nat.succ.inj hlength
        exact ⟨_, _, _, _, .folded indent, hword (indent + 1), by simp [newline, ofChars], rfl⟩
      next =>
        exact ⟨_, _, _, _, .spaces n, hword (column + (n + 1)), by simp [ofChars],
          by simp [ofChars]⟩
    · have hink : ∀ l ∈ run, ∃ ch, l = .char ch ∧ IsInk ch := by
        intro l hl
        obtain ⟨ch, rfl, hink | rfl⟩ := hflows.visible l (by simp [hl])
        · exact ⟨ch, rfl, hink⟩
        · exact absurd (hrun _ hl).symm hspace
      have hrest : ∀ l ∈ rest.flatten.head?, l = .char ' ' := by
        intro l hl
        refine plainKind_eq_zero_iff.mp ?_
        obtain ⟨l', more, rfl⟩ := exists_cons_of_ne_nil hne
        have hk := hrun l' (by simp)
        have hother := hnext l hl
        unfold plainKind at hk hother ⊢
        split at hk <;> split at hother <;> simp_all
      obtain ⟨chars, rfl, hchars⟩ := exists_chars hink
      obtain ⟨ch, more, rfl⟩ :=
        exists_cons_of_ne_nil fun h : chars = [] => hne (by rw [h]; rfl)
      have hch : .char ch ≠ Letter.char ' ' := by simpa using (hchars ch (by simp)).ne (by decide)
      have hlone : (ofChars (ch :: more) == (" " : Text)) = false := by
        rw [beq_eq_false_iff_ne]
        exact fun h => hch (List.cons.inj h).1
      refine ⟨fun _ hhead => ?_, fun hhead => absurd (hhead (.char ch) (by simp [ofChars])) hch⟩
      rw [plainRuns, if_neg (by simp [hlone])]
      have hcomment : ch ≠ '#' := by simpa using (hhead (.char ch) (by simp [ofChars])).2
      exact ((ih _ hafter).2 hrest).word
        (isWord_of_flows (by simp) hchars (by simpa using hcomment) hflows hrest)

/-- What being printed plain says about a text and its first letter. -/
structure PlainText (l : Letter) (rest : Text) : Prop where
  dashes : (l :: rest).take 3 ≠ ("---" : Text)
  dots : (l :: rest).take 3 ≠ ("..." : Text)
  fits : Fits (l :: rest)
  breakless : ∀ a ∈ l :: rest, isLineBreak a = false
  head_ne : l ≠ .char ' '
  last_ne : (l :: rest).getLast? ≠ some (.char ' ')
  head : l.is (fun c => "#,[]\x7b\x7d&*!|>'\"%@`".toList.contains c) = false
  /-- The marks that are indicators before a blank have something else behind them. -/
  second : l = .char '?' ∨ l = .char ':' ∨ l = .char '-' → rest.head?.all isBlankLetter = false
  colonless : hasPair (· == .char ':') isBlankLetter rest = false
  last_colon : rest ≠ [] → (l :: rest).getLast? ≠ some (.char ':')
  commentless : hasPair isBlankLetter (· == .char '#') (l :: rest) = false

theorem plainText_of_isPlain (h : isPlain text = true) :
    ∃ l rest, text = l :: rest ∧ PlainText l rest := by
  simp only [isPlain, Bool.and_eq_true, Bool.not_eq_true'] at h
  obtain ⟨⟨⟨⟨⟨hfits, hhead⟩, hlast⟩, hbreaks⟩, hindicator⟩, htag⟩ := h
  have hne : text ≠ [] := by
    rintro rfl
    exact absurd htag (by decide)
  obtain ⟨l, rest, rfl⟩ := exists_cons_of_ne_nil hne
  simp only [hasIndicator, Bool.or_eq_false_iff, Bool.and_eq_false_iff] at hindicator
  obtain ⟨⟨⟨⟨⟨⟨hdashes, hdots⟩, hfirst⟩, hspaced⟩, hcolon⟩, hlastColon⟩, hcomment⟩ := hindicator
  refine ⟨l, rest, rfl, by simpa using hdashes, by simpa using hdots,
    fits_of_fitsSingleQuotes hfits, by simpa using hbreaks, ?_, ?_, hfirst, ?_, hcolon, ?_,
    hcomment⟩
  · rintro rfl
    cases hhead
  · intro hspace
    rw [hspace] at hlast
    cases hlast
  · intro hmark
    rcases hspaced with hspaced | hspaced
    · rcases hmark with rfl | rfl | rfl <;> cases hspaced
    · exact hspaced
  · intro hrest hcolon
    rcases hlastColon with hempty | hlast
    · simp [hrest] at hempty
    · rw [hcolon] at hlast
      simp at hlast

namespace PlainText

theorem flows (h : PlainText l rest) : Flows (l :: rest) := by
  have hsp : isBlankLetter (.char ' ') = true := rfl
  refine ⟨fun a ha => ?_, (hasPair_eq_false_iff.mp h.commentless).imp ?_, ?_, fun a ha => ⟨?_, ?_⟩⟩
  · obtain ⟨ch, rfl, hink | hspace | rfl⟩ := h.fits.visible a ha
    · exact ⟨ch, rfl, .inl hink⟩
    · exact ⟨ch, rfl, .inr hspace⟩
    · cases h.breakless _ ha
  · rintro a b hpair ⟨rfl, rfl⟩
    exact hpair ⟨hsp, by simp⟩
  · refine List.IsChain.cons ((hasPair_eq_false_iff.mp h.colonless).imp ?_) ?_
    · rintro a b hpair ⟨rfl, rfl⟩
      exact hpair ⟨by simp, hsp⟩
    rintro b hb ⟨rfl, rfl⟩
    have hsecond := h.second (.inr (.inl rfl))
    rw [Option.mem_def.mp hb] at hsecond
    cases hsecond
  · rintro rfl
    exact h.last_ne ha
  · rintro rfl
    by_cases hrest : rest = []
    · subst hrest
      obtain rfl : l = .char ':' := by simpa using ha
      cases h.second (.inr (.inl rfl))
    · exact h.last_colon hrest ha

theorem opens (h : PlainText l rest) {written chars : List Char}
    (htext : l :: rest = ofChars chars) (hspells : Plain.Spells written chars) :
    Opens written := by
  obtain ⟨ch, chars, rfl⟩ := exists_cons_of_ne_nil fun hnil : chars = [] => by
    rw [hnil] at htext
    cases htext
  obtain ⟨rfl, rfl⟩ := List.cons.inj htext
  obtain ⟨hhead, hsecond⟩ := hspells.second_eq
  refine ⟨fun d hd => ?_, fun d hd hmark => ?_⟩
  · obtain rfl : ch = d := by simpa [hhead] using hd
    simpa [Letter.is] using h.head
  obtain rfl : ch = d := by simpa [hhead] using hd
  have hnext := h.second (by rcases hmark with rfl | rfl | rfl <;> simp)
  cases chars with
  | nil => cases hnext
  | cons next chars =>
    obtain ⟨d, heq, hink⟩ := h.flows.visible (.char next) (by simp)
    obtain rfl := Letter.char.inj heq
    rcases hink with hink | rfl
    · have hne := hink.ne (d := ' ') (by decide)
      exact ⟨next, hsecond (by simpa using hne), hink⟩
    · cases hnext

end PlainText

theorem exists_plain (split : Bool) (indent column : Nat) (h : isPlain text = true) :
    ∃ written chars, plain split (indent + 1) column text = ofChars written ∧
      text = ofChars chars ∧ Plain.Spells written chars ∧ Opens written := by
  obtain ⟨l, rest, rfl, hplain⟩ := plainText_of_isPlain h
  have hruns := areRuns_runs plainKind (l :: rest)
  have hall : runs plainKind (l :: rest) ≠ [] := splitBy_ne_nil.mpr (by simp)
  have hcomment : l ≠ .char '#' := by
    rintro rfl
    cases hplain.head
  obtain ⟨written, chars, hout, htext, hspells⟩ :=
    (plainRuns_spells split indent column hruns (by rw [flatten_runs]; exact hplain.flows)).1 hall
      (by rw [flatten_runs]; simpa using ⟨hplain.head_ne, hcomment⟩)
  rw [flatten_runs] at htext
  exact ⟨written, chars, hout, htext, hspells, hplain.opens htext hspells⟩

theorem isInk_hexDigits {width n : Nat} (h : ch ∈ (hexDigits width n).map Char.toUpper) :
    IsInk ch := by
  induction width generalizing n with
  | zero => simp [hexDigits] at h
  | succ width ih =>
    rw [hexDigits, map_append, mem_append] at h
    rcases h with h | h
    · exact ih h
    · have hdigit : ∀ d < 16, IsInk (Nat.digitChar d).toUpper := by decide
      rw [mem_singleton.mp h]
      exact hdigit _ (Nat.mod_lt _ (by decide))

theorem simpleEscape?_of_escapeLetter? {letter : Char} (h : escapeLetter? ch = some letter) :
    simpleEscape? letter = some ch ∧ IsInk letter := by
  unfold escapeLetter? at h
  split at h <;> cases h <;> exact ⟨rfl, by decide⟩

open Quoted (Escapes)

theorem escapes_hex (ch : Char) {width : Nat} (hch : simpleEscape? ch = none)
    (hwidth : escapeWidth? ch = some width) (hink : IsInk ch) (hcode : l.code < 16 ^ width) :
    ∃ sequence, ofChars ['\\', ch] ++ hexUpper width l.code = ofChars ('\\' :: sequence) ∧
      Escapes sequence l ∧ ∀ d ∈ sequence, IsInk d ∨ d = ' ' := by
  refine ⟨ch :: (hexDigits width l.code).map Char.toUpper, rfl,
    .numeric hch hwidth (by simp [length_hexDigits]) (hexNumber?_toUpper hcode), ?_⟩
  intro d hd
  rcases mem_cons.mp hd with rfl | hd
  · exact .inl hink
  · exact .inl (isInk_hexDigits hd)

theorem exists_escaped (l : Letter) :
    ∃ sequence, escaped l = ofChars ('\\' :: sequence) ∧ Escapes sequence l ∧
      ∀ ch ∈ sequence, IsInk ch ∨ ch = ' ' := by
  unfold escaped
  split
  next letter hletter =>
    obtain ⟨ch, hch, hletter⟩ := Option.bind_eq_some_iff.mp hletter
    obtain rfl : l = .char ch := by
      cases l with
      | char c => exact congrArg Letter.char (Option.some.inj hch)
      | half => cases hch
    obtain ⟨hsimple, hink⟩ := simpleEscape?_of_escapeLetter? hletter
    exact ⟨[letter], rfl, .short hsimple, by simp [hink]⟩
  next =>
    have hbound := l.code_lt
    split
    next h => exact escapes_hex 'x' rfl rfl (by decide) (by omega)
    next =>
      split
      next h => exact escapes_hex 'u' rfl rfl (by decide) (by omega)
      next => exact escapes_hex 'U' rfl rfl (by decide) (by omega)

/-- What is printed inside double quotes spells the text and starts no line. It starts with a
visible character unless the text starts with a space, and with that space if it is `tight`. -/
structure Doubles (tight : Prop) (written : List Char) (text : Text) : Prop where
  spells : Spells true written text
  head_ne : written.head? ≠ some '\n'
  isInk : text.head? ≠ some (.char ' ') → ∀ ch ∈ written.head?, IsInk ch
  head_eq : tight → text.head? = some (.char ' ') → written.head? = some ' '

namespace Doubles

variable {tight : Prop}

section

variable (h : Doubles tight written text)
include h

theorem letter {l : Letter} (hl : isBare l = true) :
    ∃ ch, l = .char ch ∧ Doubles True (ch :: written) (l :: text) := by
  cases l with
  | half => cases hl
  | char ch =>
    simp only [isBare, Letter.is, Bool.and_eq_true, decide_eq_true_eq, bne_iff_ne, ne_eq] at hl
    obtain ⟨⟨hrange, hquote⟩, hslash⟩ := hl
    refine ⟨ch, rfl, ?_⟩
    by_cases hspace : ch = ' '
    · subst hspace
      exact ⟨.space h.head_ne h.spells, by simp, by simp, by simp⟩
    · have hink : IsInk ch := isInk_iff.mpr ⟨hrange, hspace⟩
      exact ⟨.letter hink hquote (fun _ => hslash) h.spells, by simpa using hink.ne (by decide),
        by simpa using fun _ => hink, by simp [hspace]⟩

theorem mono {tight' : Prop} (himp : tight' → tight) :
    Doubles tight' written text := { h with head_eq := fun htight => h.head_eq (himp htight) }

theorem append {run : Text} (hrun : ∀ l ∈ run, isBare l = true) : ∃ word, run = ofChars word ∧
      Doubles (run ≠ [] ∨ tight) (word ++ written) (run ++ text) := by
  induction run with
  | nil => exact ⟨[], rfl, by simpa using h⟩
  | cons l run ih =>
    obtain ⟨word, hword, hdoubles⟩ := ih fun l hl => hrun l (by simp [hl])
    obtain ⟨ch, rfl, hall⟩ := hdoubles.letter (hrun l (by simp))
    exact ⟨ch :: word, by rw [hword]; rfl, by simpa using hall⟩

theorem escape {l : Letter} (hl : isBare l = false) :
    ∃ sequence, escaped l = ofChars ('\\' :: sequence) ∧
      Doubles True ('\\' :: (sequence ++ written)) (l :: text) := by
  obtain ⟨sequence, hescaped, hescapes, hvisible⟩ := exists_escaped l
  refine ⟨sequence, hescaped, .escape rfl hescapes hvisible h.spells, by simp, ?_, ?_⟩
  · simpa using fun _ => (by decide : IsInk '\\')
  · intro _ hspace
    obtain rfl : l = .char ' ' := by simpa using hspace
    cases hl

end

end Doubles

/-- The backslash that keeps a space at the start of a line. -/
def spaceMark (next : Option Letter) : Text := if next = some (.char ' ') then "\\" else []

theorem Doubles.continued {written : List Char} (indent : Nat) (h : Doubles True written text) :
    ∃ line, "\\" ++ newline (indent + 1) ++ spaceMark text.head? ++ ofChars written =
        ofChars line ∧ Doubles False line text := by
  by_cases hspace : text.head? = some (.char ' ')
  · obtain ⟨text, rfl⟩ := head?_eq_some_iff.mp hspace
    obtain ⟨written, rfl⟩ := head?_eq_some_iff.mp (h.head_eq trivial rfl)
    have hspells : Spells true written text := by
      cases h.spells with
      | space _ h => exact h
      | letter hink => exact absurd hink (by decide)
    have hmarked : Spells true ('\\' :: ([' '] ++ written)) (.char ' ' :: text) :=
      .escape rfl (.short rfl) (by simp) hspells
    refine ⟨_, ?_, .continued indent rfl ?_ hmarked, by simp, by simp, by simp⟩
    · simp [spaceMark, newline, ofChars, ofString]
    · simpa using (by decide : IsInk '\\')
  · refine ⟨_, ?_, .continued indent rfl (h.isInk hspace) h.spells, by simp, ?_, by simp⟩
    · simp [spaceMark, hspace, newline, ofChars, ofString]
    · simpa using fun _ => (by decide : IsInk '\\')

theorem doubleFrom_of_isBare {split started : Bool} {column : Nat} {pending : Text}
    (h : isBare l = true) :
    doubleFrom split indent started column pending (l :: rest) =
      if (split && started && !rest.isEmpty && (isSpace l || pending.isEmpty) &&
          decide (width < column + pending.length)) = true then
        pending.reverse ++ ("\\" ++ newline indent ++ spaceMark (some l) ++
          doubleFrom split indent true (indent + (spaceMark (some l)).length) [l] rest)
      else doubleFrom split indent true column (l :: pending) rest := by
  rw [doubleFrom]
  simp [h, spaceMark]

theorem doubleFrom_of_not_isBare {split started : Bool} {column : Nat} {pending : Text}
    (h : isBare l = false) :
    (∃ column', doubleFrom split indent started column pending (l :: rest) =
        pending.reverse ++ (escaped l ++ doubleFrom split indent true column' [] rest)) ∨
      doubleFrom split indent started column pending (l :: rest) =
        pending.reverse ++ (escaped l ++ ("\\" ++ newline indent ++ spaceMark rest.head? ++
          doubleFrom split indent true (indent + (spaceMark rest.head?).length) [] rest)) := by
  rw [doubleFrom]
  simp only [h, Bool.false_eq_true, if_false, spaceMark]
  split
  · exact .inr (by simp)
  · exact .inl ⟨_, by simp; rfl⟩

theorem length_spaceMark_le (next : Option Letter) : (spaceMark next).length ≤ 1 := by
  unfold spaceMark
  split <;> simp [ofString, ofChars]

theorem doubles_doubleFrom (split started : Bool) (hindent : indent + 1 < width) (column : Nat)
    (pending : Text) (hpending : ∀ l ∈ pending.reverse, isBare l = true) (text : Text) :
    ∃ written, doubleFrom split (indent + 1) started column pending text = ofChars written ∧
      Doubles (pending ≠ [] ∨ column ≤ width) written (pending.reverse ++ text) := by
  have hchars (a b : List Char) : ofChars (a ++ b) = ofChars a ++ ofChars b :=
    map_append
  induction text generalizing started column pending with
  | nil =>
    have hnil : Doubles True [] [] := ⟨.nil, by simp, by simp, by simp⟩
    obtain ⟨word, hword, hdoubles⟩ := hnil.append hpending
    refine ⟨word, by rw [doubleFrom, hword], ?_⟩
    simpa using hdoubles.mono fun _ => .inr trivial
  | cons l rest ih =>
    cases hbare : isBare l with
    | true =>
      rw [doubleFrom_of_isBare hbare]
      split
      next hbreak =>
        obtain ⟨written, hwritten, hdoubles⟩ :=
          ih true (indent + 1 + (spaceMark (some l)).length) [l] (by simpa using hbare)
        obtain ⟨line, hline, hcontinued⟩ := (hdoubles.mono fun _ => .inl (by simp)).continued indent
        obtain ⟨word, hword, hall⟩ := hcontinued.append hpending
        refine ⟨word ++ line, ?_, hall.mono ?_⟩
        · rw [hwritten, hchars, ← hword, ← hline]
          rfl
        -- The line was broken in front of the letter, so it was too long.
        simp only [Bool.and_eq_true, decide_eq_true_eq] at hbreak
        rintro (hne | hcolumn)
        · exact .inl (by simpa using hne)
        · refine .inl fun hnil => ?_
          rw [reverse_eq_nil_iff] at hnil
          have hlong := hbreak.2
          rw [hnil, length_nil] at hlong
          omega
      next =>
        obtain ⟨written, hwritten, hdoubles⟩ :=
          ih true column (l :: pending) (by simpa [or_imp, forall_and, hbare] using hpending)
        refine ⟨written, hwritten, ?_⟩
        simpa using hdoubles.mono fun _ => .inl (by simp)
    | false =>
      -- What follows the escape, on the same line or on the next one.
      have hfinish {line : List Char} {out : Text} {tight : Prop} (hout : out = ofChars line)
          (h : Doubles tight line rest) :
          ∃ written, pending.reverse ++ (escaped l ++ out) = ofChars written ∧
            Doubles (pending ≠ [] ∨ column ≤ width) written (pending.reverse ++ l :: rest) := by
        obtain ⟨sequence, hescaped, hdoubles⟩ := h.escape hbare
        obtain ⟨word, hword, hall⟩ := hdoubles.append hpending
        refine ⟨_, ?_, hall.mono fun _ => .inr trivial⟩
        rw [hchars, ← hword, hescaped, hout, ← hchars]
        rfl
      rcases doubleFrom_of_not_isBare hbare with ⟨column', hrest⟩ | hrest
      · obtain ⟨written, hwritten, hdoubles⟩ := ih true column' [] (by simp)
        rw [hrest]
        exact hfinish hwritten hdoubles
      have hmark := length_spaceMark_le rest.head?
      obtain ⟨written, hwritten, hdoubles⟩ :=
        ih true (indent + 1 + (spaceMark rest.head?).length) [] (by simp)
      obtain ⟨line, hline, hcontinued⟩ :=
        (hdoubles.mono fun _ => .inr (by omega)).continued indent
      rw [hrest, hwritten]
      exact hfinish hline hcontinued

theorem exists_double (split : Bool) (column : Nat) (text : Text) (hindent : indent + 1 < width) :
    ∃ written, double split (indent + 1) column text =
      ofChars ('"' :: (written ++ ['"'])) ∧ Spells true written text := by
  obtain ⟨written, hout, hdoubles⟩ :=
    doubles_doubleFrom split false hindent (column + 1) [] (by simp) text
  refine ⟨written, ?_, hdoubles.spells⟩
  rw [double, hout]
  simp [ofChars, ofString]

end Print

/-- `IsScalar written text plain`: the characters `written` are a scalar that stands for `text`. -/
inductive IsScalar : List Char → Text → Bool → Prop where
  | plain {written chars : List Char} (h : Plain.Spells written chars)
      (hopens : Opens written) : IsScalar written (ofChars chars) true
  | quoted {written : List Char} {text : Text} (double : Bool)
      (h : Quoted.Spells double written text) :
      IsScalar (Quoted.mark double :: (written ++ [Quoted.mark double])) text false

theorem IsScalar.exists_head {plain : Bool} (h : IsScalar written text plain) :
    ∃ ch more, written = ch :: more ∧ IsInk ch ∧ ch ≠ '#' := by
  cases h with
  | plain h =>
    obtain ⟨ch, more, hhead, hink⟩ := h.exists_head []
    exact ⟨ch, more, by simpa using hhead, hink⟩
  | quoted double => exact ⟨_, _, rfl, Quoted.isInk_mark double, by cases double <;> decide⟩

/-- Every text is printed as a scalar that stands for it: plain if it can be, else in single quotes,
else in double ones. -/
theorem Print.exists_scalar (split : Bool) (indent column : Nat) (text : Text)
    (hindent : indent + 1 < width) :
    ∃ written, scalar split (indent + 1) column text = ofChars written ∧
      IsScalar written text (isPlain text) := by
  unfold scalar
  split
  next hplain =>
    obtain ⟨written, chars, hout, rfl, hspells, hopens⟩ := exists_plain split indent column hplain
    rw [hplain]
    exact ⟨written, hout, .plain hspells hopens⟩
  next hplain =>
    rw [Bool.not_eq_true] at hplain
    rw [hplain]
    split
    next hfits =>
      rw [Bool.and_eq_true] at hfits
      obtain ⟨written, hout, hspells⟩ := exists_single split indent column
        (fits_of_fitsSingleQuotes hfits.1)
      exact ⟨_, hout, .quoted false hspells⟩
    next =>
      obtain ⟨written, hout, hspells⟩ := exists_double split column text hindent
      exact ⟨_, hout, .quoted true hspells⟩

/-- Lines of visible characters and spaces, each but the first one indented or empty. -/
def IsIndented : List Char → Prop
  | [] => True
  | ch :: rest =>
    (IsInk ch ∨ ch = ' ' ∨ (ch = '\n' ∧ (rest.head? = some '\n' ∨ rest.head? = some ' '))) ∧
      IsIndented rest

namespace IsIndented

variable {first rest : List Char}

theorem append (hfirst : IsIndented first) (hrest : IsIndented rest) :
    IsIndented (first ++ rest) := by
  induction first with
  | nil => exact hrest
  | cons ch first ih =>
    obtain ⟨hch, hmore⟩ := hfirst
    refine ⟨hch.imp_right (Or.imp_right fun ⟨hbreak, hnext⟩ => ⟨hbreak, ?_⟩), ih hmore⟩
    cases first with
    | nil => simp at hnext
    | cons => exact hnext

theorem of_visible (h : ∀ ch ∈ first, IsInk ch ∨ ch = ' ') : IsIndented first := by
  induction first with
  | nil => trivial
  | cons ch first ih => exact ⟨(h ch (by simp)).imp_right .inl, ih fun d hd => h d (by simp [hd])⟩

theorem spaces (n : Nat) : IsIndented (replicate n ' ') :=
  of_visible fun _ h => .inr (eq_of_mem_replicate h)

theorem breaks (more indent : Nat) :
    IsIndented ('\n' :: (replicate more '\n' ++ replicate (indent + 1) ' ')) := by
  induction more with
  | zero => exact ⟨.inr (.inr ⟨rfl, .inr rfl⟩), spaces (indent + 1)⟩
  | succ more ih => exact ⟨.inr (.inr ⟨rfl, .inl rfl⟩), ih⟩

end IsIndented

theorem Plain.Spells.isIndented {text : List Char} (h : Plain.Spells written text) :
    IsIndented written := by
  have hword {run : List Char} (hrun : IsWord run) : IsIndented run :=
    .of_visible fun ch hch => .inl (hrun.isInk ch hch)
  induction h with
  | word h => exact hword h
  | more h hgap _ ih =>
    refine (hword h).append (.append ?_ ih)
    cases hgap with
    | spaces n => exact .spaces (n + 1)
    | folded indent => exact .breaks 0 indent

theorem Quoted.Spells.isIndented {double : Bool} (h : Quoted.Spells double written text) :
    IsIndented written := by
  induction h with
  | nil => trivial
  | letter hink _ _ _ ih => exact ⟨.inl hink, ih⟩
  | quote _ _ ih => exact ⟨.inl (by decide), .inl (by decide), ih⟩
  | space _ _ ih => exact ⟨.inr (.inl rfl), ih⟩
  | breaks more indent _ _ ih =>
    rw [← append_assoc, ← cons_append]
    exact (IsIndented.breaks more indent).append ih
  | escape _ _ hvisible _ ih => exact ⟨.inl (by decide), (IsIndented.of_visible hvisible).append ih⟩
  | continued indent _ _ _ ih =>
    exact ⟨.inl (by decide), (IsIndented.breaks 0 indent).append ih⟩

theorem IsScalar.isIndented {plain : Bool} (h : IsScalar written text plain) :
    IsIndented written := by
  cases h with
  | plain h => exact h.isIndented
  | quoted double h =>
    exact ⟨.inl (Quoted.isInk_mark double),
      h.isIndented.append ⟨.inl (Quoted.isInk_mark double), trivial⟩⟩

end AgentConfig.Yaml
