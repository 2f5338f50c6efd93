import AgentConfig.Hook.Glob
import AgentConfig.Proofs.Hook.Ere
import AgentConfig.Proofs.Text.Find

namespace AgentConfig.Glob

open List Text

variable {rest pattern alternative inside plain text : Text} {p : Text → Prop}

/-- The letters that mean something in a regular expression but stars, question marks and dots. -/
def reserved : Text := "\\^$|()[]+\x7b\x7d"

/-- Texts of stars, question marks, other letters, and groups of such texts in braces. -/
inductive IsPattern : Text → Prop
  | nil : IsPattern []
  | letter {l : Letter} {rest : Text} (hl : l ∉ reserved) (hrest : IsPattern rest) :
    IsPattern (l :: rest)
  | group {inside rest : Text} (hne : inside ≠ []) (hinside : ∀ l ∈ inside, l ∉ reserved)
    (hrest : IsPattern rest) : IsPattern (.char '\x7b' :: (inside ++ .char '\x7d' :: rest))

/-- A text matches a pattern as a whole. This is what a pattern means, whatever expression is made
of it. -/
inductive Matches : (pattern text : Text) → Prop
  | nil : Matches [] []
  /-- Two stars match any text. -/
  | anyText {rest text : Text} (first : Text) (h : Matches rest text) :
    Matches (.char '*' :: .char '*' :: rest) (first ++ text)
  /-- One star matches any text without a slash. -/
  | anyName {rest text : Text} (first : Text) (hstar : rest.head? ≠ some (.char '*'))
    (hfirst : .char '/' ∉ first) (h : Matches rest text) :
    Matches (.char '*' :: rest) (first ++ text)
  /-- A question mark matches any letter. -/
  | anyLetter {rest text : Text} (l : Letter) (h : Matches rest text) :
    Matches (.char '?' :: rest) (l :: text)
  /-- Braces match what one of their alternatives matches. -/
  | group {inside alternative rest first text : Text} (hne : inside ≠ [])
    (hclose : .char '\x7d' ∉ inside) (hmem : alternative ∈ Text.splitOn ',' inside)
    (hfirst : Matches alternative first) (h : Matches rest text) :
    Matches (.char '\x7b' :: (inside ++ .char '\x7d' :: rest)) (first ++ text)
  /-- Any other letter matches itself. -/
  | letter {l : Letter} {rest text : Text} (hl : l ∉ ("*?\x7b\x7d" : Text))
    (h : Matches rest text) :
    Matches (l :: rest) (l :: text)

theorem group?_eq (hne : inside ≠ []) (hclose : .char '\x7d' ∉ inside) :
    group? (.char '\x7b') (inside ++ .char '\x7d' :: rest) = some (inside, rest) := by
  have hall : ∀ l ∈ inside, (l != .char '\x7d') = true := by
    intro l hl
    exact bne_iff_ne.mpr fun heq => hclose (heq ▸ hl)
  obtain ⟨first, others, rfl⟩ := exists_cons_of_ne_nil hne
  rw [group?, if_pos rfl, takeWhile_append_of_pos hall, dropWhile_append_of_pos hall]
  simp

/-- A text whose first part is as told, and whose rest matches. -/
def MatchesAfter (p : Text → Prop) (rest text : Text) : Prop :=
  ∃ first after, first ++ after = text ∧ p first ∧ Matches rest after

section Matching

variable {inside text : Text} {l : Letter}

theorem matches_nil_iff : Matches [] text ↔ text = [] := by
  constructor
  · intro h
    cases h
    rfl
  · rintro rfl
    exact .nil

theorem matches_anyText_iff : Matches (.char '*' :: .char '*' :: rest) text ↔
    MatchesAfter (fun _ => True) rest text := by
  constructor
  · intro h
    cases h with
    | anyText first h => exact ⟨first, _, rfl, trivial, h⟩
    | anyName _ hstar => exact absurd rfl hstar
    | letter hl => exact absurd (by simp [ofString, ofChars]) hl
  · rintro ⟨first, after, rfl, -, h⟩
    exact .anyText first h

theorem matches_anyName_iff (hstar : rest.head? ≠ some (.char '*')) :
    Matches (.char '*' :: rest) text ↔ MatchesAfter (.char '/' ∉ ·) rest text := by
  constructor
  · intro h
    cases h with
    | anyText => exact absurd rfl hstar
    | anyName first _ hfirst h => exact ⟨first, _, rfl, hfirst, h⟩
    | letter hl => exact absurd (by simp [ofString, ofChars]) hl
  · rintro ⟨first, after, rfl, hfirst, h⟩
    exact .anyName first hstar hfirst h

theorem matches_anyLetter_iff : Matches (.char '?' :: rest) text ↔
    MatchesAfter (fun first => ∃ l, first = [l]) rest text := by
  constructor
  · intro h
    cases h with
    | anyLetter l h => exact ⟨[l], _, rfl, ⟨l, rfl⟩, h⟩
    | letter hl => exact absurd (by simp [ofString, ofChars]) hl
  · rintro ⟨first, after, rfl, ⟨l, rfl⟩, h⟩
    exact .anyLetter l h

theorem matches_letter_iff (hl : l ∉ ("*?\x7b\x7d" : Text)) :
    Matches (l :: rest) text ↔ MatchesAfter (· = [l]) rest text := by
  constructor
  · intro h
    cases h with
    | letter _ h => exact ⟨[l], _, rfl, rfl, h⟩
    | _ => exact absurd (by simp [ofString, ofChars]) hl
  · rintro ⟨first, after, rfl, rfl, h⟩
    exact .letter hl h

theorem matches_plain_iff (h : ∀ l ∈ plain, l ∉ ("*?\x7b\x7d" : Text)) :
    Matches plain text ↔ text = plain := by
  induction plain generalizing text with
  | nil => exact matches_nil_iff
  | cons l plain ih =>
    rw [matches_letter_iff (h l mem_cons_self)]
    constructor
    · rintro ⟨first, after, rfl, rfl, hafter⟩
      rw [(ih fun l hl => h l (mem_cons_of_mem _ hl)).mp hafter, singleton_append]
    · rintro rfl
      exact ⟨[l], plain, rfl, rfl, (ih fun l hl => h l (mem_cons_of_mem _ hl)).mpr rfl⟩

theorem matches_group_iff (hne : inside ≠ []) (hclose : .char '\x7d' ∉ inside) :
    Matches (.char '\x7b' :: (inside ++ .char '\x7d' :: rest)) text ↔
      MatchesAfter (fun first => ∃ alternative ∈ Text.splitOn ',' inside, Matches alternative first)
        rest text := by
  constructor
  · intro h
    generalize hpattern : Letter.char '\x7b' :: (inside ++ .char '\x7d' :: rest) = pattern at h
    cases h with
    | group hne' hclose' hmem hfirst h =>
      -- braces close at the first closing one
      have hparts : group? (.char '\x7b') (inside ++ .char '\x7d' :: rest) = some (inside, rest) :=
        group?_eq hne hclose
      rw [(List.cons.inj hpattern).2, group?_eq hne' hclose'] at hparts
      cases hparts
      exact ⟨_, _, rfl, ⟨_, hmem, hfirst⟩, h⟩
    | letter hl =>
      obtain ⟨rfl, -⟩ := List.cons.inj hpattern
      exact absurd (by simp [ofString, ofChars]) hl
    | nil => cases hpattern
    | _ => cases (List.cons.inj hpattern).1
  · rintro ⟨first, after, rfl, ⟨alternative, hmem, hfirst⟩, h⟩
    exact .group hne hclose hmem hfirst h

end Matching

theorem infix_of_mem_splitOn
    (h : alternative ∈ Text.splitOn ',' inside) : alternative <:+: inside := by
  have hjoin : Text.intercalate "," (Text.splitOn ',' inside) = inside :=
    intercalate_splitOn (Letter.char ',')
  exact hjoin ▸ infix_intercalate "," h

section Regex

variable {inside : Text} {l : Letter}

theorem regex_nil : regex [] = [] := by simp [regex, parts]

theorem regex_anyText : regex (.char '*' :: .char '*' :: rest) = ".*" ++ regex rest := by
  simp [regex, parts, Part.regex, Step.regex]

theorem group?_of_ne (hl : l ≠ .char '\x7b') (text : Text) : group? l text = none := if_neg hl

theorem regex_letter (hbrace : l ≠ .char '\x7b')
    (hstar : l = .char '*' → rest.head? ≠ some (.char '*')) :
    regex (l :: rest) = (Step.ofLetter l).regex ++ regex rest := by
  rw [regex, parts]
  · split
    next h => simp [group?_of_ne hbrace] at h
    next => rfl
  · rintro after rfl rfl
    exact hstar rfl rfl

/-- Without braces, a pattern and an alternative are read alike. -/
theorem parts_eq_steps (text : Text) (h : .char '\x7b' ∉ text) :
    parts text = (steps text).map .step := by
  fun_induction steps text with
  | case1 => simp [parts]
  | case2 rest ih => simp_all [parts]
  | case3 l rest hstar ih =>
    simp only [mem_cons, not_or] at h
    rw [parts]
    · split
      next hgroup => simp [group?_of_ne (Ne.symm h.1)] at hgroup
      next => rw [ih h.2, map_cons]
    · rintro after rfl rfl
      exact hstar _ rfl rfl

theorem flatMap_steps (text : Text) (h : .char '\x7b' ∉ text) :
    (steps text).flatMap Step.regex = regex text := by
  rw [regex, parts_eq_steps text h, flatMap_map]
  rfl

theorem regex_group (hne : inside ≠ []) (hopen : .char '\x7b' ∉ inside)
    (hclose : .char '\x7d' ∉ inside) :
    regex (.char '\x7b' :: (inside ++ .char '\x7d' :: rest)) =
      "(" ++ Text.intercalate "|" ((Text.splitOn ',' inside).map regex) ++ ")" ++ regex rest := by
  have hmap : ((Text.splitOn ',' inside).map steps).map (·.flatMap Step.regex) =
      (Text.splitOn ',' inside).map regex := by
    rw [map_map]
    exact map_congr_left fun alternative hmem => flatMap_steps _ fun hbrace =>
      hopen ((infix_of_mem_splitOn hmem).subset hbrace)
  rw [regex, parts]
  · split
    next inside' after h =>
      rw [group?_eq hne hclose] at h
      cases h
      rw [flatMap_cons, Part.regex, hmap]
      rfl
    next h =>
      rw [group?_eq hne hclose] at h
      cases h
  · rintro after h
    cases h

end Regex

open Ere (Denotes)

/-- The texts matched by an expression are those matched by a pattern. Texts with line breaks are
left out, since a search looks at one line. -/
def Agrees (matched : Language Letter) (pattern : Text) : Prop :=
  ∀ text : Text, .char '\n' ∉ text → (text ∈ matched ↔ Matches pattern text)

theorem Agrees.mul {matched others : Language Letter}
    (hmatched : ∀ text, .char '\n' ∉ text → (text ∈ matched ↔ p text)) (hrest : Agrees others rest)
    (hpattern : ∀ text, Matches pattern text ↔ MatchesAfter p rest text) :
    Agrees (matched * others) pattern := by
  intro text htext
  rw [Language.mem_mul, hpattern]
  constructor
  · rintro ⟨first, hfirst, after, hafter, rfl⟩
    rw [mem_append, not_or] at htext
    exact ⟨first, after, rfl, (hmatched _ htext.1).mp hfirst, (hrest _ htext.2).mp hafter⟩
  · rintro ⟨first, after, rfl, hfirst, hafter⟩
    rw [mem_append, not_or] at htext
    exact ⟨first, (hmatched _ htext.1).mpr hfirst, after, (hrest _ htext.2).mpr hafter, rfl⟩

/-- The expression of a pattern denotes texts that the pattern matches. -/
def IsSound (pattern : Text) : Prop :=
  ∃ matched, Denotes (regex pattern) matched ∧ Agrees matched pattern

section Sound

variable {inside : Text} {l : Letter}

theorem isSound_nil : IsSound [] := by
  refine ⟨1, by rw [regex_nil]; exact .nil, fun text _ => ?_⟩
  rw [Language.mem_one, matches_nil_iff]

theorem IsSound.anyText (h : IsSound rest) : IsSound (.char '*' :: .char '*' :: rest) := by
  obtain ⟨others, hdenotes, hagrees⟩ := h
  refine ⟨_, by rw [regex_anyText]; exact Denotes.anyStar.append hdenotes,
    .mul (fun text htext => ?_) hagrees fun _ => matches_anyText_iff⟩
  rw [Ere.mem_anyStar_iff]
  simp [htext]

theorem IsSound.anyName (h : IsSound rest) (hstar : rest.head? ≠ some (.char '*')) :
    IsSound (.char '*' :: rest) := by
  obtain ⟨others, hdenotes, hagrees⟩ := h
  have hregex : regex (.char '*' :: rest) = "[^/]*" ++ regex rest :=
    regex_letter (by decide) fun _ => hstar
  refine ⟨_, by rw [hregex]; exact Denotes.noSlashStar.append hdenotes,
    .mul (fun text _ => Ere.mem_noneOfStar_iff) hagrees fun _ => matches_anyName_iff hstar⟩

theorem IsSound.anyLetter (h : IsSound rest) : IsSound (.char '?' :: rest) := by
  obtain ⟨others, hdenotes, hagrees⟩ := h
  have hregex : regex (.char '?' :: rest) = "." ++ regex rest := regex_letter (by decide) nofun
  refine ⟨_, by rw [hregex]; exact Denotes.any.append hdenotes,
    .mul (fun text htext => ?_) hagrees fun _ => matches_anyLetter_iff⟩
  constructor
  · rintro ⟨l, -, rfl⟩
    exact ⟨l, rfl⟩
  · rintro ⟨l, rfl⟩
    exact ⟨l, fun heq => htext (heq ▸ mem_singleton_self _), rfl⟩

theorem ofLetter_eq (hstar : l ≠ .char '*') (hquestion : l ≠ .char '?') :
    Step.ofLetter l = .letter l := by
  unfold Step.ofLetter
  split
  · exact absurd rfl hstar
  · exact absurd rfl hquestion
  · rfl

theorem IsSound.letter (h : IsSound rest) (hl : l ∉ reserved) (hstar : l ≠ .char '*')
    (hquestion : l ≠ .char '?') : IsSound (l :: rest) := by
  obtain ⟨others, hdenotes, hagrees⟩ := h
  have hbraces : l ∉ ("*?\x7b\x7d" : Text) := by
    simp_all [reserved, ofString, ofChars]
  have hbrace : l ≠ .char '\x7b' := by
    rintro rfl
    exact hbraces (by simp [ofString, ofChars])
  have hletter : Denotes (Step.letter l).regex {[l]} := by
    rw [Step.regex]
    split
    next hdot =>
      rw [hdot]
      exact Denotes.escaped (l := .char '.') (by simp [Ere.special, ofString, ofChars])
    next =>
      exact Denotes.letter (by simp_all [reserved, Ere.special, ofString, ofChars])
  refine ⟨{[l]} * others, ?_, .mul (fun _ _ => Iff.rfl) hagrees fun _ => matches_letter_iff hbraces⟩
  rw [regex_letter hbrace fun heq => absurd heq hstar, ofLetter_eq hstar hquestion]
  exact hletter.append hdenotes

theorem braces_not_mem (h : ∀ l ∈ inside, l ∉ reserved) :
    .char '\x7b' ∉ inside ∧ .char '\x7d' ∉ inside :=
  ⟨fun hmem => h _ hmem (by simp [reserved, ofString, ofChars]),
    fun hmem => h _ hmem (by simp [reserved, ofString, ofChars])⟩

theorem IsSound.group (h : IsSound rest) (hne : inside ≠ []) (hinside : ∀ l ∈ inside, l ∉ reserved)
    (halternatives : ∀ alternative ∈ Text.splitOn ',' inside, IsSound alternative) :
    IsSound (.char '\x7b' :: (inside ++ .char '\x7d' :: rest)) := by
  obtain ⟨others, hdenotes, hagrees⟩ := h
  obtain ⟨hopen, hclose⟩ := braces_not_mem hinside
  choose! each heach using halternatives
  have hall : Forall₂ Denotes ((Text.splitOn ',' inside).map regex)
      ((Text.splitOn ',' inside).map each) := by
    rw [forall₂_map_left_iff, forall₂_map_right_iff, forall₂_same]
    exact fun alternative hmem => (heach alternative hmem).1
  have hsome : (Text.splitOn ',' inside).map regex ≠ [] := fun hnil =>
    splitOn_ne_nil _ inside (map_eq_nil_iff.mp hnil)
  refine ⟨((Text.splitOn ',' inside).map each).sum * others, ?_,
    .mul (fun text htext => ?_) hagrees fun _ => matches_group_iff hne hclose⟩
  · rw [regex_group hne hopen hclose]
    exact (Denotes.group hsome hall).append hdenotes
  · simp only [Ere.mem_sum_iff, mem_map, exists_exists_and_eq_and]
    exact exists_congr fun alternative => and_congr_right fun hmem =>
      (heach alternative hmem).2 text htext

end Sound

theorem IsPattern.append_plain (h : ∀ l ∈ text, l ∉ reserved)
    (hrest : IsPattern rest) : IsPattern (text ++ rest) := by
  induction text with
  | nil => exact hrest
  | cons l text ih =>
    exact .letter (h l mem_cons_self) (ih fun l hl => h l (mem_cons_of_mem _ hl))

/-- A pattern is read by its first letters, and a group by its alternatives, which are shorter than
the group. This is the induction for all that is said of patterns. -/
theorem IsPattern.by_first_letters (nil : p [])
    (anyText : ∀ rest, p rest → p (.char '*' :: .char '*' :: rest))
    (anyName : ∀ rest, rest.head? ≠ some (.char '*') → p rest → p (.char '*' :: rest))
    (anyLetter : ∀ rest, p rest → p (.char '?' :: rest))
    (letter : ∀ l rest, l ∉ reserved → l ≠ .char '*' → l ≠ .char '?' → p rest → p (l :: rest))
    (group : ∀ inside rest, inside ≠ [] → (∀ l ∈ inside, l ∉ reserved) →
      (∀ alternative ∈ Text.splitOn ',' inside, p alternative) → p rest →
      p (.char '\x7b' :: (inside ++ .char '\x7d' :: rest)))
    (h : IsPattern pattern) : p pattern := by
  -- an alternative is shorter than the group it stands in
  induction hlength : pattern.length using Nat.strong_induction_on generalizing pattern with
  | _ n ih =>
  subst hlength
  cases h with
  | nil => exact nil
  | @letter l rest hl hrest =>
    have hp := ih _ (Nat.lt_succ_self _) hrest rfl
    by_cases hstar : l = .char '*'
    · subst hstar
      by_cases hhead : rest.head? = some (.char '*')
      · obtain ⟨after, rfl⟩ := head?_eq_some_iff.mp hhead
        cases hrest with
        | letter _ hafter =>
          exact anyText _ (ih _ (by simp only [length_cons]; omega) hafter rfl)
      · exact anyName _ hhead hp
    · by_cases hquestion : l = .char '?'
      · subst hquestion
        exact anyLetter _ hp
      · exact letter _ _ hl hstar hquestion hp
  | @group inside rest hne hinside hrest =>
    refine group _ _ hne hinside (fun alternative hmem => ?_) (ih _ (by simp; omega) hrest rfl)
    have hpart := infix_of_mem_splitOn hmem
    have hplain : ∀ l ∈ alternative, l ∉ reserved := fun l hl => hinside l (hpart.subset hl)
    have hshorter := hpart.length_le
    have hpattern := IsPattern.append_plain hplain .nil
    rw [append_nil] at hpattern
    exact ih _ (by simp; omega) hpattern rfl

theorem isSound_of_isPattern (h : IsPattern pattern) : IsSound pattern :=
  h.by_first_letters isSound_nil (fun _ hrest => hrest.anyText)
    (fun _ hstar hrest => hrest.anyName hstar) (fun _ hrest => hrest.anyLetter)
    (fun _ _ hl hstar hquestion hrest => hrest.letter hl hstar hquestion)
    (fun _ _ hne hinside halternatives hrest => hrest.group hne hinside halternatives)

/-- The regular expression of a pattern can be read, and it matches a text without line breaks as a
whole exactly if the pattern does. -/
theorem regex_preserves_meaning {pattern : Text} (h : IsPattern pattern) :
    ∃ e, Ere.ofText? (regex pattern) = some e ∧
      ∀ text : Text, .char '\n' ∉ text → (text ∈ e.language ↔ Matches pattern text) := by
  obtain ⟨matched, hdenotes, hagrees⟩ := isSound_of_isPattern h
  obtain ⟨e, he, hlanguage⟩ := hdenotes.exists_ofText?
  exact ⟨e, he, fun text htext => hlanguage ▸ hagrees text htext⟩

/-- Three stars, a dot, and braces with an empty alternative: the stars pair from the left, so that
the third one may not pass the slash. -/
theorem regex_preserves_meaning_of_stars :
    ∃ e, Ere.ofText? (regex "***.\x7bt?,,.x*\x7d") = some e ∧ ("a/b..xy" : Text) ∈ e.language := by
  have hplain : ∀ text ∈ (["***.", "t?,,.x*"] : List Text), ∀ l ∈ text, l ∉ reserved := by
    simp [reserved, Text.ofString, Text.ofChars]
  have hgroup : IsPattern (.char '\x7b' :: (("t?,,.x*" : Text) ++ [.char '\x7d'])) :=
    .group (by simp [Text.ofString, Text.ofChars]) (hplain _ (by simp)) .nil
  have hstars : IsPattern "***.\x7bt?,,.x*\x7d" := hgroup.append_plain (hplain "***." (by simp))
  obtain ⟨e, he, hmatches⟩ := regex_preserves_meaning hstars
  refine ⟨e, he, (hmatches _ (by simp [Text.ofString, Text.ofChars])).mpr ?_⟩
  have hself (l : Letter) (h : l ∈ [Letter.char '.', .char 'x']) : l ∉ ("*?\x7b\x7d" : Text) := by
    simp only [List.mem_cons, List.not_mem_nil, or_false] at h
    rcases h with rfl | rfl <;> simp [Text.ofString, Text.ofChars]
  have hinside : Matches ".x*" ".xy" :=
    .letter (hself '.' (by simp)) (.letter (hself 'x' (by simp))
      (.anyName ['y'] (by decide) (by simp) .nil))
  have hmem : (".x*" : Text) ∈ Text.splitOn ',' "t?,,.x*" := by decide
  have hgroup : Matches (.char '\x7b' :: (("t?,,.x*" : Text) ++ [.char '\x7d']))
      ((".xy" : Text) ++ []) :=
    .group (by simp [Text.ofString, Text.ofChars]) (by simp [Text.ofString, Text.ofChars]) hmem
      hinside .nil
  exact .anyText "a/" (.anyName ['b'] (by decide) (by simp) (.letter (hself '.' (by simp)) hgroup))

end AgentConfig.Glob
