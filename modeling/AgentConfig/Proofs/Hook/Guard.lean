import AgentConfig.Hook.Command
import AgentConfig.Proofs.Hook.Glob

namespace AgentConfig

open List

variable {more text : Text}

namespace Shell

/-- Where the next letter of a word in double quotes stands. -/
inductive Position where
  | plain
  /-- Behind a backslash. -/
  | escaped
  /-- Behind a dollar sign. -/
  | parameter
  deriving DecidableEq, Repr

def push (letters : Text) : Text × Text → Text × Text
  | (word, rest) => (letters ++ word, rest)

/-- The word up to the closing quote and what follows it. A backslash is dropped before the letters
that would have a meaning, the first parameter stands for `value`, and other expansions are not
read. -/
def quotedFrom (value : Text) : Position → Text → Option (Text × Text)
  | _, [] => none
  | .plain, l :: rest =>
    if l = '"' then some ([], rest)
    else if l = '\\' then quotedFrom value .escaped rest
    else if l = '$' then quotedFrom value .parameter rest
    else if l = '\x60' then none
    else (quotedFrom value .plain rest).map (push [l])
  | .escaped, l :: rest =>
    (quotedFrom value .plain rest).map (push
      (if l ∈ ("\"\\$\x60" : Text) then [l] else if l = '\n' then [] else [.char '\\', l]))
  | .parameter, l :: rest =>
    if l = '1' then (quotedFrom value .plain rest).map (push value) else none

/-- A script that prints one word and searches it for another: both words, and what is run if the
search succeeds. -/
def search? (value script : Text) : Option (Text × Text × Text) := do
  let rest ← Text.stripPrefix? "echo \"" script
  let (printed, rest) ← quotedFrom value .plain rest
  let rest ← Text.stripPrefix? " | grep -qE \"" rest
  let (expression, rest) ← quotedFrom value .plain rest
  let rest ← Text.stripPrefix? " && " rest
  return (printed, expression, rest)

end Shell

namespace Ere

/-- An expression, and whether a match is held at the start or the end of the line. -/
structure Anchored where
  atStart : Bool
  expression : Ere
  atEnd : Bool

def Anchored.ofText? (text : Text) : Option Anchored :=
  let atStart := text.head? == some (.char '^')
  let text := if atStart then text.tail else text
  let atEnd := text.getLast? == some (.char '$')
  (Ere.ofText? (if atEnd then text.dropLast else text)).map (⟨atStart, ·, atEnd⟩)

/-- A search for the expression in the line succeeds: a part of the line matches, at the start or
the end of the line where the expression asks for that. -/
def Anchored.Finds (e : Anchored) (line : Text) : Prop :=
  ∃ before part after, line = before ++ part ++ after ∧ part ∈ e.expression.language ∧
    (e.atStart = true → before = []) ∧ (e.atEnd = true → after = [])

end Ere

/-- A script whose first parameter is `value` comes to `rest`, because the search before it
succeeds. Of a word, `echo` prints the line that it is given for. -/
def Shell.Reaches (echo : Text → Text) (value script rest : Text) : Prop :=
  ∃ printed expression e, Shell.search? value script = some (printed, expression, rest) ∧
    Ere.Anchored.ofText? expression = some e ∧ e.Finds (echo printed)

namespace Shell

/-- A text that stands for itself in double quotes, has nothing that single quotes or a placeholder
would mistake, and holds no match at the ends of a line. -/
structure IsPlain (text : Text) : Prop where
  quoted (value rest : Text) :
    quotedFrom value .plain (text ++ rest) = (quotedFrom value .plain rest).map (push text)
  letters : ∀ l ∈ text, l ∉ ("'\x7b\x7d$" : Text)
  start : text.head? ≠ some (.char '^')

theorem push_append (letters more : Text) : push letters ∘ push more = push (letters ++ more) := by
  funext ⟨word, rest⟩
  simp [push]

theorem isPlain_nil : IsPlain [] where
  quoted value rest := by
    have hpush : push [] = id := funext fun ⟨_, _⟩ => rfl
    rw [nil_append, hpush, Option.map_id, id]
  letters := by simp
  start := by simp

theorem IsPlain.append (h : IsPlain text) (hmore : IsPlain more) :
    IsPlain (text ++ more) where
  quoted value rest := by
    rw [append_assoc, h.quoted, hmore.quoted, Option.map_map, push_append]
  letters l hl := (mem_append.mp hl).elim (h.letters l) (hmore.letters l)
  start := by
    cases text with
    | nil => exact hmore.start
    | cons l text => exact h.start

theorem isPlain_of_letters (h : ∀ l ∈ text, l ∉ ("\"'\x60\\$\x7b\x7d" : Text))
    (hstart : text.head? ≠ some (.char '^')) : IsPlain text where
  quoted value rest := by
    clear hstart
    induction text with
    | nil => exact isPlain_nil.quoted value rest
    | cons l text ih =>
      have hl := h l mem_cons_self
      simp only [Text.ofString, Text.ofChars, String.reduceToList, map_cons, map_nil,
        mem_cons, not_mem_nil, or_false, not_or] at hl
      have hmore := ih fun l hl => h l (mem_cons_of_mem _ hl)
      simp only [cons_append, quotedFrom, hl, if_false, hmore, Option.map_map, push_append,
        nil_append]
  letters l hl := by
    simp_all [Text.ofString, Text.ofChars]
  start := hstart

theorem IsPlain.intercalate {texts : List Text} (h : ∀ text ∈ texts, IsPlain text) :
    IsPlain (Text.intercalate "|" texts) := by
  have hbar : IsPlain "|" := isPlain_of_letters (by simp [Text.ofString, Text.ofChars]) (by decide)
  unfold Text.intercalate
  induction texts with
  | nil => exact isPlain_nil
  | cons text texts ih =>
    have htext := h text mem_cons_self
    cases texts with
    | nil => rwa [intercalate_singleton]
    | cons next texts =>
      rw [intercalate_cons_cons]
      exact (htext.append hbar).append (ih fun text hmem => h text (mem_cons_of_mem _ hmem))

end Shell

namespace Glob

open Shell (IsPlain isPlain_nil isPlain_of_letters)

theorem isPlain_letter {l : Letter} (hl : l ∉ reserved) (hquotes : l ∉ ("\"'\x60" : Text)) :
    IsPlain (Step.letter l).regex := by
  rw [Step.regex]
  split
  next =>
    refine ⟨fun value rest => ?_, by simp [Text.ofString, Text.ofChars], by decide⟩
    simp [Shell.quotedFrom, Text.ofString, Text.ofChars]
  next =>
    simp only [reserved, Text.ofString, Text.ofChars, String.reduceToList, map_cons,
      map_nil, mem_cons, not_mem_nil, or_false, not_or] at hquotes hl
    exact isPlain_of_letters (by simp [Text.ofString, Text.ofChars, hl, hquotes]) (by simp [hl])

theorem isPlain_wildcards :
    ∀ text ∈ ([".*", "[^/]*", ".", "(", ")"] : List Text), IsPlain text := by
  intro text htext
  simp only [mem_cons, not_mem_nil, or_false] at htext
  rcases htext with rfl | rfl | rfl | rfl | rfl <;>
    exact isPlain_of_letters (by simp [Text.ofString, Text.ofChars]) (by decide)

section

variable {pattern : Text} (h : IsPattern pattern) (hquotes : ∀ l ∈ pattern, l ∉ ("\"'\x60" : Text))
include h hquotes

theorem isPlain_regex : IsPlain (regex pattern) := by
  revert hquotes
  refine h.by_first_letters (p := fun pattern =>
    (∀ l ∈ pattern, l ∉ ("\"'\x60" : Text)) → IsPlain (regex pattern)) ?_ ?_ ?_ ?_ ?_ ?_
  · intro _
    rw [regex_nil]
    exact isPlain_nil
  · intro rest ih hquotes
    rw [regex_anyText]
    refine (isPlain_wildcards _ (by simp)).append (ih fun l hl => hquotes l ?_)
    exact mem_cons_of_mem _ (mem_cons_of_mem _ hl)
  · intro rest hstar ih hquotes
    rw [regex_letter (by decide) fun _ => hstar]
    exact (isPlain_wildcards "[^/]*" (by simp)).append
      (ih fun l hl => hquotes l (mem_cons_of_mem _ hl))
  · intro rest ih hquotes
    rw [regex_letter (l := .char '?') (by decide) nofun]
    exact (isPlain_wildcards "." (by simp)).append (ih fun l hl => hquotes l (mem_cons_of_mem _ hl))
  · intro l rest hl hstar hquestion ih hquotes
    have hbrace : l ≠ .char '\x7b' := by
      rintro rfl
      exact hl (by simp [reserved, Text.ofString, Text.ofChars])
    rw [regex_letter hbrace fun heq => absurd heq hstar, ofLetter_eq hstar hquestion]
    exact (isPlain_letter hl (hquotes l mem_cons_self)).append
      (ih fun l hl => hquotes l (mem_cons_of_mem _ hl))
  · intro inside rest hne hinside halternatives ih hquotes
    obtain ⟨hopen, hclose⟩ := braces_not_mem hinside
    rw [regex_group hne hopen hclose]
    have hall : ∀ text ∈ (Text.splitOn ',' inside).map regex, IsPlain text := by
      intro text htext
      obtain ⟨alternative, hmem, rfl⟩ := mem_map.mp htext
      refine halternatives alternative hmem fun l hl => hquotes l ?_
      simp [(infix_of_mem_splitOn hmem).subset hl]
    refine (((isPlain_wildcards "(" (by simp)).append (.intercalate hall)).append
      (isPlain_wildcards ")" (by simp))).append (ih fun l hl => hquotes l ?_)
    simp [hl]

/-- A search for the expression of a pattern finds the parts that the pattern matches, wherever in
the line they stand. -/
theorem finds_regex_iff :
    ∃ e, Ere.Anchored.ofText? (regex pattern) = some e ∧ ∀ line : Text, .char '\n' ∉ line →
      (e.Finds line ↔ ∃ part, part <:+: line ∧ Matches pattern part) := by
  have hplain := isPlain_regex h hquotes
  obtain ⟨matched, hdenotes, hagrees⟩ := isSound_of_isPattern h
  obtain ⟨e, he, rfl⟩ := hdenotes.exists_ofText?
  have hend : (regex pattern).getLast? ≠ some (.char '$') := fun hlast =>
    hplain.letters _ (mem_of_getLast? hlast) (by simp [Text.ofString, Text.ofChars])
  refine ⟨⟨false, e, false⟩, ?_, fun line hline => ?_⟩
  · simp [Ere.Anchored.ofText?, hplain.start, hend, he]
  constructor
  · rintro ⟨before, part, after, rfl, hpart, -⟩
    have hinside : part <:+: before ++ part ++ after := ⟨before, after, rfl⟩
    exact ⟨part, hinside, (hagrees part fun hmem => hline (hinside.subset hmem)).mp hpart⟩
  · rintro ⟨part, ⟨before, after, rfl⟩, hpart⟩
    have hinside : part <:+: before ++ part ++ after := ⟨before, after, rfl⟩
    exact ⟨before, part, after, rfl,
      (hagrees part fun hmem => hline (hinside.subset hmem)).mpr hpart, by simp, by simp⟩

end

end Glob

namespace Hook

variable {pattern path : Text}

theorem search?_guard (h : Shell.IsPlain (Glob.regex pattern)) (value run : Text) :
    Shell.search? value (guard pattern ++ run) = some (value, Glob.regex pattern, run) := by
  have hprinted (rest : Text) :
      Shell.quotedFrom value .plain (fileParameter ++ ("\" | grep -qE \"" ++ rest)) =
        some (value, " | grep -qE \"" ++ rest) := by
    simp [fileParameter, Shell.quotedFrom, Shell.push, Text.ofString, Text.ofChars]
  have hexpression (rest : Text) :
      Shell.quotedFrom value .plain (Glob.regex pattern ++ ("\" && " ++ rest)) =
        some (Glob.regex pattern, " && " ++ rest) := by
    rw [h.quoted]
    simp [Shell.quotedFrom, Shell.push, Text.ofString, Text.ofChars]
  simp only [Shell.search?, guard, append_assoc, Text.stripPrefix?_append, hprinted,
    hexpression, Option.bind_eq_bind, Option.bind_some, Option.pure_def]

theorem exists_command {hook : Hook} (hglob : hook.glob = some pattern)
    (hne : pattern ≠ []) : ∃ run, hook.command = withFile (guard pattern ++ run) := by
  have hsome : pattern.isEmpty = false := by simpa using hne
  unfold command
  simp only [hglob, hsome]
  split
  · exact ⟨_, rfl⟩
  · exact ⟨_, rfl⟩

theorem reaches_guard_iff (h : Glob.IsPattern pattern)
    (hquotes : ∀ l ∈ pattern, l ∉ ("\"'\x60" : Text)) {echo : Text → Text}
    (hline : .char '\n' ∉ path) (hecho : echo path = path) (run : Text) :
    Shell.Reaches echo path (guard pattern ++ run) run ↔
      ∃ part, part <:+: path ∧ Glob.Matches pattern part := by
  obtain ⟨e, he, hfinds⟩ := Glob.finds_regex_iff h hquotes
  have hsearch := search?_guard (Glob.isPlain_regex h hquotes) path run
  rw [← hfinds path hline]
  constructor
  · rintro ⟨printed, expression, found, hsearch', hexpression, hfound⟩
    rw [hsearch] at hsearch'
    cases hsearch'
    rw [he] at hexpression
    cases hexpression
    rwa [hecho] at hfound
  · intro hfound
    exact ⟨path, Glob.regex pattern, e, hsearch, he, by rwa [hecho]⟩

/-- A guarded command starts with its guard, which both shells read as it is written. With a path of
one line as the first parameter, and an `echo` that prints it, the guard passes exactly if some part
of the path matches the pattern. -/
theorem guard_passes_by_matching_part {hook : Hook} {pattern : Text}
    (hglob : hook.glob = some pattern) (hne : pattern ≠ []) (h : Glob.IsPattern pattern)
    (hquotes : ∀ l ∈ pattern, l ∉ ("\"'\x60" : Text)) :
    ∃ run, hook.command = withFile (guard pattern ++ run) ∧
      (∀ l ∈ guard pattern, l ∉ ("'\x7b\x7d" : Text)) ∧
      ∀ (echo : Text → Text) (path : Text), .char '\n' ∉ path → echo path = path →
        (Shell.Reaches echo path (guard pattern ++ run) run ↔
          ∃ part, part <:+: path ∧ Glob.Matches pattern part) := by
  obtain ⟨run, hcommand⟩ := exists_command hglob hne
  refine ⟨run, hcommand, fun l hl => ?_, fun echo path hline hecho =>
    reaches_guard_iff h hquotes hline hecho run⟩
  have hregex := (Glob.isPlain_regex h hquotes).letters
  simp only [guard, fileParameter, List.mem_append] at hl
  rcases hl with (((hl | hl) | hl) | hl) | hl
  case inl.inr =>
    have := hregex l hl
    simp_all [Text.ofString, Text.ofChars]
  all_goals
    revert l
    simp [Text.ofString, Text.ofChars]

theorem isPattern_of_plain (h : ∀ l ∈ pattern, l ∉ Glob.reserved) : Glob.IsPattern pattern := by
  have hpattern := Glob.IsPattern.append_plain h .nil
  rwa [append_nil] at hpattern

/-- The pattern stands for names without a slash, but a file of a directory passes. -/
theorem guard_passes_by_matching_part_in_directory :
    ∃ (hook : Hook) (run : Text), hook.glob = some "*.js" ∧
      hook.command = withFile (guard "*.js" ++ run) ∧
      Shell.Reaches id "lib/a.js" (guard "*.js" ++ run) run := by
  have hplain : ∀ l ∈ ("*.js" : Text), l ∉ Glob.reserved := by
    simp [Glob.reserved, Text.ofString, Text.ofChars]
  have hending : Glob.Matches ".js" ".js" :=
    (Glob.matches_plain_iff (by simp [Text.ofString, Text.ofChars])).mpr rfl
  let hook : Hook := { event := .postCreate, run := "eslint .", glob := some "*.js" }
  have hglob : hook.glob = some "*.js" := rfl
  obtain ⟨run, hcommand, -, hpasses⟩ := guard_passes_by_matching_part hglob (by decide)
    (isPattern_of_plain hplain) (by simp [Text.ofString, Text.ofChars])
  refine ⟨hook, run, hglob, hcommand, (hpasses id "lib/a.js" (by decide) rfl).mpr ?_⟩
  exact ⟨"a.js", ⟨"lib/", "", by decide⟩, .anyName "a" (by decide) (by decide) hending⟩

/-- The guard for TypeScript files passes a file of another kind, which the pattern does not match:
its name goes on behind a part that does. -/
theorem guard_passes_longer_ending :
    ∃ (hook : Hook) (run : Text), hook.glob = some "**/*.ts" ∧
      hook.command = withFile (guard "**/*.ts" ++ run) ∧
      Shell.Reaches id "src/main.tsx" (guard "**/*.ts" ++ run) run ∧
      ¬ Glob.Matches "**/*.ts" "src/main.tsx" := by
  have hplain : ∀ l ∈ ("**/*.ts" : Text), l ∉ Glob.reserved := by
    simp [Glob.reserved, Text.ofString, Text.ofChars]
  have hslash : Letter.char '/' ∉ ("*?\x7b\x7d" : Text) := by decide
  have hending {text : Text} : Glob.Matches ".ts" text ↔ text = ".ts" :=
    Glob.matches_plain_iff (by simp [Text.ofString, Text.ofChars])
  let hook : Hook :=
    { event := .postEdit, run := "prettier --write \x7bfile\x7d", glob := some "**/*.ts" }
  have hglob : hook.glob = some "**/*.ts" := rfl
  obtain ⟨run, hcommand⟩ := exists_command hglob (by decide)
  refine ⟨hook, run, hglob, hcommand, ?_, fun hmatches => ?_⟩
  · refine (reaches_guard_iff (isPattern_of_plain hplain) (by simp [Text.ofString, Text.ofChars])
      (by decide) rfl run).mpr ⟨"src/main.ts", ⟨"", "x", by decide⟩, ?_⟩
    exact .anyText "src"
      (.letter hslash (.anyName "main" (by decide) (by decide) (hending.mpr rfl)))
  · change Glob.Matches (.char '*' :: .char '*' :: .char '/' :: .char '*' :: ".ts") _ at hmatches
    obtain ⟨first, after, hpath, -, hafter⟩ := Glob.matches_anyText_iff.mp hmatches
    obtain ⟨slash, after, rfl, rfl, hname⟩ := (Glob.matches_letter_iff hslash).mp hafter
    obtain ⟨name, ending, rfl, -, hts⟩ := (Glob.matches_anyName_iff (by decide)).mp hname
    -- the last letters differ
    have hlast := congrArg List.getLast? hpath
    rw [hending.mp hts, List.getLast?_append, List.getLast?_append, List.getLast?_append] at hlast
    simp [Text.ofString, Text.ofChars] at hlast

end Hook

end AgentConfig
