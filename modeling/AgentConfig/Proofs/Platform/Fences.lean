import AgentConfig.Platform.Section
import AgentConfig.Proofs.Text.Find
import Mathlib.Logic.Function.Iterate

namespace AgentConfig.Section

open List Text

variable {content : Text}

theorem replicate_infix_run {run n : Nat} {text : Text} :
    replicate n backtick <:+: replicate run backtick ++ text ↔ n ≤ longestRun run text := by
  induction text generalizing run with
  | nil => simp [infix_replicate_iff, longestRun]
  | cons l text ih =>
    rw [longestRun]
    split
    next hl => rw [hl, append_cons, ← replicate_succ', ih]
    next hl =>
      have hnot : l ∉ replicate n backtick := fun hmem => hl (eq_of_mem_replicate hmem)
      have hafter : replicate n backtick <:+: text ↔ n ≤ longestRun 0 text := @ih 0
      have hbefore : replicate n backtick <:+: replicate run backtick ↔ n ≤ run := by
        simp [infix_replicate_iff]
      have hmax : n ≤ max run (longestRun 0 text) ↔ n ≤ run ∨ n ≤ longestRun 0 text := by omega
      rw [hmax, ← hafter, ← hbefore]
      constructor
      · exact infix_append_cons hnot
      · rintro (h | h)
        · exact h.trans (prefix_append _ _).isInfix
        · exact h.trans ((suffix_cons l text).trans (suffix_append _ _)).isInfix

theorem replicate_infix_iff {n : Nat} :
    replicate n backtick <:+: content ↔ n ≤ longestRun 0 content :=
  @replicate_infix_run 0 n content

/-- One step of the search for a fence: a run that is in the content gets one letter more. -/
def widen (content run : Text) : Text :=
  if Text.includes content run then run ++ [backtick] else run

theorem widen_replicate (n : Nat) : widen content (replicate n backtick) =
      replicate (if n ≤ longestRun 0 content then n + 1 else n) backtick := by
  simp only [widen, includes_iff, replicate_infix_iff]
  split
  · exact replicate_succ'.symm
  · rfl

theorem iterate_widen (steps : Nat) :
    (widen content)^[steps] "```" =
      replicate (max 3 (min (3 + steps) (longestRun 0 content + 1))) backtick := by
  induction steps with
  | zero =>
    have hstart : max 3 (min (3 + 0) (longestRun 0 content + 1)) = 3 := by omega
    rw [hstart]
    rfl
  | succ steps ih =>
    rw [Function.iterate_succ_apply', ih, widen_replicate]
    congr 1
    split <;> omega

theorem fence_eq (content : Text) :
    fence content = replicate (max 2 (longestRun 0 content) + 1) backtick := by
  rw [fence]
  congr 1
  omega

theorem not_infix_fence (content : Text) : ¬ fence content <:+: content := by
  rw [fence, replicate_infix_iff]
  omega

theorem eq_of_run_append {n : Nat} {inside start rest : Text}
    (hinside : ¬ replicate (n + 1) backtick <:+: inside)
    (h : inside ++ "\n" ++ replicate (n + 1) backtick =
      start ++ replicate (n + 1) backtick ++ rest) :
    start = inside ++ "\n" ∧ rest = [] := by
  rcases eq_nil_or_concat rest with rfl | ⟨rest, l, rfl⟩
  · rw [append_nil] at h
    exact ⟨(append_cancel_right h).symm, rfl⟩
  -- without its last letter the run below is too short
  have hbreak : .char '\n' ∉ replicate (n + 1) backtick := fun hmem =>
    absurd (eq_of_mem_replicate hmem) (by decide)
  rw [replicate_succ', ← append_assoc, ← replicate_succ', concat_eq_append, ← append_assoc] at h
  have hshort : inside ++ .char '\n' :: replicate n backtick =
      start ++ replicate (n + 1) backtick ++ rest := by
    rw [← (append_inj' h rfl).1, append_assoc]
    rfl
  refine absurd ⟨start, rest, hshort.symm⟩ (not_infix_append_cons hbreak hinside fun h => ?_)
  exact absurd h.length_le (by simp)

/-- The lines of a page above the opening line of a file. -/
def linesAbove (before : List Skill) (s : Skill) (earlier : List (Text × Text)) (path : Text) :
    List Text :=
  let page : List Text := ["## Skills", ""]
  let skill : List Text := ["### " ++ s.name, ""]
  let file : List Text := ["", "#### " ++ path, ""]
  page ++ before.flatMap (fun s => skillBlock s ++ [[]]) ++ skill ++ paragraph s.description ++
    [s.content] ++ earlier.flatMap (fun (path, content) => fileBlock path content) ++ file

/-- What a page has below a line: nothing, or more lines. -/
def IsBelow (below : Text) : Prop := below = [] ∨ below.head? = some (.char '\n')

theorem isBelow_trimEnd (lines : List Text) :
    IsBelow (trimEnd (lines.flatMap ("\n" ++ ·))) := by
  have hprefix : trimEnd (lines.flatMap ("\n" ++ ·)) <+: _ := rdropWhile_prefix _ _
  cases hbelow : trimEnd (lines.flatMap ("\n" ++ ·)) with
  | nil => exact .inl rfl
  | cons l below =>
    rw [hbelow] at hprefix
    cases lines with
    | nil => exact absurd hprefix.length_le (by simp)
    | cons line lines => exact .inr (congrArg some (cons_prefix_cons.mp hprefix).1)

theorem exists_skills_eq {s : Skill} {path : Text} {earlier later : List (Text × Text)}
    (h : s.sortedFiles = earlier ++ (path, content) :: later) (before after : List Skill) :
    ∃ below, IsBelow below ∧ skills (before ++ s :: after) =
      Text.intercalate "\n" (linesAbove before s earlier path) ++ "\n" ++ fence content ++ "\n" ++
        dropEndWhile (· == .char '\n') content ++ "\n" ++ fence content ++ below := by
  let block := [fence content, dropEndWhile (· == .char '\n') content, fence content]
  let more := later.flatMap (fun file => fileBlock file.1 file.2) ++
    [] :: after.flatMap (fun s => skillBlock s ++ [[]])
  have hlines : skills (before ++ s :: after) = trimEnd
      (Text.intercalate "\n" (linesAbove before s earlier path ++ (block ++ more))) := by
    rw [skills, titled]
    congr 2
    simp [linesAbove, skillBlock, fileBlock, block, more, h, flatMap_map, ofString, ofChars]
  refine ⟨_, isBelow_trimEnd more, ?_⟩
  rw [hlines, intercalate_append _ (by simp [linesAbove]), flatMap_append, ← append_assoc,
    trimEnd_append]
  · simp [block]
  · -- the closing line does not end with a blank
    have hblank : isBlank backtick = false := by decide
    exact rdropWhile_eq_self_iff.mpr fun hne => by simp [block, fence_eq, hblank]

/-- The fence of a file is the shortest run of three or more backticks that is not in the file,
and widening a run of three finds it. On a page the block of each file starts and ends with a line
that is the fence, and what is between the two has no fence before the closing line. -/
theorem skill_files_stay_fenced (content : Text) :
    (∃ n, fence content = replicate n backtick ∧ 3 ≤ n ∧ ¬ fence content <:+: content ∧
        ∀ m, 3 ≤ m → m < n → replicate m backtick <:+: content) ∧
      (∀ steps, content.length ≤ steps → (widen content)^[steps] "```" = fence content) ∧
      ∀ (before after : List Skill) (s : Skill) (path : Text), (path, content) ∈ s.files →
        let inside := Text.dropEndWhile (· == .char '\n') content
        ∃ earlier later below,
          s.sortedFiles = earlier ++ (path, content) :: later ∧ IsBelow below ∧
          skills (before ++ s :: after) =
            Text.intercalate "\n" (linesAbove before s earlier path) ++ "\n" ++ fence content ++
              "\n" ++ inside ++ "\n" ++ fence content ++ below ∧
          ∀ start rest, inside ++ "\n" ++ fence content = start ++ fence content ++ rest →
            start = inside ++ "\n" ∧ rest = [] := by
  refine ⟨⟨_, rfl, Nat.le_max_left _ _, not_infix_fence content, fun m hthree hm => ?_⟩,
    fun steps hsteps => ?_, fun before after s path hfile => ?_⟩
  · exact replicate_infix_iff.mpr (by omega)
  · have hrun : replicate (longestRun 0 content) backtick <:+: content :=
      replicate_infix_iff.mpr (Nat.le_refl _)
    have hlength := hrun.length_le
    rw [length_replicate] at hlength
    rw [iterate_widen, fence]
    congr 1
    omega
  · obtain ⟨earlier, later, hsorted⟩ := append_of_mem (mem_mergeSort.mpr hfile)
    obtain ⟨below, hbelow, hskills⟩ := exists_skills_eq hsorted before after
    refine ⟨earlier, later, below, hsorted, hbelow, hskills, fun start rest => ?_⟩
    have hinside : ¬ fence content <:+: Text.dropEndWhile (· == .char '\n') content := by
      intro h
      have hstart := rdropWhile_prefix (· == .char '\n') content
      exact not_infix_fence content (h.trans hstart.isInfix)
    rw [fence_eq] at hinside ⊢
    exact eq_of_run_append hinside

theorem skill_files_stay_fenced_quote :
    ∃ above below, skills [⟨"s", "", "t", [("f", "```")]⟩] =
      above ++ "\n" ++ "````" ++ "\n" ++ "```" ++ "\n" ++ "````" ++ below := by
  obtain ⟨earlier, -, below, -, -, hskills, -⟩ :=
    (skill_files_stay_fenced "```").2.2 [] [] ⟨"s", "", "t", [("f", "```")]⟩ "f" mem_cons_self
  exact ⟨_, below, hskills⟩

end AgentConfig.Section
