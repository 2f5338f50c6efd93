import AgentConfig.Text.Basic

namespace AgentConfig.Glob

inductive Step where
  | anyText
  | anyName
  | anyLetter
  | letter (l : Letter)
  deriving DecidableEq, Repr

inductive Part where
  | step (s : Step)
  | group (alternatives : List (List Step))
  deriving DecidableEq, Repr

def Step.ofLetter : Letter → Step
  | .char '*' => .anyName
  | .char '?' => .anyLetter
  | l => .letter l

def steps : Text → List Step
  | [] => []
  | .char '*' :: .char '*' :: rest => .anyText :: steps rest
  | l :: rest => Step.ofLetter l :: steps rest

/-- The text inside a pair of braces, whose opening brace is `l`, and what follows the closing one.
Empty braces form no group. -/
def group? (l : Letter) (text : Text) : Option (Text × Text) :=
  if l = '\x7b' then
    match text.takeWhile (· != .char '\x7d'), text.dropWhile (· != .char '\x7d') with
    | inside@(_ :: _), _ :: after => some (inside, after)
    | _, _ => none
  else none

theorem length_of_group? {l : Letter} {text inside after : Text}
    (h : group? l text = some (inside, after)) : after.length < text.length := by
  have hlen := congrArg List.length
    (List.takeWhile_append_dropWhile (p := (· != Letter.char '\x7d')) (l := text))
  simp only [group?] at h
  split at h
  · split at h
    next hopen hclose =>
      simp only [Option.some.injEq, Prod.mk.injEq] at h
      rw [hclose] at hlen
      simp only [List.length_append, List.length_cons] at hlen
      have := congrArg List.length h.2
      omega
    next => simp at h
  · simp at h

def parts : Text → List Part
  | [] => []
  | .char '*' :: .char '*' :: rest => .step .anyText :: parts rest
  | l :: rest =>
    match h : group? l rest with
    | some (inside, after) =>
      have := length_of_group? h
      .group ((Text.splitOn ',' inside).map steps) :: parts after
    | none => .step (Step.ofLetter l) :: parts rest
termination_by text => text.length

def Step.regex : Step → Text
  | .anyText => ".*"
  | .anyName => "[^/]*"
  | .anyLetter => "."
  | .letter l => if l = '.' then "\\." else [l]

def Part.regex : Part → Text
  | .step s => s.regex
  | .group alternatives =>
    "(" ++ Text.intercalate "|" (alternatives.map (·.flatMap Step.regex)) ++ ")"

def regex (pattern : Text) : Text := (parts pattern).flatMap Part.regex

end AgentConfig.Glob
