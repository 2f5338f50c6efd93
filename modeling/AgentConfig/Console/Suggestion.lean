import AgentConfig.Text.Quoted

namespace AgentConfig.Suggestion

/-- A run of letters that two texts share: where it starts in each, and its length. -/
structure Run where
  left : Nat := 0
  right : Nat := 0
  length : Nat := 0
  deriving DecidableEq, Repr

def commonStart : Text → Text → Nat
  | a :: as, b :: bs => if a = b then commonStart as bs + 1 else 0
  | _, _ => 0

/-- The longest common run; of several the leftmost in `a`, and then in `b`. -/
def longestRun (a b : Text) : Run :=
  let runs := (List.range a.length).flatMap fun i => (List.range b.length).map fun j =>
    (⟨i, j, commonStart (a.drop i) (b.drop j)⟩ : Run)
  runs.foldl (fun best run => if best.length < run.length then run else best) {}

def common (a b : Text) : Nat :=
  match longestRun a b with
  | ⟨i, j, n⟩ =>
    if _h : 0 < n ∧ i < a.length then
      common (a.take i) (b.take j) + n + common (a.drop (i + n)) (b.drop (j + n))
    else 0
termination_by a.length
decreasing_by
  · simp only [List.length_take]
    omega
  · simp only [List.length_drop]
    omega

/-- A name with the letters it has in common with a word, and the letters of both. -/
structure Score where
  name : Text
  common : Nat
  total : Nat
  deriving DecidableEq, Repr

def Score.of (word name : Text) : Score :=
  ⟨name, Suggestion.common name word, name.length + word.length⟩

def Score.isClose (s : Score) : Bool := 3 * s.total ≤ 10 * s.common

/-- The better of two scores comes first; of equals the later name. -/
def Score.le (s t : Score) : Bool :=
  if s.common * t.total = t.common * s.total then Text.le t.name s.name
  else t.common * s.total < s.common * t.total

/-- The names that are close to a word, the three best at most, in the order of the names. -/
def closest (word : Text) (names : List Text) : List Text :=
  let close := (names.map (Score.of word)).filter Score.isClose
  Text.sort (((close.mergeSort Score.le).take 3).map (·.name))

def note (word : Text) (names : List Text) : Text :=
  match closest word names with
  | [] => []
  | [name] => " Did you mean " ++ Text.quoted name ++ "?"
  | several => " (Did you mean one of: " ++ Text.intercalate ", " (several.map Text.quoted) ++ "?)"

end AgentConfig.Suggestion
