import AgentConfig.Marker
import AgentConfig.Platform.Generated

namespace AgentConfig

def OutputFile.size (f : OutputFile) : Nat :=
  match f.ownership with
  | .full => (Marker.add f.path f.content).length
  | _ => f.content.length

structure RuleFile where
  rule : Rule
  file : OutputFile
  deriving DecidableEq, Repr

structure Budget where
  target : Text
  itemLimit : Int := 6000
  totalLimit : Int := 12000
  deriving DecidableEq, Repr

/-- The files that were kept, the complaints, and the characters taken. -/
structure Allocation where
  files : List OutputFile := []
  warnings : List Text := []
  total : Nat := 0
  deriving DecidableEq, Repr

namespace Budget

def oversizeWarning (b : Budget) (f : RuleFile) : Text :=
  "Rule \"" ++ f.rule.name ++ "\" is " ++ Text.ofNat f.file.size ++ " chars, exceeding " ++
    b.target ++ "'s " ++ Text.ofInt b.itemLimit ++
    "-char per-file limit. It will be truncated by " ++ b.target ++ "."

def droppingWarning (b : Budget) (f : RuleFile) (total : Nat) : Text :=
  "Dropping rule \"" ++ f.rule.name ++ "\" (priority: " ++ f.rule.priority.text ++
    "): would exceed " ++ b.target ++ "'s " ++ Text.ofInt b.totalLimit ++
    "-char total limit (current: " ++ Text.ofNat total ++ " chars)."

def overflowWarning (b : Budget) (f : OutputFile) : Text :=
  "Conventions file " ++ f.path ++ " (" ++ Text.ofNat f.size ++ " chars) would exceed " ++
    b.target ++
    "'s " ++ Text.ofInt b.totalLimit ++ "-char total limit. Some degraded content may be truncated."

def fits (b : Budget) (total size : Nat) : Bool := decide ((total + size : Int) ≤ b.totalLimit)

/-- One rule file after those already considered: too large a file is kept with a warning, one that
would pass the total limit is dropped with a warning. -/
def take (b : Budget) (a : Allocation) (f : RuleFile) : Allocation :=
  let size := f.file.size
  let warnings := a.warnings ++ if (size : Int) > b.itemLimit then [b.oversizeWarning f] else []
  if b.fits a.total size then ⟨a.files ++ [f.file], warnings, a.total + size⟩
  else { a with warnings := warnings ++ [b.droppingWarning f a.total] }

def byPriority (files : List RuleFile) : List RuleFile :=
  files.mergeSort fun a b => decide (a.rule.priority.rank ≤ b.rule.priority.rank)

/-- The file of folded guidance comes last and is always kept. -/
def takeAggregate (b : Budget) (a : Allocation) (f : OutputFile) : Allocation :=
  ⟨a.files ++ [f],
    a.warnings ++ (if b.fits a.total f.size then [] else [b.overflowWarning f]),
    a.total + f.size⟩

def allocate (b : Budget) (files : List RuleFile) (aggregate : Option OutputFile) : Allocation :=
  let rules := (byPriority files).foldl b.take {}
  match aggregate with
  | some f => b.takeAggregate rules f
  | none => rules

end Budget

def allocateAll (files : List RuleFile) (aggregate : Option OutputFile) : Allocation :=
  { files := files.map (·.file) ++ aggregate.toList }

end AgentConfig
