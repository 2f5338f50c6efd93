import AgentConfig.Build
import AgentConfig.Console.Args
import AgentConfig.Console.Screen

namespace AgentConfig.Console

structure Printed where
  code : Nat := 0
  out : List Text := []
  err : List Text := []
  deriving DecidableEq, Repr

structure Environment where
  directory : List Text
  home : Text
  stamp : Text
  registry : Registry := Registry.default

/-- Whether a path text asks for a directory, by a slash or a dot at its end. -/
def asksForDirectory (text : Text) : Bool :=
  ((Text.splitOn '/' text).getLast?).any fun (name : Text) => name = "" || name = "."

inductive Refusal where
  | usage (error : UsageError)
  | failure (failure : Failure)
  deriving DecidableEq, Repr

def rootOf (env : Environment) (t : FileTree) (text : Text) : Except Refusal (List Text) :=
  let path := Path.join env.directory text
  match t.locate path with
  | .error .zeroInName => .error (.failure (.file .zeroInName text))
  | .error _ => .ok (Path.collapse path)
  | .ok location =>
    match t.get? location with
    | some (.file _) =>
      if asksForDirectory text then .ok (Path.collapse path) else .error (.usage (.rootIsFile text))
    | _ => .ok (Path.collapse path)

/-- The length of the code at the start of a text that would colour a terminal. -/
def colourCode? : Text → Option Nat
  | .char '\x1b' :: .char '[' :: rest =>
    let numbers := rest.takeWhile (Letter.is fun c => c == ';' || c == '?' || c.isDigit)
    if (rest[numbers.length]?).any (Letter.is Char.isAlpha) then some (numbers.length + 3) else none
  | _ => none

/-- Drops colour codes; `skip` counts the letters of one that are still to be dropped. -/
def dropColour : (skip : Nat) → Text → Text
  | _, [] => []
  | skip + 1, _ :: text => dropColour skip text
  | 0, l :: text =>
    match colourCode? (l :: text) with
    | some length => dropColour (length - 1) text
    | none => l :: dropColour 0 text

/-- A message is printed without the colours it may ask for. -/
def withoutColour (text : Text) : Text := dropColour 0 text

def printed (code : Nat) (t : FileTree) (screen : Screen) : Except Halt (Printed × FileTree) :=
  match screen.lines with
  | .ok out => .ok ({ code, out }, t)
  | .error .missingNumber => .error ⟨.badColour, t⟩
  | .error _ => .error ⟨.brokenMarkup, t⟩

/-- The message of a failure goes below what was printed before, and ends the run with code 2, if it
is told to the user; any other failure halts the run. -/
def told (isTold : Failure → Bool) (before : Screen) (halt : Halt) :
    Except Halt (Printed × FileTree) :=
  if isTold halt.failure then do
    let (p, t) ← printed 2 halt.tree before
    return ({ p with err := [withoutColour ("Error: " ++ halt.failure.message)] }, t)
  else .error halt

def codeOf (ok : Bool) : Nat := if ok then 0 else 1

def runBuild (p : Project) (env : Environment) (t : FileTree) (targets : Text) (dryRun : Bool) :
    Except Halt (Printed × FileTree) :=
  match Path.homeText? env.home with
  | none => .error ⟨.noHome, t⟩
  | some home =>
    let loading := Screen.loading home (Path.absolute p.root)
    match p.build t (targetList targets) dryRun with
    | .error halt => told Failure.isConfiguration loading halt
    | .ok (report, t) =>
      if report.targets.isEmpty then printed 0 t (loading ++ Screen.noTargets)
      else
        let screen := if dryRun then Screen.dryRun report else Screen.build report
        printed (codeOf report.ok) t (loading ++ screen)

def runClean (p : Project) (t : FileTree) : Except Halt (Printed × FileTree) :=
  match p.clean t with
  | .error halt => told Failure.isReported [] halt
  | .ok (removed, t) => printed 0 t (Screen.clean removed)

def runInspect (p : Project) (t : FileTree) (platform : Text) : Except Halt (Printed × FileTree) :=
  match p.inspect t platform with
  | .error failure => told Failure.isConfiguration [] ⟨failure, t⟩
  | .ok report => printed (codeOf report.ok) t (Screen.inspect report)

def runValidate (p : Project) (t : FileTree) : Except Halt (Printed × FileTree) :=
  match Source.load t p.root with
  | .error failure => told Failure.isConfiguration [] ⟨failure, t⟩
  | .ok source => printed 0 t (Screen.validation source)

def runRequest (p : Project) (env : Environment) (t : FileTree) :
    Request → Except Halt (Printed × FileTree)
  | .build targets dryRun => runBuild p env t targets dryRun
  | .clean => runClean p t
  | .inspect platform => runInspect p t platform
  | .targets => printed 0 t (Screen.targets p.platforms)
  | .validate => runValidate p t

def screenOf : Parsed → List Text
  | .help scope => helpScreen scope
  | _ => [programName ++ ", version " ++ programVersion]

def parse (env : Environment) (t : FileTree) (args : List Text) :
    Except Refusal (List Text × Parsed) := do
  match ← (parseOpening args).mapError .usage with
  | .screen parsed => return ([], parsed)
  | .command root rest =>
    let root ← rootOf env t root
    return (root, ← (parseRest rest).mapError .usage)

def run (env : Environment) (t : FileTree) (args : List Text) : Except Halt (Printed × FileTree) :=
  match parse env t args with
  | .error (.usage e) => .ok ({ code := 2, err := e.lines.map withoutColour }, t)
  | .error (.failure failure) => .error ⟨failure, t⟩
  | .ok (root, .run request) =>
    runRequest { root, stamp := env.stamp, registry := env.registry } env t request
  | .ok (_, screen) => .ok ({ out := screenOf screen }, t)

end AgentConfig.Console
