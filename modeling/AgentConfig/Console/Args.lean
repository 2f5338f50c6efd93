import AgentConfig.Console.Suggestion

namespace AgentConfig.Console

inductive OptionKey where
  | root
  | verbose
  | version
  | help
  | targets
  | dryRun
  deriving DecidableEq, Repr

structure OptionSpec where
  key : OptionKey
  short : Option Char := none
  long : Text
  /-- The word for the value, if the option takes one. -/
  value : Option Text := none
  help : Text
  deriving DecidableEq, Repr

inductive CommandName where
  | build
  | clean
  | inspect
  | targets
  | validate
  deriving DecidableEq, Repr

def CommandName.text : CommandName → Text
  | .build => "build"
  | .clean => "clean"
  | .inspect => "inspect"
  | .targets => "targets"
  | .validate => "validate"

def CommandName.all : List CommandName := [.build, .clean, .inspect, .targets, .validate]

def CommandName.ofText? (text : Text) : Option CommandName :=
  CommandName.all.find? fun c => c.text == text

def programName : Text := "agentrc"

abbrev Scope := Option CommandName

def commandHelp : Scope → Text
  | none => "Transpile .agentrc/ into native config for every AI coding tool."
  | some .build => "Generate target files from .agentrc/."
  | some .clean => "Remove generated files tracked in the manifest."
  | some .inspect => "Show how one platform receives the current sources."
  | some .targets => "List registered targets."
  | some .validate => "Validate .agentrc/ sources and config."

def helpOption : OptionSpec :=
  { key := .help, short := some 'h', long := "--help", help := "Show this message and exit." }

def verboseOption : OptionSpec :=
  { key := .verbose, short := some 'v', long := "--verbose", help := "Enable debug logging." }

def options : Scope → List OptionSpec
  | none =>
    [{ key := .root, short := some 'C', long := "--root", value := some "DIRECTORY"
       help := "Project root containing .agentrc/.  [default: .]" },
      verboseOption,
      { key := .version, long := "--version", help := "Show the version and exit." },
      helpOption]
  | some .build =>
    [{ key := .targets, long := "--targets", value := some "TEXT"
       help := "Comma-separated targets (overrides config)." },
      { key := .dryRun, long := "--dry-run"
        help := "Show what would be written without writing." },
      verboseOption,
      helpOption]
  | some _ => [helpOption]

def path : Scope → Text
  | none => programName
  | some c => programName ++ " " ++ c.text

def usage (scope : Scope) : Text :=
  "Usage: " ++ path scope ++ " [OPTIONS]" ++
    match scope with
    | none => " COMMAND [ARGS]..."
    | some .inspect => " PLATFORM"
    | some _ => ""

def OptionSpec.row (o : OptionSpec) : Text :=
  let short : Text := match o.short with
    | some c => "-" ++ [Letter.char c] ++ ", "
    | none => []
  let value : Text := match o.value with
    | some word => " " ++ word
    | none => []
  "  " ++ short ++ o.long ++ value ++ "  " ++ o.help

def helpScreen (scope : Scope) : List Text :=
  let commands : List Text := match scope with
    | none => "" :: "Commands:" ::
      CommandName.all.map fun c => "  " ++ c.text ++ "  " ++ commandHelp (some c)
    | some _ => []
  usage scope :: "" :: ("  " ++ commandHelp scope) :: "" :: "Options:" ::
    ((options scope).map OptionSpec.row ++ commands)

inductive UsageError where
  | noSuchOption (scope : Scope) (name : Text)
  | noSuchCommand (name : Text)
  | missingCommand
  | missingPlatform
  | extraArguments (scope : Scope) (args : List Text)
  | needsValue (name : Text)
  | takesNoValue (name : Text)
  | rootIsFile (text : Text)
  | nothing
  deriving DecidableEq, Repr

namespace UsageError

def withUsage (scope : Scope) (message : Text) : List Text :=
  [usage scope, "Try '" ++ path scope ++ " --help' for help.", "", "Error: " ++ message]

/-- Suggestions are made for options in full only. -/
def optionNote (scope : Scope) (name : Text) : Text :=
  if Text.startsWith name "--" then Suggestion.note name ((options scope).map (·.long)) else []

def lines : UsageError → List Text
  | .noSuchOption scope name =>
    withUsage scope ("No such option " ++ Text.quoted name ++ "." ++ optionNote scope name)
  | .noSuchCommand name =>
    withUsage none ("No such command " ++ Text.quoted name ++ "." ++
      Suggestion.note name (CommandName.all.map CommandName.text))
  | .missingCommand => withUsage none "Missing command."
  | .missingPlatform => withUsage (some .inspect) "Missing argument 'PLATFORM'."
  | .extraArguments scope args =>
    let ending : Text := if args.length = 1 then "" else "s"
    withUsage scope ("Got unexpected extra argument" ++ ending ++ " (" ++
      Text.intercalate " " args ++ ")")
  | .needsValue name => ["Error: Option " ++ Text.quoted name ++ " requires an argument."]
  | .takesNoValue name => ["Error: Option " ++ Text.quoted name ++ " does not take a value."]
  | .rootIsFile text =>
    withUsage none
      ("Invalid value for '-C' / '--root': Directory " ++ Text.quoted text ++ " is a file.")
  | .nothing => helpScreen none

end UsageError

abbrev Given := OptionKey × Text

/-- The options read from one argument; the last one may still need a value, which is then the next
argument. -/
structure Read where
  given : List Given := []
  pending : Option (OptionKey × Text) := none

/-- A run of short options behind one dash. The rest of the run is the value of an option that takes
one. -/
def readShort (scope : Scope) (done : List Given) : Text → Except UsageError Read
  | [] => .ok { given := done }
  | l :: rest =>
    let name : Text := "-" ++ [l]
    match (options scope).find? fun o => o.short.any (l == .char ·) with
    | none => .error (.noSuchOption scope name)
    | some o =>
      if o.value.isSome then
        if rest.isEmpty then .ok ⟨done, some (o.key, name)⟩
        else .ok { given := done ++ [(o.key, rest)] }
      else readShort scope (done ++ [(o.key, [])]) rest

/-- An option in full, with the value behind an equals sign if there is one. -/
def readLong? (scope : Scope) (arg : Text) : Option (Except UsageError Read) :=
  let (name, value) := match Text.splitFirst? "=" arg with
    | some (name, value) => (name, some value)
    | none => (arg, none)
  ((options scope).find? fun o => o.long == name).map fun o =>
    match o.value, value with
    | some _, some value => .ok { given := [(o.key, value)] }
    | some _, none => .ok { pending := some (o.key, name) }
    | none, some _ => .error (.takesNoValue name)
    | none, none => .ok { given := [(o.key, "")] }

def longName (arg : Text) : Text := arg.takeWhile (· != .char '=')

def readOption (scope : Scope) (arg : Text) : Except UsageError Read :=
  match readLong? scope arg with
  | some read => read
  | none =>
    match arg with
    | .char '-' :: .char '-' :: _ => .error (.noSuchOption scope (longName arg))
    | _ :: letters => readShort scope [] letters
    | [] => .ok {}

def isOption (arg : Text) : Bool :=
  match arg with
  | .char '-' :: _ :: _ => true
  | _ => false

/-- The options among some arguments, and the other arguments. The program's own options end at the
first other argument. -/
def scan (scope : Scope) (given : List Given) (others : List Text) :
    List Text → Except UsageError (List Given × List Text)
  | [] => .ok (given, others)
  | arg :: rest =>
    if arg = "--" then .ok (given, others ++ rest)
    else if isOption arg then
      match readOption scope arg with
      | .error e => .error e
      | .ok read =>
        match read.pending, rest with
        | none, rest => scan scope (given ++ read.given) others rest
        | some (_, name), [] => .error (.needsValue name)
        | some (key, _), value :: rest =>
          scan scope (given ++ read.given ++ [(key, value)]) others rest
    else if scope.isNone then .ok (given, arg :: rest)
    else scan scope given (others ++ [arg]) rest

inductive Request where
  | build (targets : Text) (dryRun : Bool)
  | clean
  | inspect (platform : Text)
  | targets
  | validate
  deriving DecidableEq, Repr

inductive Parsed where
  | help (scope : Scope)
  | version
  | run (request : Request)
  deriving DecidableEq, Repr

def valueOf (given : List Given) (key : OptionKey) : Option Text :=
  (given.reverse.find? fun g => g.1 == key).map (·.2)

def firstScreen? (scope : Scope) (given : List Given) : Option Parsed :=
  match given.find? fun g => g.1 == .help || g.1 == .version with
  | some (.version, _) => some .version
  | some _ => some (.help scope)
  | none => none

def parseCommand (c : CommandName) (args : List Text) : Except UsageError Parsed := do
  let (given, others) ← scan (some c) [] [] args
  match firstScreen? (some c) given with
  | some screen => return screen
  | none =>
    match c, others with
    | .inspect, [] => throw .missingPlatform
    | .inspect, [platform] => return .run (.inspect platform)
    | .inspect, _ :: extra => throw (.extraArguments (some c) extra)
    | _, _ :: _ => throw (.extraArguments (some c) others)
    | .build, [] =>
      return .run (.build ((valueOf given .targets).getD "") ((valueOf given .dryRun).isSome))
    | .clean, [] => return .run .clean
    | .targets, [] => return .run .targets
    | .validate, [] => return .run .validate

/-- What the arguments before the command ask for: a screen, or a root and the arguments from the
command on. -/
inductive Opening where
  | screen (parsed : Parsed)
  | command (root : Text) (args : List Text)
  deriving DecidableEq, Repr

def parseOpening (args : List Text) : Except UsageError Opening := do
  if args.isEmpty then throw .nothing
  let (given, rest) ← scan none [] [] args
  match firstScreen? none given with
  | some screen => return .screen screen
  | none => return .command ((valueOf given .root).getD ".") rest

/-- A name that looks like an option is tried as one before it is called no command. -/
def parseUnknown (name : Text) (rest : List Text) : Except UsageError Parsed := do
  let (given, _) ← scan none [] [] (name :: rest)
  match firstScreen? none given with
  | some screen => return screen
  | none => throw (.noSuchCommand name)

def parseRest : List Text → Except UsageError Parsed
  | [] => .error .missingCommand
  | name :: rest =>
    match CommandName.ofText? name with
    | some c => parseCommand c rest
    | none => parseUnknown name rest

end AgentConfig.Console
