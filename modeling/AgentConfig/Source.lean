import AgentConfig.Failure

namespace AgentConfig

structure SourceDocument where
  name : Text
  document : Document
  path : List Text
  deriving DecidableEq, Repr

structure SourceSkill where
  skill : Skill
  path : List Text
  deriving DecidableEq, Repr

structure Source where
  config : Config
  rules : List SourceDocument := []
  commands : List SourceDocument := []
  skills : List SourceSkill := []
  agents : List SourceDocument := []
  deriving DecidableEq, Repr

namespace Source

def directory : Text := ".agentrc"

def textOf (path : List Text) (bytes : ByteArray) : Except Failure Text :=
  (Text.readText bytes).mapError fun _ => .unreadable (Path.absolute path)

def documentOf (path : List Text) (bytes : ByteArray) : Except Failure Document := do
  let text ← textOf path bytes
  (Document.ofText text).mapError .value

def isDocumentName (name : Text) : Bool :=
  Path.suffix name == ".md" && name.head? != some (.char '.')

/-- The documents in a directory, by name. Here and below, the path of what is found in a directory
is taken to be short enough to be looked up; only the directory itself is asked for its length. -/
def documentsIn (t : FileTree) (dir : List Text) : Except Failure (List SourceDocument) := do
  if !(← Failure.atPath dir (t.isDir? dir)) then return []
  let files := (t.children dir).filterMap fun name =>
    match t.get? (Path.child dir name) with
    | some (.file bytes) => if isDocumentName name then some (name, bytes) else none
    | _ => none
  files.mapM fun (name, bytes) => do
    let path := Path.child dir name
    return { name := Path.stem name, document := ← documentOf path bytes, path }

def skillFileName : Text := "SKILL.md"

def skippedNames : List Text := [skillFileName, ".DS_Store"]

def skippedSuffixes : List Text :=
  ["png", "jpg", "jpeg", "gif", "bmp", "ico", "webp", "svg", "woff", "woff2", "ttf", "eot", "otf",
    "zip", "tar", "gz", "bz2", "7z", "rar", "exe", "dll", "so", "dylib", "bin", "pdf", "doc",
    "docx",
    "xls", "xlsx", "mp3", "mp4", "wav", "avi", "mov"].map fun name => Text.ofString ("." ++ name)

def isSupportingName (name : Text) : Bool :=
  !skippedNames.contains name && !skippedSuffixes.contains (Text.lower (Path.suffix name))

/-- The supporting files of a skill at a location: those below its directory that hold text, as
paths from there. None of these paths is taken to be too long. -/
def supportingFiles (t : FileTree) (location : List Text) : List (Text × Text) :=
  (t.filesBelow location).filterMap fun (names, bytes) =>
    if isSupportingName (names.getLast?.getD "") then
      match Text.readText bytes with
      | .ok text => some (Text.intercalate "/" names, text)
      | .error _ => none
    else none

/-- The supporting files below a path, which may lead nowhere. -/
def skillFiles (t : FileTree) (path : List Text) : List (Text × Text) :=
  match t.locate path with
  | .ok location => supportingFiles t location
  | .error _ => []

/-- The skill in a directory, which has none without its main file. As in `documentsIn`, no length
is asked for. -/
def skill? (t : FileTree) (dir : List Text) (name : Text) :
    Except Failure (Option SourceSkill) :=
  let location := Path.child dir name
  let path := Path.child location skillFileName
  match t.get? path with
  | some (.file bytes) => do
    let document ← documentOf path bytes
    return some {
      skill :=
        { name
          description := document.header.description.getD ""
          content := document.content
          files := supportingFiles t location }
      path }
  | _ => return none

/-- The skills in the directories of a directory, whose own path may be too long but not theirs. -/
def skillsIn (t : FileTree) (dir : List Text) : Except Failure (List SourceSkill) := do
  if !(← Failure.atPath dir (t.isDir? dir)) then return []
  let dirs := (t.children dir).filter fun name => t.get? (Path.child dir name) == some .dir
  return (← dirs.mapM (skill? t dir)).filterMap id

def load (t : FileTree) (root : List Text) : Except Failure Source := do
  let dir := Path.child root directory
  let configPath := Path.child dir "config.yaml"
  if !(← Failure.atPath dir (t.isDir? dir)) then throw (.noSource (Path.absolute root))
  match ← Failure.atPath configPath (t.file? configPath) with
  | none => throw (.noConfig (Path.absolute configPath))
  | some bytes =>
    let text ← textOf configPath bytes
    let config ← (Config.parse [] text).mapError fun
      | .value fault => .value fault
      | fault => .invalidConfig (Path.absolute configPath) fault
    return {
      config
      rules := ← documentsIn t (Path.child dir "rules")
      commands := ← documentsIn t (Path.child dir "commands")
      skills := ← skillsIn t (Path.child dir "skills")
      agents := ← documentsIn t (Path.child dir "agents") }

def guidance (s : Source) : Guidance :=
  { rules := sortByPriority (s.rules.map fun d => d.document.toRule d.name)
    hooks := s.config.hooks
    commands := s.commands.map fun d => d.document.toCommand d.name
    skills := s.skills.map (·.skill)
    agents := s.agents.map fun d => d.document.toAgent d.name
    targets := s.config.targets }

end Source

end AgentConfig
