import AgentConfig.IgnoreFile
import AgentConfig.Output.Write
import AgentConfig.Platform.Registry

namespace AgentConfig

def targetList (text : Text) : List Text :=
  ((Text.splitOn ',' text).map Text.trim).filter (!·.isEmpty)

/-- A place to build in, and the platforms that can be built for. -/
structure Project extends Workplace where
  registry : Registry := Registry.default

namespace Project

/-- The platforms to build for; an empty registry stands for the supported ones. -/
def platforms (p : Project) : Registry :=
  if p.registry.platforms.isEmpty then Registry.default else p.registry

def generate (g : Guidance) (platform : Platform) : TargetReport :=
  match platform.generate g with
  | .ok result => { target := platform.name, result := some result }
  | .error reason =>
    { target := platform.name
      error := some ("Failed to generate for " ++ platform.name ++ ": " ++ reason) }

/-- The platforms of a build: the chosen ones, else those of the configuration, each once. -/
def resolveTargets (p : Project) (g : Guidance) (chosen : List Text) :
    Except Failure (List Platform) :=
  p.platforms.resolve (if chosen.isEmpty then g.targets else chosen).eraseDups

/-- The paths for the ignore file: the generated files that are not shared with the user. -/
def ignoredPaths (p : Project) (t : FileTree) : Except Failure (List Text) := do
  let manifest ← Manifest.load t p.root
  return (((manifest.map (·.files)).getD []).filter (·.ownedKeys.isNone)).map (·.path)

def build (p : Project) (t : FileTree) (chosen : List Text) (dryRun : Bool) :
    Except Halt (BuildReport × FileTree) := do
  let source ← Failure.orHalt t (Source.load t p.root)
  let g := source.guidance
  let platforms ← Failure.orHalt t (p.resolveTargets g chosen)
  if platforms.isEmpty then return ({ dryRun }, t)
  let reports := platforms.map (generate g)
  let managed : ManagedDirs := platforms.map fun platform => (platform.name, platform.managedDirs)
  if dryRun then
    return (← Failure.orHalt t (Workplace.preview p.root t reports managed), t)
  let (report, t) ← p.toWorkplace.write t reports managed
  let entries ← Failure.orHalt t (p.ignoredPaths t)
  let (_, t) ← IgnoreFile.update t p.root entries
  return (report, t)

def inspect (p : Project) (t : FileTree) (name : Text) : Except Failure TargetReport := do
  let platform ← p.platforms.get name
  let source ← Source.load t p.root
  return generate source.guidance platform

/-- Removes what the last build left, and its block in the ignore file. -/
def clean (p : Project) (t : FileTree) : Except Halt (Option (List Text) × FileTree) := do
  match ← p.toWorkplace.clean t with
  | (none, t) => return (none, t)
  | (some removed, t) =>
    let (_, t) ← IgnoreFile.remove t p.root
    return (some removed, t)

end Project

end AgentConfig
