import AgentConfig.Output.Execute
import AgentConfig.Output.Plan

namespace AgentConfig

abbrev ManagedDirs := List (Text × List Text)

def ManagedDirs.of (managed : ManagedDirs) (target : Text) : List Text :=
  (managed.lookup target).getD []

/-- The words for a failure to plan a target, if it spares the other targets. -/
def planningError? (root : List Text) : Failure → Option Text
  | .file fault path =>
    if fault.isSystem then
      some (Failure.outputWrite path
        ("[Errno " ++ Text.ofNat fault.code ++ "] " ++ fault.text ++ ": " ++
          Text.quoted path)).message
    else some (Failure.outputWrite (Path.absolute root) fault.text).message
  | .outside path base =>
    some (Failure.outputWrite (Path.absolute root) (Failure.outside path base).message).message
  | .json text e =>
    if e.isMalformed then some (Failure.outputWrite (Path.absolute root) (e.message text)).message
    else none
  | _ => none

structure Progress where
  tree : FileTree
  ledger : Ledger := []
  /-- The last completed action on each written path, in the order in which paths were first
  written. -/
  persisted : List (Text × Action) := []
  removed : List Text := []
  completed : List Action := []
  done : List TargetReport := []

namespace Progress

/-- Notes the last action on a path; the path keeps its first place. -/
def putAction (a : Action) : List (Text × Action) → List (Text × Action)
  | [] => [(a.path, a)]
  | (path, b) :: rest =>
    if path = a.path then (path, a) :: rest else (path, b) :: putAction a rest

def note (p : Progress) (a : Action) : Progress :=
  if a.kind.persists then
    { p with ledger := p.ledger.record a, persisted := putAction a p.persisted }
  else if a.kind = .removeFile then { p with removed := p.removed ++ [a.path] }
  else p

def writeTarget (w : Workplace) (manifest : Manifest) (managed : ManagedDirs) (p : Progress)
    (report : TargetReport) : Except Halt Progress :=
  match report.result with
  | none => .ok { p with done := p.done ++ [report] }
  | some result =>
    let context : PlanContext := ⟨w.root, p.tree, manifest, p.ledger⟩
    match context.plan report.target result.files (managed.of report.target) with
    | .error failure =>
      match planningError? w.root failure with
      | some error => .ok { p with done := p.done ++ [{ report with error := some error }] }
      | none => .error ⟨failure, p.tree⟩
    | .ok plan => do
      let e ← w.execute p.tree plan.actions
      let report :=
        { report with
          plan := some plan
          applied := e.applied
          failed := e.failed
          failures := e.failures
          backups := e.backups }
      return e.completed.foldl note
        { p with
          tree := e.tree
          completed := p.completed ++ e.completed
          done := p.done ++ [report] }

end Progress

def Manifest.putEntry (e : ManifestEntry) : List ManifestEntry → List ManifestEntry
  | [] => [e]
  | f :: rest => if f.path = e.path then e :: rest else f :: putEntry e rest

/-- The old entries that stay: those of paths that still exist and that the run did not touch. -/
def Manifest.kept (root : List Text) (p : Progress) (old : List ManifestEntry) :
    Except Failure (List ManifestEntry) :=
  old.filterM fun e =>
    if p.removed.contains e.path || (p.persisted.lookup e.path).isSome then return false
    else Failure.atPath (Path.join root e.path) (p.tree.exists? (Path.join root e.path))

def Manifest.written? (root : List Text) (t : FileTree) (path : Text) (a : Action) :
    Except Failure (Option ManifestEntry) := do
  let location := Path.join root path
  match ← Failure.atPath location (t.file? location) with
  | none => return none
  | some bytes =>
    return some ⟨path, Digest.sha256 bytes, a.ownedKeys.map (·.map Json.str)⟩

def Progress.manifest (p : Progress) (root : List Text) (previous : Option Manifest) :
    Except Failure Manifest := do
  let old ← Manifest.kept root p ((previous.map (·.files)).getD [])
  let new ← p.persisted.mapM fun (path, a) => Manifest.written? root p.tree path a
  return {
    files := (old ++ new.filterMap id).foldl (fun files e => Manifest.putEntry e files) [] }

def Progress.pathsOf (p : Progress) (kind : ActionKind) : List Text :=
  Text.sort ((p.persisted.filter fun e => e.2.kind == kind).map (·.1))

namespace Workplace

/-- Plans and carries out the reports in order, against the manifest of the last build. -/
def run (w : Workplace) (previous : Option Manifest) (t : FileTree) (reports : List TargetReport)
    (managed : ManagedDirs) : Except Halt Progress :=
  reports.foldlM (Progress.writeTarget w (previous.getD {}) managed) { tree := t }

/-- Writes the files of every report in order, then the manifest. A target that fails spares the
rest. -/
def write (w : Workplace) (t : FileTree) (reports : List TargetReport) (managed : ManagedDirs) :
    Except Halt (BuildReport × FileTree) := do
  let previous ← Failure.orHalt t (Manifest.load t w.root)
  let p ← w.run previous t reports managed
  let manifest ← Failure.orHalt p.tree (p.manifest w.root previous)
  let t ← manifest.save p.tree w.root
  let build : BuildReport :=
    { targets := p.done
      written := p.pathsOf .writeText
      merged := p.pathsOf .mergeJson
      removed := p.removed }
  return ({ build with state := if build.ok then .committed else .partialFailure }, t)

def previewTarget (root : List Text) (t : FileTree) (manifest : Manifest) (managed : ManagedDirs)
    (state : Ledger × List TargetReport) (report : TargetReport) :
    Except Failure (Ledger × List TargetReport) :=
  let (ledger, done) := state
  match report.result with
  | none => .ok (ledger, done ++ [report])
  | some result => do
    let context : PlanContext := ⟨root, t, manifest, ledger⟩
    let plan ← context.plan report.target result.files (managed.of report.target)
    return ((plan.actions.filter (·.kind.persists)).foldl Ledger.record ledger,
      done ++ [{ report with plan := some plan }])

def preview (root : List Text) (t : FileTree) (reports : List TargetReport)
    (managed : ManagedDirs) :
    Except Failure BuildReport := do
  let manifest ← Manifest.load t root
  let (_, done) ← reports.foldlM (previewTarget root t (manifest.getD {}) managed) ([], [])
  return { targets := done, dryRun := true }

/-- Removes what the manifest lists, then the manifest, and tells the paths; `none` when there is no
manifest. If anything fails the manifest stays. -/
def clean (w : Workplace) (t : FileTree) : Except Halt (Option (List Text) × FileTree) := do
  match ← Failure.orHalt t (Manifest.load t w.root) with
  | none => return (none, t)
  | some manifest =>
    let plan ← Failure.orHalt t (manifest.planRemoval t w.root)
    let e ← w.execute t plan.actions
    if e.failures.isEmpty then
      let (_, t) ← Manifest.delete e.tree w.root
      return (some (e.completed.map (·.path)), t)
    else
      throw ⟨.outputWrite (Path.absolute (Manifest.location w.root))
        (Text.intercalate "; " e.failures), e.tree⟩

end Workplace

end AgentConfig
