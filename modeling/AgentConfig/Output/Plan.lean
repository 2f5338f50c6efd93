import AgentConfig.Digest
import AgentConfig.Manifest
import AgentConfig.Output.Action

namespace AgentConfig

structure PlanContext where
  root : List Text
  tree : FileTree
  manifest : Manifest := {}
  ledger : Ledger := []

def OutputFile.desired (f : OutputFile) : Text :=
  match f.ownership with
  | .full => Marker.add f.path f.content
  | _ => f.content

def checkMarkable (path content : Text) : Except Failure Unit :=
  match Marker.fault? path content with
  | some e => .error (.json content e)
  | none => .ok ()

def OutputFile.check (f : OutputFile) : Except Failure Unit :=
  if f.ownership = .full then checkMarkable f.path f.content else .ok ()

def FileEntry.text? : FileEntry → Option Text
  | .file bytes => (Text.readText bytes).toOption
  | .dir => none

def FileEntry.checksum? : FileEntry → Option Text
  | .file bytes => some (Digest.sha256 bytes)
  | .dir => none

namespace PlanContext

def location (c : PlanContext) (path : Text) : List Text := Path.join c.root path

def entry? (c : PlanContext) (path : Text) : Except Failure (Option FileEntry) :=
  Failure.atPath (c.location path) (c.tree.entry? (c.location path))

def isAsRecorded (c : PlanContext) (path : Text) (entry : FileEntry) : Bool :=
  match c.manifest.get? path with
  | some e => entry.checksum? == some e.checksum
  | none => false

/-- Refuses an entry that would have to be searched for the marker and cannot be. -/
def checkEntry (path : Text) (entry : FileEntry) : Except Failure Unit :=
  match entry.text? with
  | some text => checkMarkable path text
  | none => .ok ()

/-- Whether an entry that is about to be overwritten may be the user's. -/
def needsBackup (c : PlanContext) (path : Text) (entry : FileEntry) : Bool :=
  match c.manifest.get? path with
  | some e => entry.checksum? != some e.checksum
  | none =>
    match entry.text? with
    | some text => !Marker.has path text
    | none => true

def planShared (target : Text) (f : OutputFile) (earlier : LedgerEntry) : Action × List Text :=
  let action : Action :=
    { kind := .writeText, path := f.path, status := .noop, payload := some f.desired, target }
  if earlier.content = some f.desired then
    ({ action with detail := "Already written by " ++ earlier.writer }, [])
  else
    ({ action with status := .update, detail := "Replace content written by " ++ earlier.writer },
      [f.path ++ " is generated by both " ++ earlier.writer ++ " and " ++ target ++ "; " ++
        target ++
        "'s content replaces " ++ earlier.writer ++ "'s"])

/-- The action for a generated file whose path holds `entry`, if anything. -/
def planOver (c : PlanContext) (target : Text) (f : OutputFile) (entry : Option FileEntry) :
    Action × List Text :=
  let action : Action :=
    { kind := .writeText, path := f.path, status := .create, payload := some f.desired, target }
  match entry with
  | none => ({ action with detail := "Create generated file" }, [])
  | some entry =>
    if entry.text? = some f.desired then
      ({ action with status := .noop, detail := "Up to date" }, [])
    else if c.needsBackup f.path entry then
      ({ action with status := .update, detail := "Back up and overwrite", backup := true },
        ["Backed up existing " ++ f.path ++ " before overwriting"])
    else ({ action with status := .update, detail := "Update generated file" }, [])

/-- Refuses to overwrite an entry of which it cannot be told whether it is the user's. -/
def checkOver (c : PlanContext) (f : OutputFile) (entry : FileEntry) : Except Failure Unit :=
  if (c.manifest.get? f.path).isSome || entry.text? == some f.desired then .ok ()
  else checkEntry f.path entry

def planFile (c : PlanContext) (target : Text) (f : OutputFile) :
    Except Failure (Action × List Text) := do
  f.check
  let entry ← c.entry? f.path
  match c.ledger.get? f.path with
  | some earlier => return planShared target f earlier
  | none =>
    entry.forM (c.checkOver f)
    return c.planOver target f entry

def overlayOf (content : Text) : Except Failure Json.Members :=
  match Json.read content with
  | .ok (.obj members) => .ok members
  | .ok _ => .error .notAnObject
  | .error e => .error (.json content e)

def keyDepth : Nat := 2

/-- The object in a shared document, and whether something else stands there. -/
def baseOf : StoredJson → Json.Members × Bool
  | .value (.obj members) => (members, false)
  | .value .null => ([], false)
  | .absent => ([], false)
  | _ => ([], true)

def keyTexts (keys : List Json) : Option (List Text) := keys.mapM Json.text?

/-- The keys of the last build are taken out of the base, so that none survives that is no longer
generated. -/
def withoutOwned (c : PlanContext) (path : Text) (base : Json.Members) :
    Except Failure Json.Members :=
  match (c.manifest.get? path).bind (·.ownedKeys) with
  | none => .ok base
  | some keys =>
    match keyTexts keys with
    | some keys => .ok (Json.removePaths keys base).1
    | none => .error .notAnObject

def distinctSorted (xs : List Text) : List Text := Text.sort xs.eraseDups

def settle (c : PlanContext) (action : Action) (desired : Text) (owned : List Text)
    (entry : Option FileEntry) : Action × List Text :=
  let action := { action with payload := some desired, ownedKeys := some owned }
  match entry with
  | none => (action, [])
  | some entry =>
    if entry.text? = some desired then ({ action with status := .noop, detail := "Up to date" }, [])
    else
      let backup := !c.ledger.hasPath action.path && !c.isAsRecorded action.path entry
      ({ action with
          status := .update
          detail := "Merge keys " ++ Text.intercalate ", " owned
          backup },
        if backup then ["Backed up existing " ++ action.path ++ " before merging"] else [])

/-- The action for a settings document that is shared with the user: what was generated is laid over
what is there. -/
def planSettings (c : PlanContext) (target : Text) (f : OutputFile) :
    Except Failure (Action × List Text) := do
  let overlay ← overlayOf f.content
  let generated := Json.keyPaths keyDepth overlay
  let (base, isForeign) := baseOf (← c.tree.storedJson (c.location f.path))
  let warnings := if isForeign then [f.path ++ " is not a JSON object; replacing it"] else []
  let action : Action :=
    { kind := .mergeJson, path := f.path, status := .create
      detail := "Create shared settings", target }
  let (base, owned) ← match c.ledger.get? f.path with
    | some earlier => pure (base, distinctSorted (earlier.ownedKeys.getD [] ++ generated))
    | none => do pure (← c.withoutOwned f.path base, generated)
  let merged ← Failure.ofOverlay (Json.overlay (.obj base) overlay)
  let (action, more) := c.settle action (Json.write merged) owned (← c.entry? f.path)
  return (action, warnings ++ more)

/-- Whether a file on disk was generated: it is as the manifest records it, or bears the marker. -/
def isGenerated (c : PlanContext) (path : Text) (entry : FileEntry) : Bool :=
  c.isAsRecorded path entry ||
    match entry.text? with
    | some text => Marker.has path text
    | none => false

def planRemoval (c : PlanContext) (target path : Text) (entry : FileEntry) : Action × List Text :=
  let backup := !c.isAsRecorded path entry
  ({ kind := .removeFile, path, status := .remove
     detail := "No longer generated", target, backup },
    if backup then ["Backed up modified " ++ path ++ " before removing"] else [])

def pathOf (c : PlanContext) (location : List Text) : Except Failure Text :=
  if c.root.isPrefixOf location then .ok (Path.relative (location.drop c.root.length))
  else .error (.outside (Path.absolute location) (Path.absolute c.root))

/-- The removal of a file in a managed directory, if it is a generated one that this run does not
write. -/
def planStaleFile (c : PlanContext) (target : Text) (desired : List Text) (location : List Text)
    (entry : FileEntry) : Except Failure (Option (Action × List Text)) := do
  let path ← c.pathOf location
  if desired.contains path || c.ledger.hasPath path then return none
  if c.isAsRecorded path entry then return some (c.planRemoval target path entry)
  checkEntry path entry
  return if c.isGenerated path entry then some (c.planRemoval target path entry) else none

/-- The removals of stale files from a managed directory. Its path may be too long to be looked up;
the paths of the files below it are taken to be short enough. -/
def planStaleIn (c : PlanContext) (target : Text) (desired : List Text) (directory : Text) :
    Except Failure (List (Action × List Text)) := do
  let base := c.location directory
  if !(← Failure.atPath base (c.tree.isDir? base)) then return []
  let location ← Failure.atPath base (c.tree.locate base)
  let found ← (c.tree.filesBelow location).mapM fun (names, bytes) =>
    c.planStaleFile target desired (base ++ names) (.file bytes)
  return found.filterMap id

def planOutput (c : PlanContext) (target : Text) (f : OutputFile) :
    Except Failure (Action × List Text) :=
  match f.ownership with
  | .sharedKeys => c.planSettings target f
  | _ => c.planFile target f

/-- The plan for a target: its files in order, then the removal of stale files from the directories
it manages. -/
def plan (c : PlanContext) (target : Text) (files : List OutputFile) (managedDirs : List Text) :
    Except Failure Plan := do
  let written ← files.mapM (c.planOutput target)
  let removed ← managedDirs.mapM (c.planStaleIn target (files.map (·.path)))
  let all := written ++ removed.flatten
  return { actions := all.map (·.1), warnings := all.flatMap (·.2) }

end PlanContext

/-- The action that removes what an entry lists, if its path leads somewhere: the whole file, or the
generated keys of a shared one. -/
def ManifestEntry.planRemoval (e : ManifestEntry) (t : FileTree) (root : List Text) :
    Except Failure (Option Action) := do
  let location := Path.join root e.path
  if !(← Failure.atPath location (t.exists? location)) then return none
  match e.ownedKeys with
  | none =>
    return some
      { kind := .removeFile, path := e.path, status := .remove
        detail := "Remove generated file" }
  | some keys =>
    match PlanContext.keyTexts keys with
    | none => throw .keysNotText
    | some keys =>
      return some
        { kind := .removeKeys
          path := e.path
          status := .remove
          detail := "Remove keys " ++ Text.intercalate ", " keys
          ownedKeys := some keys : Action }

def Manifest.planRemoval (m : Manifest) (t : FileTree) (root : List Text) :
    Except Failure Plan := do
  let actions ← m.files.mapM fun e => e.planRemoval t root
  return { actions := actions.filterMap id }

end AgentConfig
