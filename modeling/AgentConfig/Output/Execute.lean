import AgentConfig.Manifest
import AgentConfig.Output.Action

namespace AgentConfig

/-- Where a run takes place, and the name under which it keeps copies. -/
structure Workplace where
  root : List Text
  stamp : Text

namespace Workplace

def location (w : Workplace) (path : Text) : List Text := Path.join w.root path

def backupLocation (w : Workplace) (path : Text) : List Text :=
  Path.join (Path.join (Path.child (Path.child w.root Source.directory) ".backup") w.stamp) path

def backUp (w : Workplace) (t : FileTree) (path : Text) :
    Except (FileFault × FileTree) (Bool × FileTree) := do
  if ← (t.exists? (w.location path)).mapError (·, t) then
    let target := w.backupLocation path
    let t ← t.makeDirs target.dropLast
    let t ← t.step (t.copy (w.location path) target)
    return (true, t)
  else return (false, t)

end Workplace

inductive ActionFault where
  | file (fault : FileFault)
  | refused (message : Text)
  /-- The file has too many levels, which ends the run. -/
  | tooDeep (text : Text) (error : Json.ReadError)

structure Performed where
  tree : FileTree
  backedUp : Bool := false
  /-- Whether something changed, or why the action failed. -/
  result : Except ActionFault Bool

namespace Performed

def unchanged (t : FileTree) : Performed := { tree := t, result := .ok false }

def refused (t : FileTree) (message : Text) : Performed :=
  { tree := t, result := .error (.refused message) }

def ofChange (backedUp : Bool) : TreeChange → Performed
  | .ok t => { tree := t, backedUp, result := .ok true }
  | .error (fault, t) => { tree := t, backedUp, result := .error (.file fault) }

end Performed

namespace Workplace

def changing (w : Workplace) (t : FileTree) (a : Action) (change : FileTree → TreeChange) :
    Performed :=
  if a.backup then
    match w.backUp t a.path with
    | .ok (backedUp, t) => Performed.ofChange backedUp (change t)
    | .error (fault, t) => Performed.ofChange false (.error (fault, t))
  else Performed.ofChange false (change t)

def removeAt (w : Workplace) (path : Text) (t : FileTree) : TreeChange :=
  (t.step (t.unlink (w.location path))).map fun t => t.prune (w.location path).dropLast w.root

def performWrite (w : Workplace) (t : FileTree) (a : Action) : Performed :=
  if a.status = .noop then .unchanged t
  else
    match a.payload with
    | none => .refused t ("Missing text payload for write action: " ++ a.path)
    | some text => w.changing t a fun t => t.write (w.location a.path) text

def performRemoval (w : Workplace) (t : FileTree) (a : Action) : Performed :=
  match t.exists? (w.location a.path) with
  | .error fault => .ofChange false (.error (fault, t))
  | .ok false => .unchanged t
  | .ok true => w.changing t a (w.removeAt a.path)

/-- Takes keys out of a shared document, which goes away once it is empty. -/
def removeKeysFrom (w : Workplace) (t : FileTree) (a : Action) (bytes : ByteArray) : Performed :=
  let invalid (reason : Text) :=
    Performed.refused t ("Cannot remove keys from invalid JSON " ++ a.path ++ ": " ++ reason)
  match Text.readText bytes with
  | .error e => invalid e.message
  | .ok text =>
    match Json.read text with
    | .error e =>
      if e.isMalformed then invalid (e.message text)
      else { tree := t, result := .error (.tooDeep text e) }
    | .ok (.obj members) =>
      let (members, changed) := Json.removePaths (a.ownedKeys.getD []) members
      if members.isEmpty then .ofChange false (w.removeAt a.path t)
      else if changed then .ofChange false (t.write (w.location a.path) (Json.write (.obj members)))
      else .unchanged t
    | .ok _ => .refused t ("Cannot remove keys from non-object JSON " ++ a.path)

def performKeyRemoval (w : Workplace) (t : FileTree) (a : Action) : Performed :=
  match t.exists? (w.location a.path) with
  | .error fault => .ofChange false (.error (fault, t))
  | .ok false => .unchanged t
  | .ok true =>
    match t.readFile (w.location a.path) with
    | .error fault => .ofChange false (.error (fault, t))
    | .ok bytes => w.removeKeysFrom t a bytes

def perform (w : Workplace) (t : FileTree) (a : Action) : Performed :=
  match a.kind with
  | .writeText => w.performWrite t a
  | .mergeJson => w.performWrite t a
  | .removeFile => w.performRemoval t a
  | .removeKeys => w.performKeyRemoval t a

def faultText (w : Workplace) (a : Action) : ActionFault → Text
  | .file fault => (Failure.outputWrite (Path.absolute (w.location a.path)) fault.text).message
  | .refused message => message
  | .tooDeep text e => e.message text

end Workplace

structure Execution where
  tree : FileTree
  applied : Nat := 0
  failures : List Text := []
  completed : List Action := []
  backups : List Text := []

namespace Execution

def failed (e : Execution) : Nat := e.failures.length

/-- One more action. A fault that is not the file system's own ends the run. -/
def step (w : Workplace) (e : Execution) (a : Action) : Except Halt Execution :=
  let p := w.perform e.tree a
  let e := { e with tree := p.tree, backups := e.backups ++ if p.backedUp then [a.path] else [] }
  match p.result with
  | .ok changed =>
    .ok { e with
      applied := e.applied + if changed then 1 else 0
      completed := e.completed ++ [a] }
  | .error (.file fault) =>
    if fault.isSystem then .ok { e with failures := e.failures ++ [w.faultText a (.file fault)] }
    else .error ⟨.file fault (Path.absolute (w.location a.path)), p.tree⟩
  | .error (.refused message) => .ok { e with failures := e.failures ++ [message] }
  | .error (.tooDeep text error) => .error ⟨.json text error, p.tree⟩

end Execution

def Workplace.execute (w : Workplace) (t : FileTree) (actions : List Action) :
    Except Halt Execution :=
  actions.foldlM (Execution.step w) { tree := t }

end AgentConfig
