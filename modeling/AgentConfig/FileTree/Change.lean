import AgentConfig.FileTree.Basic

namespace AgentConfig

/-- The tree after a change, or a fault and the tree it left behind. -/
abbrev TreeChange := Except (FileFault × FileTree) FileTree

namespace FileTree

def step (t : FileTree) (r : Except FileFault FileTree) : TreeChange := r.mapError (·, t)

def readFile (t : FileTree) (path : List Text) : Except FileFault ByteArray := do
  match t.get? (← t.locate path) with
  | some (.file bytes) => return bytes
  | some .dir => throw .isADirectory
  | none => throw .notFound

/-- Gives a file its bytes; its directory must exist. -/
def writeFile (t : FileTree) (path : List Text) (bytes : ByteArray) :
    Except FileFault FileTree := do
  let location ← t.locate path
  if t.get? location = some .dir then throw .isADirectory
  return t.put location (.file bytes)

/-- Gives a file its text; its directory must exist. A text no file can hold leaves it empty. -/
def writeText (t : FileTree) (path : List Text) (text : Text) : TreeChange :=
  match Text.bytes? text with
  | some bytes => t.step (t.writeFile path bytes)
  | none => do
    let t ← t.step (t.writeFile path ⟨#[]⟩)
    throw (.halfCharacter, t)

def makeDir (t : FileTree) (path : List Text) : Except FileFault FileTree := do
  let location ← t.locate path
  if (t.get? location).isSome then throw .alreadyExists
  return t.put location .dir

def madeDir (t : FileTree) (path : List Text) : TreeChange :=
  match t.makeDir path with
  | .ok t => .ok t
  | .error .notFound => .error (.notFound, t)
  | .error fault =>
    match t.isDir? path with
    | .ok true => .ok t
    | _ => .error (fault, t)

/-- Makes a directory and those above it; `names` are the names of its path, the last one first. -/
def makeDirsUp (t : FileTree) : (names : List Text) → TreeChange
  | [] => .ok t
  | name :: above =>
    let path := (name :: above).reverse
    match t.makeDir path with
    | .error .notFound => do
      let t ← t.makeDirsUp above
      t.madeDir path
    | _ => t.madeDir path

def makeDirs (t : FileTree) (path : List Text) : TreeChange := t.makeDirsUp path.reverse

def write (t : FileTree) (path : List Text) (text : Text) : TreeChange := do
  let t ← t.makeDirs path.dropLast
  t.writeText path text

def unlink (t : FileTree) (path : List Text) : Except FileFault FileTree := do
  let location ← t.locate path
  match t.get? location with
  | some (.file _) => return t.erase location
  | some .dir => throw .isADirectory
  | none => throw .notFound

def removeDir (t : FileTree) (path : List Text) : Except FileFault FileTree := do
  let location ← t.locate path
  match t.get? location with
  | some .dir =>
    if location.isEmpty || path.getLast? = some ".." || !t.isEmptyDir location then throw .notEmpty
    return t.erase location
  | some (.file _) => throw .notADirectory
  | none => throw .notFound

def isSame (t : FileTree) (a b : List Text) : Bool :=
  match t.locate a, t.locate b with
  | .ok a, .ok b => a == b && (t.get? a).isSome
  | _, _ => false

/-- Copies a file to another path, or into it if that is a directory. -/
def copy (t : FileTree) (source target : List Text) : Except FileFault FileTree := do
  let inside ← t.isDir? target
  let target := if inside then target ++ [source.getLast?.getD ""] else target
  if t.isSame source target then
    throw (.sameFile (Path.absolute source) (Path.absolute target) inside)
  t.writeFile target (← t.readFile source)

/-- Removes empty directories upwards until `stop` is reached; `names` are those of the path, the
last one first. -/
def pruneUp (t : FileTree) (stop : List Text) : (names : List Text) → FileTree
  | [] => t
  | name :: above =>
    let path := (name :: above).reverse
    if path = stop || !Path.isUnder path stop then t
    else
      match t.removeDir path with
      | .ok t => t.pruneUp stop above
      | .error _ => t

/-- Removes a directory, if it is empty, and those above it that become so, up to `stop`. -/
def prune (t : FileTree) (path stop : List Text) : FileTree := t.pruneUp stop path.reverse

end FileTree

end AgentConfig
