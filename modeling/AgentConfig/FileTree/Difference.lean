import AgentConfig.FileTree.Basic

namespace AgentConfig.FileTree

def dirsBelow (t : FileTree) (base : List Text) : List (List Text) :=
  let found := t.entries.filterMap fun e =>
    match below? base e.1, e.2 with
    | some names, .dir => some names
    | _, _ => none
  found.mergeSort Path.le

def emptyDirsBelow (t : FileTree) (base : List Text) : List (List Text) :=
  (t.dirsBelow base).filter fun names => t.isEmptyDir (base ++ names)

/-- The files of `new` below `base` that `old` has not, or has with other bytes. -/
def writtenFiles (old new : FileTree) (base : List Text) : List (List Text × ByteArray) :=
  (new.filesBelow base).filter fun (names, bytes) => old.get? (base ++ names) != some (.file bytes)

def removedFiles (old new : FileTree) (base : List Text) : List (List Text) :=
  ((old.filesBelow base).map (·.1)).filter fun names =>
    match new.get? (base ++ names) with
    | some (.file _) => false
    | _ => true

def newDirs (old new : FileTree) (base : List Text) : List (List Text) :=
  (new.dirsBelow base).filter fun names => old.get? (base ++ names) != some .dir

def withDirsTo (t : FileTree) (location : List Text) : FileTree :=
  (List.range location.length).foldl (fun t n =>
    let here := location.take (n + 1)
    if (t.get? here).isSome then t else t.put here .dir) t

end AgentConfig.FileTree
