import AgentConfig.Console.Run
import AgentConfig.FileTree.Difference
import Std.Time.Format

namespace AgentConfig.Program

def external (text : Text) : String := String.ofList (text.filterMap Letter.char?)

/-- The files below a directory, which stands at `location`. Directories that the program never
writes to are left out. -/
partial def readBelow (path : String) (location : List Text) (t : FileTree) : IO FileTree := do
  let here ← IO.FS.realPath path
  let mut t := t
  for entry in ← here.readDir do
    let location := Path.child location entry.fileName
    let text := path ++ "/" ++ entry.fileName
    if ← entry.path.isDir then
      t := t.put location .dir
      if entry.fileName != ".git" then
        t ← readBelow text location t
    else
      t := t.put location (.file (← IO.FS.readBinFile text))
  return t

def readProject (root : List Text) : IO FileTree := do
  let t := ({} : FileTree).withDirsTo root
  try readBelow (external (Path.absolute root)) root t
  catch _ => return ({} : FileTree).withDirsTo root.dropLast

def bringTo (root : List Text) (old new : FileTree) : IO Unit := do
  let text (names : List Text) := external (Path.absolute (root ++ names))
  for names in FileTree.removedFiles old new root do
    IO.FS.removeFile (text names)
  for names in (FileTree.newDirs new old root).reverse do
    IO.FS.removeDir (text names)
  for names in FileTree.newDirs old new root do
    IO.FS.createDirAll (text names)
  for (names, bytes) in FileTree.writtenFiles old new root do
    IO.FS.writeBinFile (text names) bytes

def rootFor (directory : List Text) (args : List Text) : List Text :=
  match Console.parseOpening args with
  | .ok (.command root _) => Path.collapse (Path.join directory root)
  | _ => directory

end AgentConfig.Program

open AgentConfig in
def main (args : List String) : IO UInt32 := do
  let args := args.map Text.ofString
  let directory := Path.names (← IO.currentDir).toString
  let home := (← IO.getEnv "HOME").getD "/"
  let stamp := (← Std.Time.PlainDateTime.now).format "uuuuMMdd-HHmmss"
  let root := Program.rootFor directory args
  let tree ← Program.readProject root
  let env : Console.Environment := { directory, home, stamp }
  match Console.run env tree args with
  | .ok (printed, new) =>
    Program.bringTo root tree new
    for line in printed.out do IO.println (Program.external line)
    for line in printed.err do IO.eprintln (Program.external line)
    return printed.code.toUInt32
  | .error halt =>
    Program.bringTo root tree halt.tree
    IO.eprintln (Program.external halt.failure.message)
    return 1
