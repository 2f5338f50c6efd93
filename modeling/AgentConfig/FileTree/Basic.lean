import AgentConfig.Path
import AgentConfig.Text.Quoted
import AgentConfig.Text.Utf8

namespace AgentConfig

inductive FileFault where
  | notFound
  | alreadyExists
  | notADirectory
  | isADirectory
  | nameTooLong
  | notEmpty
  /-- A name with a zero character in it, which no file can have. -/
  | zeroInName
  /-- A text or a name with half a character in it, which no file can hold. -/
  | halfCharacter
  /-- A file was to be copied onto itself; `inside` tells whether the copy was meant to go into a
  directory. -/
  | sameFile (source target : Text) (inside : Bool)
  deriving DecidableEq, Repr

namespace FileFault

def pathLiteral (path : Text) : Text := "PosixPath(" ++ Text.quoted path ++ ")"

def text : FileFault → Text
  | .notFound => "No such file or directory"
  | .alreadyExists => "File exists"
  | .notADirectory => "Not a directory"
  | .isADirectory => "Is a directory"
  | .nameTooLong => "File name too long"
  | .notEmpty => "Directory not empty"
  | .zeroInName => "embedded null byte"
  | .halfCharacter => "surrogates not allowed"
  | .sameFile source target inside =>
    pathLiteral source ++ " and " ++ (if inside then Text.quoted target else pathLiteral target) ++
      " are the same file"

def code : FileFault → Nat
  | .notFound => 2
  | .alreadyExists => 17
  | .notADirectory => 20
  | .isADirectory => 21
  | .nameTooLong => 36
  | .notEmpty => 39
  | .zeroInName => 22
  | .halfCharacter => 22
  | .sameFile _ _ _ => 22

/-- Whether the fault is one of the file system, and not of a text. -/
def isSystem : FileFault → Bool
  | .zeroInName => false
  | .halfCharacter => false
  | _ => true

end FileFault

inductive FileEntry where
  | file (bytes : ByteArray)
  | dir

instance : DecidableEq FileEntry
  | .file a, .file b =>
    if h : a.data = b.data then isTrue (by cases a; cases b; cases h; rfl)
    else isFalse (fun e => h (by cases e; rfl))
  | .dir, .dir => isTrue rfl
  | .file _, .dir => isFalse nofun
  | .dir, .file _ => isFalse nofun

/-- The locations that exist, besides the top. -/
structure FileTree where
  entries : List (List Text × FileEntry) := []

namespace FileTree

def get? (t : FileTree) (location : List Text) : Option FileEntry :=
  if location.isEmpty then some .dir else t.entries.lookup location

def erase (t : FileTree) (location : List Text) : FileTree :=
  ⟨t.entries.filter fun e => e.1 != location⟩

def put (t : FileTree) (location : List Text) (entry : FileEntry) : FileTree :=
  ⟨(location, entry) :: (t.erase location).entries⟩

def below? (base location : List Text) : Option (List Text) :=
  if base.isPrefixOf location && base.length < location.length then some (location.drop base.length)
  else none

def children (t : FileTree) (base : List Text) : List Text :=
  Text.sort (t.entries.filterMap fun e =>
    match below? base e.1 with
    | some [name] => some name
    | _ => none)

def isEmptyDir (t : FileTree) (location : List Text) : Bool :=
  !t.entries.any fun e => (below? location e.1).isSome

def filesBelow (t : FileTree) (base : List Text) : List (List Text × ByteArray) :=
  let found := t.entries.filterMap fun e =>
    match below? base e.1, e.2 with
    | some names, .file bytes => some (names, bytes)
    | _, _ => none
  found.mergeSort fun a b => Path.le a.1 b.1

def maxNameBytes : Nat := 255

def maxPathBytes : Nat := 4096

/-- The location that names lead to from `here`; the last name need not exist. A double dot goes up
one directory. -/
def walk (t : FileTree) (here : List Text) : (names : List Text) → Except FileFault (List Text)
  | [] => .ok here
  | name :: rest =>
    match t.get? here with
    | none => .error .notFound
    | some (.file _) => .error .notADirectory
    | some .dir =>
      if name = ".." then t.walk here.dropLast rest
      else if Text.utf8Size name > maxNameBytes then .error .nameTooLong
      else t.walk (here ++ [name]) rest

def locate (t : FileTree) (path : List Text) : Except FileFault (List Text) :=
  match path.mapM Text.fileName? with
  | none => .error .halfCharacter
  | some names =>
    if path.any (·.contains (.char '\x00')) then .error .zeroInName
    else if Text.utf8Size (Path.absolute path) ≥ maxPathBytes then .error .nameTooLong
    else t.walk [] names

/-- What an absolute path leads to, if anything. Only a name that is too long is a fault. -/
def entry? (t : FileTree) (path : List Text) : Except FileFault (Option FileEntry) :=
  match t.locate path with
  | .ok location => .ok (t.get? location)
  | .error .nameTooLong => .error .nameTooLong
  | .error _ => .ok none

def exists? (t : FileTree) (path : List Text) : Except FileFault Bool :=
  (t.entry? path).map (·.isSome)

def isDir? (t : FileTree) (path : List Text) : Except FileFault Bool :=
  (t.entry? path).map (· == some .dir)

def file? (t : FileTree) (path : List Text) : Except FileFault (Option ByteArray) :=
  (t.entry? path).map fun
    | some (.file bytes) => some bytes
    | _ => none

end FileTree

end AgentConfig
