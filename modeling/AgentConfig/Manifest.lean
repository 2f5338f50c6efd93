import AgentConfig.Source

namespace AgentConfig

def programVersion : Text := "0.1.0"

/-- A generated file. A shared document lists the keys that were generated in it; a manifest that
was edited may list anything there. -/
structure ManifestEntry where
  path : Text
  checksum : Text
  ownedKeys : Option (List Json) := none

structure Manifest where
  version : Text := programVersion
  files : List ManifestEntry := []

namespace ManifestEntry

def toJson (e : ManifestEntry) : Json :=
  let keys : Json.Members := match e.ownedKeys with
    | some keys => [("owned_keys", .arr keys)]
    | none => []
  .obj (("path", .str e.path) :: ("checksum", .str e.checksum) :: keys)

/-- The items of a value that is walked through as a list: a text has its letters, an object its
keys. -/
def itemsOf : Json → Except Failure (List Json)
  | .arr items => .ok items
  | .str s => .ok (s.map fun l => .str [l])
  | .obj members => .ok (members.map fun m => .str m.1)
  | _ => .error .notAList

/-- The entry an object stands for; one without a path stands for none. -/
def ofMembers (members : Json.Members) : Except Failure (Option ManifestEntry) :=
  match members.get? "path" with
  | none => .ok none
  | some path => do
    let ownedKeys ← match (members.get? "owned_keys").getD .null with
      | .null => pure none
      | keys => some <$> itemsOf keys
    return some {
      path := path.text
      checksum := ((members.get? "checksum").map Json.text).getD ""
      ownedKeys }

end ManifestEntry

/-- What a file that should hold JSON holds. -/
inductive StoredJson where
  | absent
  | unreadable
  | value (v : Json)

/-- What the file at a path holds. A document of too many levels is a failure. -/
def FileTree.storedJson (t : FileTree) (path : List Text) : Except Failure StoredJson := do
  match ← Failure.atPath path (t.entry? path) with
  | none => return .absent
  | some .dir => return .unreadable
  | some (.file bytes) =>
    if bytes.size = 0 then return .absent
    match Text.readText bytes with
    | .error _ => return .unreadable
    | .ok text =>
      match Json.read text with
      | .ok v => return .value v
      | .error e => if e.isMalformed then return .unreadable else throw (.json text e)

namespace Manifest

def get? (m : Manifest) (path : Text) : Option ManifestEntry :=
  m.files.find? fun e => e.path == path

def paths (m : Manifest) : List Text := m.files.map (·.path)

def sorted (files : List ManifestEntry) : List ManifestEntry :=
  files.mergeSort fun a b => Text.le a.path b.path

def toJson (m : Manifest) : Json :=
  .obj [("version", .str m.version), ("files", .arr ((sorted m.files).map ManifestEntry.toJson))]

def entriesOf : List Json → Except Failure (List ManifestEntry)
  | [] => .ok []
  | .obj members :: rest => do
    let entry ← ManifestEntry.ofMembers members
    return entry.toList ++ (← entriesOf rest)
  | _ :: rest => entriesOf rest

def ofJson : Json → Except Failure (Option Manifest)
  | .obj members => do
    let items ← ManifestEntry.itemsOf ((Json.Members.get? "files" members).getD (.arr []))
    return some {
      version := ((Json.Members.get? "version" members).map Json.text).getD ""
      files := ← entriesOf items }
  | _ => .ok none

def location (root : List Text) : List Text :=
  Path.child (Path.child root Source.directory) ".manifest.json"

/-- The manifest of a project. A missing, empty or unreadable one counts as none. -/
def load (t : FileTree) (root : List Text) : Except Failure (Option Manifest) := do
  match ← t.storedJson (location root) with
  | .value v => ofJson v
  | _ => return none

def save (m : Manifest) (t : FileTree) (root : List Text) : Except Halt FileTree :=
  Halt.atPath (location root) (t.write (location root) (Json.write m.toJson))

def delete (t : FileTree) (root : List Text) : Except Halt (Bool × FileTree) := do
  let path := location root
  if ← Failure.orHalt t (Failure.atPath path (t.exists? path)) then
    let t ← Failure.orHalt t (Failure.atPath path (t.unlink path))
    return (true, t)
  else return (false, t)

end Manifest

end AgentConfig
