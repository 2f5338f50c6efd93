import AgentConfig.Config
import AgentConfig.FileTree.Change
import AgentConfig.Json.Merge

namespace AgentConfig

inductive Failure where
  | noSource (root : Text)
  | noConfig (path : Text)
  | invalidConfig (path : Text) (fault : ConfigFault)
  | unreadable (path : Text)
  | unknownPlatform (name : Text) (available : List Text)
  | duplicatePlatform (name : Text)
  | outputWrite (path detail : Text)
  | value (fault : Yaml.Fault)
  | file (fault : FileFault) (path : Text)
  /-- A file of a managed directory does not lie below the root. -/
  | outside (path root : Text)
  | json (text : Text) (error : Json.ReadError)
  | undecodable (error : Text.Utf8Error)
  | notAList
  | keysNotText
  /-- A screen closes a style that is not open, or asks for a handler that is none. -/
  | brokenMarkup
  | badColour
  | noHome
  /-- A settings document that must be an object is not, or a key path is not a text. -/
  | notAnObject
  | tooDeep
  deriving DecidableEq, Repr

namespace Failure

def message : Failure → Text
  | .noSource root => "No .agentrc/ directory found: " ++ root
  | .noConfig path => "Missing required config file: " ++ path
  | .invalidConfig path fault => fault.message (some path)
  | .unreadable path => "Unreadable source file (not valid UTF-8 text): " ++ path
  | .unknownPlatform name available =>
    "Unknown adapter \"" ++ name ++ "\". Available adapters: " ++ Text.intercalate ", " available
  | .duplicatePlatform name => "Adapter already registered: " ++ name
  | .outputWrite path detail => "Write failed (" ++ detail ++ "): " ++ path
  | .value (.unconvertible reason) => reason
  | .value _ => "a value cannot be converted"
  | .file fault _ => fault.text
  | .outside path root =>
    Text.quoted path ++ " is not in the subpath of " ++ Text.quoted root ++
      " OR one path is relative and the other is absolute."
  | .json text e => e.message text
  | .undecodable e => e.message
  | .notAList => "a list in the manifest is not one"
  | .keysNotText => "a key is not a text"
  | .brokenMarkup => "a screen cannot be shown"
  | .badColour => "invalid literal for int() with base 10: ''"
  | .noHome => "Could not determine home directory."
  | .notAnObject => "a settings document is not an object"
  | .tooDeep => "a document has too many levels"

/-- Whether the sources, the configuration or the choice of platforms are to blame. -/
def isConfiguration : Failure → Bool
  | .noSource _ => true
  | .noConfig _ => true
  | .invalidConfig _ _ => true
  | .unreadable _ => true
  | .unknownPlatform _ _ => true
  | _ => false

/-- Whether the failure is told to the user as a message of the program's own. -/
def isReported : Failure → Bool
  | .outputWrite _ _ => true
  | f => f.isConfiguration

/-- An object laid over a document, what stands in the way being a failure. -/
def ofOverlay (r : Except Json.OverlayFault Json) : Except Failure Json :=
  r.mapError fun
    | .notAnObject => .notAnObject
    | .tooDeep => .tooDeep

/-- A file operation at a path, its fault being a failure. -/
def atPath {α : Type} (path : List Text) (r : Except FileFault α) : Except Failure α :=
  r.mapError fun fault => .file fault (Path.absolute path)

end Failure

/-- A failure, and the file tree as the run left it. -/
structure Halt where
  failure : Failure
  tree : FileTree

def Halt.atPath (path : List Text) (r : TreeChange) : Except Halt FileTree :=
  r.mapError fun (fault, t) => ⟨.file fault (Path.absolute path), t⟩

def Failure.orHalt {α : Type} (t : FileTree) (r : Except Failure α) : Except Halt α :=
  r.mapError (⟨·, t⟩)

end AgentConfig
