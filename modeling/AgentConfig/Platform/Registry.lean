import AgentConfig.Failure
import AgentConfig.Platform.Generate

namespace AgentConfig

/-- A platform that guidance can be generated for; generation may fail with a reason. -/
structure Platform where
  name : Text
  managedDirs : List Text := []
  generate : Guidance → Except Text Generated

def Profile.toPlatform (p : Profile) : Platform :=
  { name := p.name, managedDirs := p.managedDirs, generate := fun g => .ok (p.generate g) }

/-- Platforms in the order of their registration, no two of one name. -/
structure Registry where
  platforms : List Platform := []

namespace Registry

def names (r : Registry) : List Text := r.platforms.map (·.name)

def contains (r : Registry) (name : Text) : Bool := r.names.contains name

def register (r : Registry) (p : Platform) : Except Failure Registry :=
  if r.contains p.name then .error (.duplicatePlatform p.name) else .ok ⟨r.platforms ++ [p]⟩

def ofPlatforms (ps : List Platform) : Except Failure Registry := ps.foldlM register {}

def get (r : Registry) (name : Text) : Except Failure Platform :=
  match r.platforms.find? fun p => p.name == name with
  | some p => .ok p
  | none => .error (.unknownPlatform name r.names)

def resolve (r : Registry) (names : List Text) : Except Failure (List Platform) := names.mapM r.get

def default : Registry := ⟨Profile.defaults.map Profile.toPlatform⟩

end Registry

end AgentConfig
