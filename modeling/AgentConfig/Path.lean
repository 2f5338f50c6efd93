import AgentConfig.Text.Case

namespace AgentConfig.Path

def names (path : Text) : List Text :=
  (Text.splitOn '/' path).filter fun name => name != "" && name != "."

def isAbsolute (path : Text) : Bool := path.head? == some (.char '/')

def absolute (names : List Text) : Text := "/" ++ Text.intercalate "/" names

def relative (names : List Text) : Text :=
  if names.isEmpty then "." else Text.intercalate "/" names

/-- The path text without doubled slashes and single dots. Exactly two leading slashes stay two. -/
def normal (path : Text) : Text :=
  match path with
  | .char '/' :: .char '/' :: .char '/' :: _ => absolute (names path)
  | .char '/' :: .char '/' :: _ => "/" ++ absolute (names path)
  | .char '/' :: _ => absolute (names path)
  | _ => relative (names path)

/-- Where a path leads from the directory `base`: an absolute one starts from the top. -/
def join (base : List Text) (path : Text) : List Text :=
  if isAbsolute path then names path else base ++ names path

def child (base : List Text) (name : Text) : List Text := base ++ [name]

/-- The order of paths: name by name, a path before those it starts. -/
def le : List Text → List Text → Bool
  | [], _ => true
  | _ :: _, [] => false
  | a :: as, b :: bs => if a = b then le as bs else Text.le a b

/-- The names without double dots, each of which takes away the name before it. -/
def collapse (names : List Text) : List Text :=
  names.foldl (fun (done : List Text) (name : Text) =>
    if name = ".." then done.dropLast else done ++ [name]) []

def isUnder (names base : List Text) : Bool := (collapse base).isPrefixOf (collapse names)

def fileName (path : Text) : Text := (names path).getLast?.getD ""

def splitLastDot? (name : Text) : Option (Text × Text) :=
  let ending := name.reverse.takeWhile (· != .char '.')
  match (name.reverse.dropWhile (· != .char '.')) with
  | [] => none
  | dot :: rest => some (rest.reverse, dot :: ending.reverse)

/-- The part of a name from its last dot on. A dot that is the first or the last letter of the
name starts no suffix. -/
def suffix (name : Text) : Text :=
  match splitLastDot? name with
  | some (_ :: _, dot :: l :: rest) => dot :: l :: rest
  | _ => ""

def stem (name : Text) : Text :=
  match splitLastDot? name with
  | some (l :: stem, _ :: _ :: _) => l :: stem
  | _ => name

def kind (path : Text) : Text := Text.lower (suffix (fileName path))

/-- The path text of a home directory; an empty one is the top of the file system, and one that is
itself written from a home is none. -/
def homeText? (home : Text) : Option Text :=
  let home := Text.dropEndWhile (· == .char '/') home
  if home.head? = some (.char '~') then none
  else if home = "" then some "/"
  else some (normal home)

/-- A path in which the home directory is written as a tilde. -/
def compact (home path : Text) : Text :=
  if path = home then "~"
  else
    match Text.stripPrefix? (home ++ "/") path with
    | some rest => "~/" ++ rest
    | none => path

end AgentConfig.Path
