import AgentConfig.Json.Basic

namespace AgentConfig.Json

mutual

/-- `base` with the members of `overlay` put into it: objects are merged key by key, any other value
replaces what was there. -/
def merge (base : Members) : (overlay : List (Text × Json)) → Members
  | [] => base
  | (key, value) :: rest =>
    merge (Members.put key (mergeValue (Members.get? key base) value) base) rest

def mergeValue (current : Option Json) : Json → Json
  | .obj overlay =>
    match current with
    | some (.obj base) => .obj (merge base overlay)
    | _ => .obj overlay
  | value => value

end

inductive OverlayFault where
  | notAnObject
  | tooDeep
  deriving DecidableEq, Repr

def maxMergeLevels : Nat := 496

/-- A document with an object laid over it. Only an object takes members, though any document takes
none. -/
def overlay (base : Json) (overlay : Members) : Except OverlayFault Json :=
  if maxMergeLevels < levels base then .error .tooDeep
  else
    match base with
    | .obj members =>
      if maxMergeLevels < memberLevels overlay then .error .tooDeep
      else .ok (.obj (merge members overlay))
    | base => if overlay.isEmpty then .ok base else .error .notAnObject

mutual

/-- The dotted paths of the members, down to `depth` levels. -/
def keyPaths (depth : Nat) : List (Text × Json) → List Text
  | [] => []
  | (key, value) :: rest => memberPaths depth key value ++ keyPaths depth rest

def memberPaths (depth : Nat) (key : Text) : Json → List Text
  | .obj [] => [key]
  | .obj (m :: ms) =>
    if 1 < depth then (keyPaths (depth - 1) (m :: ms)).map fun path => key ++ "." ++ path else [key]
  | _ => [key]

end

/-- The keys that a dotted path passes. A final dot adds no key. -/
def pathKeys (path : Text) : List Text :=
  match (Text.splitOn '.' path).reverse with
  | last :: key :: keys =>
    if last.isEmpty then (key :: keys).reverse else (last :: key :: keys).reverse
  | keys => keys.reverse

/-- The object without what the keys lead to, parents left empty being dropped; `none` when they
lead to nothing. -/
def removeKeys? : (keys : List Text) → Members → Option Members
  | [], _ => none
  | [key], members => if members.hasKey key then some (members.erase key) else none
  | key :: keys, members =>
    match members.get? key with
    | some (.obj child) =>
      (removeKeys? keys child).map fun child =>
        if child.isEmpty then members.erase key else members.put key (.obj child)
    | _ => none

def removePath? (path : Text) (members : Members) : Option Members :=
  removeKeys? (pathKeys path) members

/-- The object after the removal of several dotted paths, and whether one led to something. -/
def removePaths (paths : List Text) (members : Members) : Members × Bool :=
  paths.foldl (fun (members, changed) path =>
    match removePath? path members with
    | some members => (members, true)
    | none => (members, changed)) (members, false)

/-- Whether a document that is no object holds a key all the same: a text by its words, a list by
its items. Other documents hold no keys, which is `none`. -/
def mentions? (key : Text) : Json → Option Bool
  | .str s => some (Text.includes s key)
  | .arr items => some (items.any fun v => v.text? == some key)
  | _ => none

/-- A document without what the dotted path leads to, and whether that was anything; `none` when
something stands there that cannot be removed. -/
def removeFrom? (path : Text) : Json → Option (Json × Bool)
  | .obj members =>
    match removePath? path members with
    | some members => some (.obj members, true)
    | none => some (.obj members, false)
  | v =>
    match v.mentions? ((pathKeys path).head?.getD []) with
    | some false => some (v, false)
    | _ => none

end AgentConfig.Json
