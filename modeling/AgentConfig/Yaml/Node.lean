import AgentConfig.Yaml.Tag
import AgentConfig.Yaml.Token

namespace AgentConfig.Yaml

/-- What a node holds; items, keys and values are places in the table. -/
inductive Content where
  | scalar (text : Text)
  | sequence (items : List Nat)
  | mapping (entries : List (Nat × Nat))
  deriving DecidableEq, Repr

structure Node where
  tag : Tag
  content : Content
  deriving DecidableEq, Repr

/-- The nodes of a document, and the place of the outermost one. -/
structure NodeTable where
  nodes : Array Node
  root : Nat
  deriving Repr

namespace Node

/-- The tokens that are left, the fault behind them, the nodes so far, the anchors of some of them,
the tag handles of the document, and how many collections are open. -/
structure Input where
  tokens : List Token
  fault : Fault := .malformed
  nodes : Array Node := #[]
  anchors : List (Text × Nat) := []
  handles : List (Text × Text) := []
  levels : Nat := 0

abbrev Reader := StateT Input (Except Fault)

def peek : Reader Token := do
  let i ← get
  match i.tokens with
  | t :: _ => return t
  | [] => throw i.fault

def skip : Reader Unit := modify fun i => { i with tokens := i.tokens.tail }

def nextIsOneOf (ts : List Token) : Reader Bool := return ts.contains (← peek)

def add (n : Node) : Reader Nat :=
  modifyGet fun i => (i.nodes.size, { i with nodes := i.nodes.push n })

def fill (place : Nat) (n : Node) : Reader Unit :=
  modify fun i => { i with nodes := i.nodes.setIfInBounds place n }

def addNull : Reader Nat := add ⟨.null, .scalar []⟩

structure Properties where
  anchor : Option Text := none
  tag : Option Text := none

def Properties.isEmpty (p : Properties) : Bool := p.anchor.isNone && p.tag.isNone

def anchor? : Reader (Option Text) := do
  match ← peek with
  | .anchor name =>
    skip
    return some name
  | _ => return none

def tag? : Reader (Option (Option Text × Text)) := do
  match ← peek with
  | .tag handle suffix =>
    skip
    return some (handle, suffix)
  | _ => return none

def address (handle : Option Text) (suffix : Text) : Reader Text := do
  match handle with
  | none => return suffix
  | some h =>
    match (← get).handles.lookup h with
    | some start => return start ++ suffix
    | none => throw .malformed

def properties : Reader Properties := do
  let first ← anchor?
  let tag ← tag?
  let anchor ← if first.isNone && tag.isSome then anchor? else pure first
  match tag with
  | none => return { anchor }
  | some (handle, suffix) => return { anchor, tag := some (← address handle suffix) }

def bind (p : Properties) (place : Nat) : Reader Unit :=
  match p.anchor with
  | none => pure ()
  | some name => modify fun i => { i with anchors := (name, place) :: i.anchors }

/-- The tag of a scalar. The tag `!` asks for the form to decide. -/
def scalarTag (given : Option Text) (plain : Bool) (text : Text) : Tag :=
  match given with
  | none => if plain then Tag.ofPlain text else .str
  | some address => if address = "!" then Tag.ofPlain text else Tag.ofAddress address

def collectionTag (given : Option Text) (default : Tag) : Tag :=
  match given with
  | none => default
  | some address => if address = "!" then default else Tag.ofAddress address

def scalar (p : Properties) (text : Text) (plain : Bool) : Reader Nat := do
  let place ← add ⟨scalarTag p.tag plain text, .scalar text⟩
  bind p place
  return place

def maxLevels : Nat := 490

/-- The parts of a collection, one level further in. -/
def inside {α : Type} (read : Reader α) : Reader α := do
  if maxLevels ≤ (← get).levels then throw .tooDeep
  modify fun i => { i with levels := i.levels + 1 }
  let parts ← read
  modify fun i => { i with levels := i.levels - 1 }
  return parts

def sequence (p : Properties) (read : Reader (List Nat)) : Reader Nat := do
  let tag := collectionTag p.tag .seq
  let place ← add ⟨tag, .sequence []⟩
  bind p place
  fill place ⟨tag, .sequence (← inside read)⟩
  return place

def mapping (p : Properties) (read : Reader (List (Nat × Nat))) : Reader Nat := do
  let tag := collectionTag p.tag .map
  let place ← add ⟨tag, .mapping []⟩
  bind p place
  fill place ⟨tag, .mapping (← inside read)⟩
  return place

mutual

/-- A node. `block` allows block collections, and `bare` a sequence whose entries are not indented,
as the value of a mapping may be. `fuel` bounds the calls left. -/
def parse (block bare : Bool) : (fuel : Nat) → Reader Nat
  | 0 => throw .malformed
  | fuel + 1 => do
    match ← peek with
    | .alias name =>
      skip
      match (← get).anchors.lookup name with
      | some place => return place
      | none => throw .malformed
    | _ =>
      let p ← properties
      let t ← peek
      let anchors := (← get).anchors
      if p.anchor.any fun name => (anchors.lookup name).isSome then throw .malformed
      body block bare p t fuel

/-- The content of a node after its properties, which starts with the token `t`. Behind properties
it may be missing. -/
def body (block bare : Bool) (p : Properties) (t : Token) : (fuel : Nat) → Reader Nat
  | 0 => throw .malformed
  | fuel + 1 =>
    match t, block, bare with
    | .scalar text plain, _, _ => do
      skip
      scalar p text plain
    | .flowSequenceStart, _, _ => sequence p (skip *> flowItems true fuel)
    | .flowMappingStart, _, _ => mapping p (skip *> flowEntries true fuel)
    | .blockEntry, _, true => sequence p (bareItems fuel)
    | .blockSequenceStart, true, _ => sequence p (skip *> blockItems fuel)
    | .blockMappingStart, true, _ => mapping p (skip *> blockEntries fuel)
    | _, _, _ => if p.isEmpty then throw .malformed else scalar p [] true

/-- A node, or an empty scalar when one of the tokens `ends` comes instead. -/
def parseUnless (ends : List Token) (block bare : Bool) : (fuel : Nat) → Reader Nat
  | 0 => throw .malformed
  | fuel + 1 => do if ← nextIsOneOf ends then addNull else parse block bare fuel

def blockItems : (fuel : Nat) → Reader (List Nat)
  | 0 => throw .malformed
  | fuel + 1 => do
    match ← peek with
    | .blockEntry =>
      skip
      let item ← parseUnless [.blockEntry, .blockEnd] true false fuel
      return item :: (← blockItems fuel)
    | .blockEnd =>
      skip
      return []
    | _ => throw .malformed

/-- The entries of a sequence at the indentation of the mapping around it. -/
def bareItems : (fuel : Nat) → Reader (List Nat)
  | 0 => throw .malformed
  | fuel + 1 => do
    match ← peek with
    | .blockEntry =>
      skip
      let item ← parseUnless [.blockEntry, .key, .value, .blockEnd] true false fuel
      return item :: (← bareItems fuel)
    | _ => return []

def blockEntries : (fuel : Nat) → Reader (List (Nat × Nat))
  | 0 => throw .malformed
  | fuel + 1 => do
    match ← peek with
    | .key =>
      skip
      let key ← parseUnless [.key, .value, .blockEnd] true true fuel
      let value ← blockValue fuel
      return (key, value) :: (← blockEntries fuel)
    | .blockEnd =>
      skip
      return []
    | _ => throw .malformed

def blockValue : (fuel : Nat) → Reader Nat
  | 0 => throw .malformed
  | fuel + 1 => do
    match ← peek with
    | .value =>
      skip
      parseUnless [.key, .value, .blockEnd] true true fuel
    | _ => addNull

/-- The items of a flow sequence; an item `key: value` is a mapping of one entry. -/
def flowItems (first : Bool) : (fuel : Nat) → Reader (List Nat)
  | 0 => throw .malformed
  | fuel + 1 => do
    if !first && !(← nextIsOneOf [.flowSequenceEnd]) then
      unless ← nextIsOneOf [.flowEntry] do throw .malformed
      skip
    match ← peek with
    | .flowSequenceEnd =>
      skip
      return []
    | .key =>
      let item ← mapping {} (skip *> flowPair .flowSequenceEnd fuel)
      return item :: (← flowItems false fuel)
    | _ =>
      let item ← parse false false fuel
      return item :: (← flowItems false fuel)

def flowPair (close : Token) : (fuel : Nat) → Reader (List (Nat × Nat))
  | 0 => throw .malformed
  | fuel + 1 => do
    let key ← parseUnless [.value, .flowEntry, close] false false fuel
    let value ← flowValue close fuel
    return [(key, value)]

def flowValue (close : Token) : (fuel : Nat) → Reader Nat
  | 0 => throw .malformed
  | fuel + 1 => do
    match ← peek with
    | .value =>
      skip
      parseUnless [.flowEntry, close] false false fuel
    | _ => addNull

/-- The entries of a flow mapping; one without a key mark is a key with an empty value. -/
def flowEntries (first : Bool) : (fuel : Nat) → Reader (List (Nat × Nat))
  | 0 => throw .malformed
  | fuel + 1 => do
    if !first && !(← nextIsOneOf [.flowMappingEnd]) then
      unless ← nextIsOneOf [.flowEntry] do throw .malformed
      skip
    match ← peek with
    | .flowMappingEnd =>
      skip
      return []
    | .key =>
      skip
      let entry ← flowPair .flowMappingEnd fuel
      return entry ++ (← flowEntries false fuel)
    | _ =>
      let key ← parse false false fuel
      let _ ← peek
      let value ← addNull
      return (key, value) :: (← flowEntries false fuel)

end

def defaultHandles : List (Text × Text) := [("!", "!"), ("!!", Tag.commonAddress)]

/-- The directives in front of a document, which give its handles: a version of the language must be
1, and neither the version nor a handle may be given twice. `fuel` bounds their number. -/
def directives : (fuel : Nat) → (versioned : Bool) → (handles : List (Text × Text)) →
    Reader (List (Text × Text))
  | 0, _, _ => throw .malformed
  | fuel + 1, versioned, handles => do
    match ← peek with
    | .directive (.version major _) =>
      if versioned || major != 1 then throw .malformed
      skip
      directives fuel true handles
    | .directive (.tag h uri) =>
      if (handles.lookup h).isSome then throw .malformed
      skip
      directives fuel versioned ((h, uri) :: handles)
    | .directive (.other _) =>
      skip
      directives fuel versioned handles
    | _ => return handles ++ defaultHandles

def documentStart (fuel : Nat) : Reader Unit := do
  let handles ← directives fuel false []
  unless ← nextIsOneOf [.documentStart] do throw .malformed
  skip
  modify fun i => { i with handles }

/-- The content of a document after its start mark, empty when an end follows at once. -/
def documentContent (fuel : Nat) : Reader Nat := do
  match ← peek with
  | .directive _ => addNull
  | .documentStart => addNull
  | .documentEnd => addNull
  | .streamEnd => addNull
  | _ => parse true false fuel

/-- What follows the one document of a text: end marks, and nothing else. -/
def ending : (fuel : Nat) → Reader Unit
  | 0 => throw .malformed
  | fuel + 1 => do
    match ← peek with
    | .documentEnd =>
      skip
      ending fuel
    | .streamEnd => pure ()
    | _ =>
      documentStart fuel
      throw .malformed

/-- The one document of a text; `none` when there is none. -/
def document? (fuel : Nat) : Reader (Option Nat) := do
  match ← peek with
  | .streamEnd => return none
  | .directive _ | .documentStart =>
    documentStart fuel
    let root ← documentContent fuel
    ending fuel
    return some root
  | _ =>
    modify fun i => { i with handles := defaultHandles }
    let root ← parse true false fuel
    ending fuel
    return some root

end Node

def NodeTable.ofTokens? (tokens : List Token) (fault : Option Fault) :
    Except Fault (Option NodeTable) := do
  let (root, i) ← Node.document? (4 * tokens.length + 4) { tokens, fault := fault.getD .malformed }
  return root.map fun root => ⟨i.nodes, root⟩

end AgentConfig.Yaml
