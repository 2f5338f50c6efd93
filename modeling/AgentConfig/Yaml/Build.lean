import AgentConfig.Yaml.Convert
import AgentConfig.Yaml.Node
import AgentConfig.Yaml.SetOrder

namespace AgentConfig.Yaml

namespace NodeTable

def tagAt? (nodes : Array Node) (place : Nat) : Option Tag := nodes[place]?.map (·.tag)

def entriesAt? (nodes : Array Node) (place : Nat) : Option (List (Nat × Nat)) :=
  match nodes[place]? with
  | some ⟨_, .mapping entries⟩ => some entries
  | _ => none

def setEntries (nodes : Array Node) (place : Nat) (entries : List (Nat × Nat)) : Array Node :=
  nodes.modify place fun n => { n with content := .mapping entries }

def isMerge (nodes : Array Node) (entry : Nat × Nat) : Bool := tagAt? nodes entry.1 == some .merge

def splitMerge? (nodes : Array Node) (entries : List (Nat × Nat)) :
    Option (Nat × List (Nat × Nat)) :=
  match entries.find? (isMerge nodes) with
  | some (key, value) => some (value, entries.erase (key, value))
  | none => none

/-- A plain `=` is an ordinary text as a key. -/
def plainKey (nodes : Array Node) (entry : Nat × Nat) : Array Node :=
  if tagAt? nodes entry.1 = some .value then nodes.modify entry.1 fun n => { n with tag := .str }
  else nodes

/-- Replaces the merge keys of a mapping by the entries they bring, which come in front; `merged`
holds those found so far. Of several mappings merged by one key the first one counts, so it comes
last. Every step takes a merge key out of the table, so `fuel` need only exceed their number. -/
def flattenWith : (fuel : Nat) → (merged : List (Nat × Nat)) → (place : Nat) → Array Node →
    Except Fault (Array Node)
  | 0, _, _, nodes => .ok nodes
  | fuel + 1, merged, place, nodes =>
    let entries := (entriesAt? nodes place).getD []
    match splitMerge? nodes entries with
    | none =>
      let nodes := if merged.isEmpty then nodes else setEntries nodes place (merged ++ entries)
      .ok (entries.foldl plainKey nodes)
    | some (value, rest) => do
      let flat (place : Nat) (nodes : Array Node) :
          Except Fault (List (Nat × Nat) × Array Node) := do
        if (entriesAt? nodes place).isNone then throw .malformed
        let nodes ← flattenWith fuel [] place nodes
        return ((entriesAt? nodes place).getD [], nodes)
      let nodes := setEntries nodes place rest
      let (brought, nodes) ← match nodes[value]? with
        | some ⟨_, .sequence items⟩ =>
          items.foldlM (fun (brought, nodes) item => do
            let (entries, nodes) ← flat item nodes
            return (entries ++ brought, nodes)) ([], nodes)
        | _ => flat value nodes
      flattenWith fuel (merged ++ brought) place nodes

def mergeCount (nodes : Array Node) : Nat :=
  nodes.foldl (fun count n =>
    match n.content with
    | .mapping entries => count + entries.countP (isMerge nodes)
    | _ => count) 0

def flatten (place : Nat) (nodes : Array Node) : Except Fault (Array Node) :=
  let entries := (entriesAt? nodes place).getD []
  if entries.any (isMerge nodes) then flattenWith (mergeCount nodes + 1) [] place nodes
  else .ok (entries.foldl plainKey nodes)

/-- The text of a scalar, or of the `=` entry of a mapping. A mapping whose text is its own never
ends: `fuel` exceeds the number of nodes. -/
def textAt (nodes : Array Node) : (fuel : Nat) → (place : Nat) → Except Fault Text
  | 0, _ => .error .endlessText
  | fuel + 1, place =>
    match nodes[place]? with
    | some ⟨_, .scalar text⟩ => .ok text
    | some ⟨_, .mapping entries⟩ =>
      match entries.find? fun e => tagAt? nodes e.1 == some .value with
      | some (_, value) => textAt nodes fuel value
      | none => .error .malformed
    | _ => .error .malformed

def scalarAt (nodes : Array Node) (place : Nat) (tag : Tag) : Except Fault Value := do
  let text ← textAt nodes (nodes.size + 1) place
  if tag = .timestamp ∧ (entriesAt? nodes place).isSome then throw .timeOfMapping
  scalarValue tag place text

end NodeTable

/-- The nodes, the values of those already built, the cells, and the collections that wait for their
parts, as places of a node and of a cell, last one first. -/
structure Builder where
  nodes : Array Node
  built : Array (Option Value)
  cells : Array Cell := #[]
  waiting : List (Nat × Nat) := []

namespace Builder

abbrev Step := StateT Builder (Except Fault)

def addCell (c : Cell) : Step Nat :=
  modifyGet fun b => (b.cells.size, { b with cells := b.cells.push c })

def setCell (place : Nat) (c : Cell) : Step Unit :=
  modify fun b => { b with cells := b.cells.setIfInBounds place c }

def note (place : Nat) (v : Value) : Step Value := do
  modify fun b => { b with built := b.built.setIfInBounds place (some v) }
  return v

def enqueue (place : Nat) (c : Cell) : Step Value := do
  let cell ← addCell c
  modify fun b => { b with waiting := (place, cell) :: b.waiting }
  note place (.cell cell)

def build (place : Nat) : Step Value := do
  let b ← get
  match b.built[place]?.bind id, NodeTable.tagAt? b.nodes place with
  | some v, _ => return v
  | none, none => throw .malformed
  | none, some tag =>
    match tag with
    | .seq => enqueue place (.seq [])
    | .omap => enqueue place (.seq [])
    | .pairs => enqueue place (.seq [])
    | .set => enqueue place (.set [])
    | .map => enqueue place (.map [])
    | tag => note place (← NodeTable.scalarAt b.nodes place tag)

def liftNodes (f : Array Node → Except Fault (Array Node)) : Step Unit := do
  let b ← get
  set { b with nodes := ← f b.nodes }

/-- The entries of a mapping, a repeated key having its first place and its last value. -/
def entriesOf (place : Nat) : Step (List (Value × Value)) := do
  liftNodes (NodeTable.flatten place)
  match NodeTable.entriesAt? (← get).nodes place with
  | none => throw .malformed
  | some entries =>
    entries.foldlM (fun done (k, v) => do
      let key ← build k
      unless key.isKey do throw .malformed
      let value ← build v
      return Value.putEntry key value done) []

/-- The pair of an item of an ordered list, which must be a mapping of one entry. -/
def pairOf (item : Nat) : Step Value := do
  match NodeTable.entriesAt? (← get).nodes item with
  | some [(k, v)] =>
    let key ← build k
    let value ← build v
    return .cell (← addCell (.pair key value))
  | _ => throw .malformed

def itemsOf (place : Nat) : Step (List Nat) := do
  match (← get).nodes[place]? with
  | some ⟨_, .sequence items⟩ => return items
  | _ => throw .malformed

def complete (place cell : Nat) : Step Unit := do
  match NodeTable.tagAt? (← get).nodes place with
  | some .map => setCell cell (.map (← entriesOf place))
  | some .set => setCell cell (.set (SetOrder.ofItems ((← entriesOf place).map (·.1))))
  | some .seq => setCell cell (.seq (← (← itemsOf place).mapM build))
  | _ => setCell cell (.seq (← (← itemsOf place).mapM pairOf))

/-- Completes the collections that wait, then those met on the way. A node waits only once, so
`fuel` need only exceed the number of nodes. -/
def completeAll : (fuel : Nat) → Step Unit
  | 0 => pure ()
  | fuel + 1 => do
    let waiting := (← get).waiting.reverse
    if waiting.isEmpty then return
    modify fun b => { b with waiting := [] }
    waiting.forM fun (place, cell) => complete place cell
    completeAll fuel

end Builder

def NodeTable.toGraph (t : NodeTable) : Except Fault Graph := do
  let run : Builder.Step Value := do
    let root ← Builder.build t.root
    Builder.completeAll (t.nodes.size + 1)
    return root
  let (root, b) ← run { nodes := t.nodes, built := Array.replicate t.nodes.size none }
  return { cells := b.cells, root }

def load (text : Text) : Except Fault Graph := do
  let (tokens, fault) := tokens text
  match ← NodeTable.ofTokens? tokens fault with
  | none => return {}
  | some table => table.toGraph

end AgentConfig.Yaml
