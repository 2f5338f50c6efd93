import AgentConfig.Proofs.Yaml.Members
import AgentConfig.Yaml.Build

namespace AgentConfig.Yaml

open List Builder Node NodeTable

variable {members : List Member} {entries done : List (Value × Value)}

theorem bind_of_ok {σ ε α β : Type} {x : StateT σ (Except ε) α} {f : α → StateT σ (Except ε) β}
    {a : α} {s s' : σ} (h : x s = .ok (a, s')) : (x >>= f) s = f a s' := by
  change (x s >>= fun r => f r.1 r.2) = _
  rw [h]
  rfl

namespace Node

variable {i after : Input} {t : Token} {text : Text} {plain : Bool} {rest : List Token}

theorem peek_cons (h : i.tokens = t :: rest) : peek i = .ok (t, i) := by
  refine (bind_of_ok rfl).trans ?_
  rw [h]
  rfl

theorem skip_eq (i : Input) : skip i = .ok ((), { i with tokens := i.tokens.tail }) := rfl

theorem nextIsOneOf_cons (ends : List Token) (h : i.tokens = t :: rest) :
    nextIsOneOf ends i = .ok (ends.contains t, i) :=
  bind_of_ok (peek_cons h)

theorem properties_eq (h : i.tokens = t :: rest) (hanchor : ∀ name, t ≠ .anchor name)
    (htag : ∀ handle suffix, t ≠ .tag handle suffix) : properties i = .ok ({}, i) := by
  have hanchor' : anchor? i = .ok (none, i) := by
    refine (bind_of_ok (peek_cons h)).trans ?_
    split
    · exact absurd rfl (hanchor _)
    · rfl
  have htag' : tag? i = .ok (none, i) := by
    refine (bind_of_ok (peek_cons h)).trans ?_
    split
    · exact absurd rfl (htag _ _)
    · rfl
  refine (bind_of_ok hanchor').trans ?_
  exact (bind_of_ok htag').trans rfl

def Input.afterScalar (i : Input) (text : Text) (plain : Bool) : Input :=
  { i with
    tokens := i.tokens.tail
    nodes := i.nodes.push ⟨scalarTag none plain text, .scalar text⟩ }

theorem parse_scalar (block bare : Bool) (fuel : Nat) (h : i.tokens = .scalar text plain :: rest) :
    parse block bare (fuel + 2) i = .ok (i.nodes.size, i.afterScalar text plain) := by
  refine (bind_of_ok (peek_cons h)).trans ?_
  refine (bind_of_ok (properties_eq h (by simp) (by simp))).trans ?_
  refine (bind_of_ok (peek_cons h)).trans ?_
  rfl

theorem parseUnless_scalar (ends : List Token) (block bare : Bool) (fuel : Nat)
    (hends : ends.contains (.scalar text plain) = false)
    (h : i.tokens = .scalar text plain :: rest) :
    parseUnless ends block bare (fuel + 3) i = .ok (i.nodes.size, i.afterScalar text plain) := by
  refine (bind_of_ok (nextIsOneOf_cons ends h)).trans ?_
  rw [hends]
  exact parse_scalar block bare fuel h

theorem blockValue_scalar (fuel : Nat) (h : i.tokens = .value :: .scalar text plain :: rest) :
    blockValue (fuel + 4) i =
      .ok (i.nodes.size, { i with tokens := i.tokens.tail }.afterScalar text plain) := by
  refine (bind_of_ok (peek_cons h)).trans ?_
  refine (bind_of_ok (skip_eq i)).trans ?_
  exact parseUnless_scalar _ true true fuel (by simp) (by rw [h]; rfl)

open Lexer (Member)

def nodesOf (m : Member) : List Node :=
  [⟨scalarTag none m.keyPlain m.key, .scalar m.key⟩,
    ⟨scalarTag none m.valuePlain m.value, .scalar m.value⟩]

/-- The places of some members whose nodes start at `place`. -/
def entriesFrom (place : Nat) : List Member → List (Nat × Nat)
  | [] => []
  | _ :: members => (place, place + 1) :: entriesFrom (place + 2) members

theorem blockEntries_members (members : List Member) (fuel : Nat)
    (h : i.tokens = members.flatMap Member.tokens ++ .blockEnd :: rest) :
    blockEntries (fuel + members.length + 4) i = .ok (entriesFrom i.nodes.size members, { i with
        tokens := rest
        nodes := i.nodes ++ (members.flatMap nodesOf).toArray }) := by
  induction members generalizing i with
  | nil =>
    refine (bind_of_ok (peek_cons h)).trans ?_
    refine (bind_of_ok (skip_eq i)).trans ?_
    simp [h]
    rfl
  | cons m members ih =>
    refine (bind_of_ok (peek_cons h)).trans ?_
    refine (bind_of_ok (skip_eq i)).trans ?_
    -- The key, the value, and the entries after them.
    let afterKey := { i with tokens := i.tokens.tail }.afterScalar m.key m.keyPlain
    let afterValue :=
      { afterKey with tokens := afterKey.tokens.tail }.afterScalar m.value m.valuePlain
    have hkey : parseUnless [.key, .value, .blockEnd] true true (fuel + members.length + 4)
        { i with tokens := i.tokens.tail } = .ok (i.nodes.size, afterKey) :=
      parseUnless_scalar _ true true _ (by simp) (by rw [h]; rfl)
    refine (bind_of_ok hkey).trans ?_
    have hvalue : blockValue (fuel + members.length + 4) afterKey =
        .ok (afterKey.nodes.size, afterValue) :=
      blockValue_scalar _ (by change i.tokens.tail.tail = _; rw [h]; rfl)
    refine (bind_of_ok hvalue).trans ?_
    have hrest := ih (i := afterValue) (by change i.tokens.tail.tail.tail.tail = _; rw [h]; rfl)
    refine (bind_of_ok hrest).trans ?_
    simp only [afterValue, afterKey]
    simp [Input.afterScalar, entriesFrom, nodesOf]
    rfl

theorem inside_eq {α : Type} {read : Reader α} {parts : α} (hlevels : i.levels < maxLevels)
    (h : read { i with levels := i.levels + 1 } = .ok (parts, after)) :
    inside read i = .ok (parts, { after with levels := after.levels - 1 }) := by
  refine (bind_of_ok rfl).trans ?_
  rw [if_neg (by simpa using hlevels)]
  refine (bind_of_ok rfl).trans ?_
  exact (bind_of_ok h).trans rfl

theorem parse_members (members : List Member) (fuel : Nat)
    (h : i.tokens = .blockMappingStart :: (members.flatMap Member.tokens ++ .blockEnd :: rest))
    (hlevels : i.levels = 0) (hnodes : i.nodes = #[]) :
    parse true false (fuel + members.length + 6) i = .ok (0, { i with
        tokens := rest
        nodes := #[⟨.map, .mapping (entriesFrom 1 members)⟩] ++
          (members.flatMap nodesOf).toArray }) := by
  refine (bind_of_ok (peek_cons h)).trans ?_
  refine (bind_of_ok (properties_eq h (by simp) (by simp))).trans ?_
  refine (bind_of_ok (peek_cons h)).trans ?_
  refine (bind_of_ok rfl).trans ?_
  refine (bind_of_ok rfl).trans ?_
  refine (bind_of_ok rfl).trans ?_
  let opened : Input := { i with nodes := i.nodes.push ⟨.map, .mapping []⟩ }
  have hentries := blockEntries_members members fuel
    (i := { opened with levels := i.levels + 1, tokens := i.tokens.tail })
    (by rw [h]; rfl)
  have hread : (skip *> blockEntries (fuel + members.length + 4))
      { opened with levels := i.levels + 1 } = _ := hentries
  have hinside := inside_eq (i := opened) (by rw [hlevels]; decide) hread
  refine (bind_of_ok hinside).trans ?_
  simp [opened, hnodes, hlevels]
  rfl

theorem ending_streamEnd (fuel : Nat) (h : i.tokens = .streamEnd :: rest) :
    ending (fuel + 1) i = .ok ((), i) := by
  exact bind_of_ok (peek_cons h)

end Node

open Lexer (Member)

/-- The nodes of a mapping of members: its own, then theirs. -/
def NodeTable.ofMembers (members : List Member) : NodeTable :=
  { nodes := #[⟨.map, .mapping (entriesFrom 1 members)⟩] ++
      (members.flatMap nodesOf).toArray
    root := 0 }

theorem NodeTable.ofTokens?_members (members : List Member) : ofTokens?
        (.blockMappingStart :: (members.flatMap Member.tokens ++ [.blockEnd, .streamEnd])) none =
      .ok (some (.ofMembers members)) := by
  have hfuel : 4 * (Token.blockMappingStart ::
      (members.flatMap Member.tokens ++ [.blockEnd, .streamEnd])).length + 4 =
      15 * members.length + 10 + members.length + 6 := by
    have hlength : (members.flatMap Member.tokens).length = 4 * members.length := by
      induction members with
      | nil => rfl
      | cons m members ih => simp [ih, Member.tokens]; omega
    simp only [length_cons, length_append, hlength, length_nil]
    omega
  have hparse : Node.parse true false (15 * members.length + 10 + members.length + 6)
      { tokens := .blockMappingStart :: (members.flatMap Member.tokens ++ [.blockEnd, .streamEnd])
        handles := defaultHandles } =
      .ok (0, { tokens := [.streamEnd], nodes := (ofMembers members).nodes
                handles := defaultHandles }) :=
    parse_members members (15 * members.length + 10) rfl rfl rfl
  have hdocument : Node.document? (15 * members.length + 10 + members.length + 6)
      { tokens := .blockMappingStart ::
          (members.flatMap Member.tokens ++ [.blockEnd, .streamEnd]) } =
      .ok (some 0, { tokens := [.streamEnd], nodes := (ofMembers members).nodes
                     handles := defaultHandles }) := by
    refine (bind_of_ok (peek_cons rfl)).trans ?_
    refine (bind_of_ok rfl).trans ?_
    refine (bind_of_ok hparse).trans ?_
    exact bind_of_ok (ending_streamEnd _ rfl)
  rw [ofTokens?, hfuel]
  simp only [Option.getD_none]
  rw [hdocument]
  rfl

namespace NodeTable

theorem ofMembers_zero (members : List Member) :
    (ofMembers members).nodes[0]? = some ⟨.map, .mapping (entriesFrom 1 members)⟩ := by
  simp [ofMembers]

theorem ofMembers_succ (members : List Member) (j : Nat) :
    (ofMembers members).nodes[1 + j]? = (members.flatMap nodesOf)[j]? := by
  simp [ofMembers, Nat.add_comm 1]

theorem size_ofMembers (members : List Member) :
    (ofMembers members).nodes.size = 2 * members.length + 1 := by
  have hlength : (members.flatMap nodesOf).length = 2 * members.length := by
    induction members with
    | nil => rfl
    | cons m members ih => simp [ih, nodesOf]; omega
  simp [ofMembers, hlength]

theorem flatten_eq {nodes : Array Node} {place : Nat} {entries : List (Nat × Nat)}
    (hentries : entriesAt? nodes place = some entries)
    (hkeys : ∀ e ∈ entries, tagAt? nodes e.1 = some .str) : flatten place nodes = .ok nodes := by
  have hmerge : entries.any (isMerge nodes) = false := by
    rw [any_eq_false]
    intro e he
    simp [isMerge, hkeys e he]
  have hplain : entries.foldl plainKey nodes = nodes := by
    clear hmerge hentries
    induction entries with
    | nil => rfl
    | cons e entries ih =>
      have hkey : plainKey nodes e = nodes := by simp [plainKey, hkeys e (by simp)]
      rw [foldl_cons, hkey, ih fun e he => hkeys e (by simp [he])]
  simp [flatten, hentries, hmerge, hplain]

end NodeTable

/-- `m.Gives entry`: the key of the member is a text, and its value a text or a truth value; they
make up the entry. -/
structure Lexer.Member.Gives (m : Member) (entry : Value × Value) : Prop where
  key_eq : entry.1 = .str m.key
  key_tag : scalarTag none m.keyPlain m.key = .str
  value_tag : scalarTag none m.valuePlain m.value = .str ∨
    scalarTag none m.valuePlain m.value = .bool
  value_eq (place : Nat) :
    scalarValue (scalarTag none m.valuePlain m.value) place m.value = .ok entry.2

theorem Value.putEntry_eq {key value : Value} (h : ∀ e ∈ done, e.1.sameKey key = false) :
    Value.putEntry key value done = done ++ [(key, value)] := by
  induction done with
  | nil => rfl
  | cons e done ih =>
    rw [Value.putEntry, h e (by simp), ih fun e he => h e (by simp [he])]
    rfl

namespace Builder

variable {b : Builder} {place : Nat} {v w : Value} {m : Member}

theorem build_scalar {tag : Tag} {text : Text} (hbuilt : b.built[place]? = some none)
    (hnode : b.nodes[place]? = some ⟨tag, .scalar text⟩) (htag : tag = .str ∨ tag = .bool)
    (hvalue : scalarValue tag place text = .ok v) :
    build place b = .ok (v, { b with built := b.built.setIfInBounds place (some v) }) := by
  have hscalar : scalarAt b.nodes place tag = .ok v := by
    rw [scalarAt, textAt, hnode]
    rcases htag with rfl | rfl <;> exact hvalue
  refine (bind_of_ok rfl).trans ?_
  simp only [hbuilt, tagAt?, hnode, Option.bind_some, id, Option.map_some]
  have hlift : (liftM (scalarAt b.nodes place tag) : Step Value) b = .ok (v, b) := by
    rw [hscalar]
    rfl
  rcases htag with rfl | rfl <;> exact (bind_of_ok hlift).trans rfl

def addEntry (done : List (Value × Value)) (entry : Nat × Nat) : Step (List (Value × Value)) := do
  let key ← build entry.1
  unless key.isKey do throw .malformed
  let value ← build entry.2
  return Value.putEntry key value done

/-- The nodes from `place` on are those of `members`, and none of them has been built. -/
structure Waits (b : Builder) (place : Nat) (members : List Member) : Prop where
  nodes (j : Nat) : b.nodes[place + j]? = (members.flatMap nodesOf)[j]?
  built (j : Nat) (h : j < 2 * members.length) : b.built[place + j]? = some none

theorem Waits.tail (h : Waits b place (m :: members)) : Waits { b with
      built := (b.built.setIfInBounds place (some v)).setIfInBounds (place + 1) (some w) }
      (place + 2) members := by
  refine ⟨fun j => ?_, fun j hj => ?_⟩
  · have hnode := h.nodes (j + 2)
    rw [show place + (j + 2) = place + 2 + j by omega] at hnode
    exact hnode
  · have hbuilt := h.built (j + 2) (by simp only [length_cons]; omega)
    rw [show place + (j + 2) = place + 2 + j by omega] at hbuilt
    rw [Array.getElem?_setIfInBounds, if_neg (by omega), Array.getElem?_setIfInBounds,
      if_neg (by omega), hbuilt]

theorem addEntry_eq {entry : Value × Value} (h : Waits b place (m :: members)) (hm : m.Gives entry)
    (hdone : ∀ e ∈ done, e.1.sameKey entry.1 = false) :
    addEntry done (place, place + 1) b = .ok (done ++ [entry], { b with
      built := (b.built.setIfInBounds place (some entry.1)).setIfInBounds (place + 1)
        (some entry.2) }) := by
  have hkeyNode := h.nodes 0
  have hvalueNode := h.nodes 1
  have hkeyBuilt := h.built 0 (by simp)
  have hvalueBuilt := h.built 1 (by simp only [length_cons]; omega)
  have hkey : build place b =
      .ok (entry.1, { b with built := b.built.setIfInBounds place (some entry.1) }) :=
    build_scalar hkeyBuilt hkeyNode (.inl hm.key_tag) (by rw [hm.key_tag, hm.key_eq]; rfl)
  have hvalue : build (place + 1) { b with built := b.built.setIfInBounds place (some entry.1) } =
      .ok (entry.2, _) :=
    build_scalar (by
      rw [Array.getElem?_setIfInBounds, if_neg (by omega), hvalueBuilt]) hvalueNode hm.value_tag
      (hm.value_eq _)
  have hisKey : entry.1.isKey = true := by rw [hm.key_eq]; rfl
  refine (bind_of_ok hkey).trans ?_
  rw [hisKey]
  refine (bind_of_ok hvalue).trans ?_
  rw [Value.putEntry_eq hdone]
  rfl

theorem Waits.tagAt?_key (h : Waits b place members)
    (hmembers : Forall₂ Member.Gives members entries) :
    ∀ e ∈ entriesFrom place members, tagAt? b.nodes e.1 = some .str := by
  induction hmembers generalizing b place with
  | nil => simp [entriesFrom]
  | @cons m entry members entries hm hmembers ih =>
    intro e he
    rcases mem_cons.mp he with rfl | he
    · have hnode : b.nodes[place]? = _ := h.nodes 0
      rw [tagAt?, hnode]
      exact congrArg some hm.key_tag
    · exact ih (h.tail (v := .null) (w := .null)) e he

theorem foldlM_addEntry (done : List (Value × Value)) (h : Waits b place members)
    (hmembers : Forall₂ Member.Gives members entries)
    (hkeys : (done ++ entries).Pairwise fun a e => a.1.sameKey e.1 = false) :
    ∃ built, (entriesFrom place members).foldlM addEntry done b =
      .ok (done ++ entries, { b with built }) := by
  induction hmembers generalizing b place done with
  | nil => exact ⟨b.built, by simp [entriesFrom]; rfl⟩
  | @cons m entry members entries hm hmembers ih =>
    rw [pairwise_append] at hkeys
    have hstep := addEntry_eq h hm fun e he => hkeys.2.2 e he entry (by simp)
    obtain ⟨built, hrest⟩ := ih (done ++ [entry]) h.tail (by
      rw [append_assoc]
      exact pairwise_append.mpr hkeys)
    refine ⟨built, ?_⟩
    refine (bind_of_ok hstep).trans ?_
    rw [hrest, append_assoc]
    rfl

theorem complete_members (cell : Nat) (hb : b.nodes = (ofMembers members).nodes)
    (h : Waits b 1 members) (hmembers : Forall₂ Member.Gives members entries)
    (hkeys : entries.Pairwise fun a e => a.1.sameKey e.1 = false) :
    ∃ built, complete 0 cell b =
      .ok ((), { b with built, cells := b.cells.setIfInBounds cell (.map entries) }) := by
  have hroot : b.nodes[0]? = some ⟨.map, .mapping (entriesFrom 1 members)⟩ := by
    rw [hb, ofMembers_zero]
  have htag : tagAt? b.nodes 0 = some .map := by rw [tagAt?, hroot]; rfl
  have hentries : entriesAt? b.nodes 0 = some (entriesFrom 1 members) := by
    rw [entriesAt?, hroot]
  have hflatten : NodeTable.flatten 0 b.nodes = .ok b.nodes :=
    flatten_eq hentries (h.tagAt?_key hmembers)
  have hlift : liftNodes (NodeTable.flatten 0) b = .ok ((), b) := by
    refine (bind_of_ok rfl).trans ?_
    simp only [hflatten]
    rfl
  obtain ⟨built, hfold⟩ := foldlM_addEntry [] h hmembers (by simpa using hkeys)
  have hentriesOf : entriesOf 0 b = .ok (entries, { b with built }) := by
    refine (bind_of_ok hlift).trans ?_
    refine (bind_of_ok rfl).trans ?_
    rw [hentries]
    exact hfold
  refine ⟨built, ?_⟩
  refine (bind_of_ok rfl).trans ?_
  rw [htag]
  exact (bind_of_ok hentriesOf).trans rfl

end Builder

/-- A mapping in a cell of its own. -/
def Graph.ofEntries (entries : List (Value × Value)) : Graph :=
  { cells := #[.map entries], root := .cell 0 }

def Builder.start (members : List Member) : Builder :=
  { nodes := (NodeTable.ofMembers members).nodes
    built := Array.replicate (NodeTable.ofMembers members).nodes.size none }

/-- The mapping has a cell of its own, which is empty yet. -/
def Builder.opened (members : List Member) : Builder :=
  { start members with
    built := (start members).built.setIfInBounds 0 (some (.cell 0))
    cells := #[.map []] }

theorem NodeTable.toGraph_ofMembers (hmembers : Forall₂ Member.Gives members entries)
    (hkeys : entries.Pairwise fun a e => a.1.sameKey e.1 = false) :
    (ofMembers members).toGraph = .ok (.ofEntries entries) := by
  have hsize := size_ofMembers members
  have htag : tagAt? (ofMembers members).nodes 0 = some .map := by
    rw [tagAt?, ofMembers_zero]
    rfl
  have hbuild : Builder.build 0 (start members) =
      .ok (.cell 0, { opened members with waiting := [(0, 0)] }) := by
    refine (bind_of_ok rfl).trans ?_
    have hnone : (start members).built[0]?.bind id = none := by simp [start, hsize]
    rw [hnone, show tagAt? (start members).nodes 0 = some .map from htag]
    rfl
  have hwaits : Waits (opened members) 1 members := by
    refine ⟨ofMembers_succ members, fun j hj => ?_⟩
    simp only [opened, start]
    rw [Array.getElem?_setIfInBounds, if_neg (by omega), Array.getElem?_replicate,
      if_pos (by omega)]
  obtain ⟨built, hcomplete⟩ := complete_members 0 rfl hwaits hmembers hkeys
  have hall : completeAll ((ofMembers members).nodes.size + 1)
      { opened members with waiting := [(0, 0)] } =
      .ok ((), { nodes := (ofMembers members).nodes, built, cells := #[.map entries] }) := by
    refine (bind_of_ok rfl).trans ?_
    refine (bind_of_ok rfl).trans ?_
    refine (bind_of_ok ((bind_of_ok hcomplete).trans rfl)).trans ?_
    rw [hsize, completeAll]
    exact (bind_of_ok rfl).trans rfl
  have hrun : (do
      let root ← Builder.build (ofMembers members).root
      completeAll ((ofMembers members).nodes.size + 1)
      return root : Step Value) (start members) =
      .ok (.cell 0, { nodes := (ofMembers members).nodes, built, cells := #[.map entries] }) :=
    (bind_of_ok hbuild).trans ((bind_of_ok hall).trans rfl)
  rw [toGraph, ← start, hrun]
  rfl

theorem load_lines {lines : List (List Char)} {m : Member}
    (hlines : Forall₂ Lexer.IsLine lines (m :: members))
    (hmembers : Forall₂ Member.Gives (m :: members) entries)
    (hkeys : entries.Pairwise fun a e => a.1.sameKey e.1 = false) :
    load (Text.ofChars (List.intercalate ['\n'] lines)) = .ok (.ofEntries entries) := by
  rw [load, tokens_lines hlines]
  simp only [ofTokens?_members]
  exact toGraph_ofMembers hmembers hkeys

end AgentConfig.Yaml

namespace AgentConfig.Yaml

open List Text Print

variable {name : Text} {members : Json.Members} {entries : List (Value × Value)}
  {member : Text × Json} {entry : Value × Value}

namespace Print

theorem plainRuns_false (indent column : Nat) (all : List Text) :
    plainRuns false indent column all = all.flatten := by
  induction all generalizing column with
  | nil => rfl
  | cons run rest ih => simp [plainRuns, ih]

theorem scalar_false (indent column : Nat) (h : isPlain name = true) :
    scalar false indent column name = name := by
  rw [scalar, if_pos h, plain, plainRuns_false, flatten_runs]

theorem scalarTag_isPlain (text : Text) : Node.scalarTag none (isPlain text) text = .str := by
  change (if isPlain text = true then Tag.ofPlain text else .str) = .str
  split
  next h =>
    simp only [isPlain, Bool.and_eq_true, beq_iff_eq] at h
    exact h.2
  next => rfl

end Print

open Lexer (Member IsLine IsName)

theorem isName_of_isPlain {written : List Char} (hplain : isPlain name = true)
    (hsimple : isSimpleName name = true) (hwritten : name = ofChars written) :
    IsName written := by
  obtain ⟨l, rest, rfl, h⟩ := plainText_of_isPlain hplain
  have htake : (l :: rest).take 3 = ofChars (written.take 3) := by
    rw [hwritten, ofChars, ← map_take]
    rfl
  have hlength : (l :: rest).length = written.length := by
    rw [hwritten, ofChars, length_map]
  simp only [isSimpleName, Bool.and_eq_true, decide_eq_true_eq] at hsimple
  refine ⟨fun ch hch => ?_, by omega, fun hdashes => h.dashes ?_, fun hdots => h.dots ?_⟩
  · obtain ⟨d, hd, hvisible⟩ := h.flows.visible (.char ch)
      (by rw [hwritten]; exact mem_map_of_mem hch)
    rwa [Letter.char.inj hd]
  · rw [htake, hdashes]
    rfl
  · rw [htake, hdots]
    rfl

/-- `IsPrintable member entry`: a member with a plain name and a text or a truth value as its value,
and the entry it is read as. -/
structure IsPrintable (member : Text × Json) (entry : Value × Value) : Prop where
  isPlain : isPlain member.1 = true
  isSimple : isSimpleName member.1 = true
  key_eq : entry.1 = .str member.1
  value_eq : (∃ s, member.2 = .str s ∧ entry.2 = .str s) ∨
    ∃ b, member.2 = .bool b ∧ entry.2 = .bool b

theorem IsPrintable.str (hplain : Print.isPlain name = true)
    (hsimple : Print.isSimpleName name = true) (s : Text) :
    IsPrintable (name, .str s) (.str name, .str s) :=
  ⟨hplain, hsimple, rfl, .inl ⟨s, rfl, rfl⟩⟩

theorem IsPrintable.bool (hplain : Print.isPlain name = true)
    (hsimple : Print.isSimpleName name = true) (b : Bool) :
    IsPrintable (name, .bool b) (.str name, .bool b) :=
  ⟨hplain, hsimple, rfl, .inr ⟨b, rfl, rfl⟩⟩

theorem isScalar_bool (b : Bool) :
    IsScalar (if b then "true".toList else "false".toList) (if b then "true" else "false")
      true := by
  cases b with
  | _ => exact .plain (.word ⟨by decide, by simp [IsInk], by decide, by decide⟩) ⟨by simp, by simp⟩

theorem IsPrintable.exists_value (h : IsPrintable member entry) (column : Nat) :
    ∃ written text plain, afterName 0 column member.2 = " " ++ ofChars written ∧
      IsScalar written text plain ∧
      (Node.scalarTag none plain text = .str ∨ Node.scalarTag none plain text = .bool) ∧
      ∀ place, scalarValue (Node.scalarTag none plain text) place text = .ok entry.2 := by
  rcases h.value_eq with ⟨s, hs, hentry⟩ | ⟨b, hb, hentry⟩
  · obtain ⟨written, hwritten, hscalar⟩ := exists_scalar true 1 (column + 1) s (by decide)
    refine ⟨written, s, _, ?_, hscalar, .inl (scalarTag_isPlain s), fun place => ?_⟩
    · rw [hs, afterName, Print.inline, hwritten]
      rintro _ _ ⟨⟩
      rintro _ _ ⟨⟩
    · rw [scalarTag_isPlain, hentry]
      rfl
  · have htag : Node.scalarTag none true (if b then "true" else "false") = .bool := by
      cases b <;> decide
    have hvalue : boolOf (if b then "true" else "false") = .ok b := by cases b <;> rfl
    refine ⟨_, _, true, ?_, isScalar_bool b, .inr htag, fun place => ?_⟩
    · rw [hb, afterName, Print.inline]
      · cases b <;> rfl
      · rintro _ _ ⟨⟩
      · rintro _ _ ⟨⟩
    · rw [htag, scalarValue, hvalue, hentry]
      rfl

theorem IsPrintable.exists_line (h : IsPrintable member entry) :
    ∃ written m, Print.opening 0 member.1 ++
        Print.afterName 0 (0 + (Print.opening 0 member.1).length) member.2 =
        ofChars written ∧ IsLine written m ∧ m.Gives entry := by
  obtain ⟨name, v⟩ := member
  obtain ⟨written, hwritten, hname⟩ := Print.exists_scalar false 1 0 name (by decide)
  obtain ⟨value, text, plain, hvalue, hscalar, htag, hread⟩ :=
    h.exists_value (0 + (Print.opening 0 name).length)
  refine ⟨written ++ ':' :: ' ' :: value, ⟨name, Print.isPlain name, text, plain⟩, ?_,
    ⟨written, value, rfl, hname, ?_, hscalar⟩, h.key_eq, Print.scalarTag_isPlain name, htag, hread⟩
  · have hopening : Print.opening 0 name = ofChars written ++ ":" := by
      rw [Print.opening, if_pos h.isSimple, hwritten]
    rw [hvalue, hopening]
    simp [ofChars, ofString]
  · refine isName_of_isPlain h.isPlain h.isSimple ?_
    rw [← hwritten, Print.scalar_false _ _ h.isPlain]

theorem ofChars_intercalate (lines : List (List Char)) : ofChars (List.intercalate ['\n'] lines) =
      Text.intercalate "\n" (lines.map ofChars) := by
  induction lines with
  | nil => rfl
  | cons line lines ih =>
    cases lines with
    | nil => simp [Text.intercalate]
    | cons next lines =>
      rw [intercalate_cons_cons, map_cons, map_cons, Text.intercalate,
        intercalate_cons_cons, ← map_cons, ← Text.intercalate, ← ih]
      simp [ofChars, ofString]

theorem exists_lines (h : Forall₂ IsPrintable members entries) :
    ∃ lines ms, print members = ofChars (List.intercalate ['\n'] lines) ∧
      Forall₂ IsLine lines ms ∧ Forall₂ Member.Gives ms entries := by
  suffices hnamed : ∃ lines ms, Print.named 0 members = lines.map ofChars ∧
      Forall₂ IsLine lines ms ∧ Forall₂ Member.Gives ms entries by
    obtain ⟨lines, ms, hnamed, hlines⟩ := hnamed
    exact ⟨lines, ms, by rw [print, hnamed, ofChars_intercalate], hlines⟩
  induction h with
  | nil => exact ⟨[], [], rfl, .nil, .nil⟩
  | @cons member entry members entries hmember _ ih =>
    obtain ⟨lines, ms, hnamed, hlines, hgives⟩ := ih
    obtain ⟨written, m, hwritten, hline, hm⟩ := hmember.exists_line
    refine ⟨written :: lines, m :: ms, ?_, .cons hline hlines, .cons hm hgives⟩
    rw [Print.named, if_pos hmember.isSimple, hwritten, hnamed, map_cons]

theorem pairwise_of_isPrintable (h : Forall₂ IsPrintable members entries)
    (hkeys : (members.map (·.1)).Nodup) :
    entries.Pairwise fun a e => a.1.sameKey e.1 = false := by
  induction h with
  | nil => exact .nil
  | @cons member entry members entries hmember hmembers ih =>
    rw [map_cons, nodup_cons] at hkeys
    refine .cons (fun e he => ?_) (ih hkeys.2)
    obtain ⟨other, hother, hprints⟩ := Outcome.exists_of_forall₂ hmembers he
    have hne : member.1 ≠ other.1 := fun heq => hkeys.1 (heq ▸ mem_map_of_mem hother)
    rw [hmember.key_eq, hprints.key_eq]
    simpa [Value.sameKey] using hne

theorem load_print (hne : members ≠ []) (h : Forall₂ IsPrintable members entries)
    (hkeys : (members.map (·.1)).Nodup) :
    load (print members) = .ok (.ofEntries entries) := by
  obtain ⟨lines, ms, hprint, hlines, hgives⟩ := exists_lines h
  have hpairwise := pairwise_of_isPrintable h hkeys
  cases hgives with
  | nil =>
    cases h
    exact absurd rfl hne
  | cons hm hgives =>
    rw [hprint]
    exact load_lines hlines (.cons hm hgives) hpairwise

end AgentConfig.Yaml
