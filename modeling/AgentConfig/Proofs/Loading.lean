import AgentConfig.Console.Run
import AgentConfig.Proofs.Config
import AgentConfig.Proofs.HeaderLines

namespace AgentConfig

open List Outcome Header Text Yaml AgentConfig.Path

open Outcome (FailsAsFirst FailsOnly First)

variable {text : Text}

namespace Header

open Yaml (Fault Graph Mapping Value)

variable {g : Graph} {v : Value} {fault : Fault} {m : Mapping} {text body : Text}

/-- The values whose texts a setting is made of: a single value is a list of one. -/
def listed (g : Graph) : Value → List Value
  | .null => []
  | value => (g.items? value).getD [value]

def single : Value → List Value
  | .null => []
  | value => [value]

/-- The values in a header of which the text is asked. -/
def asked (m : Mapping) : List Value :=
  let get (key : Text) : Value := (m.get? key).getD .null
  listed m.graph (get "globs") ++ (single (get "description") ++ (listed m.graph (get "aliases") ++
    (single (get "model") ++ listed m.graph (get "tools"))))

/-- The fault of a value without a text. -/
def HasNoText (g : Graph) (v : Value) (fault : Fault) : Prop := g.text v = .error fault

theorem listOf_fails (g : Graph) (v : Value) :
    FailsAsFirst (HasNoText g) (listed g v) (listOf g v) := by
  have hitems (items : List Value) :
      FailsAsFirst (HasNoText g) items (some <$> items.mapM g.text) := by
    have h : FailsAsFirst (HasNoText g) (items.flatMap fun v => [v]) (items.mapM g.text) :=
      .mapM fun v _ => .one fun _ => Iff.rfl
    rw [flatMap_singleton'] at h
    exact h.map some
  cases v with
  | null => exact .ok _
  | _ => exact hitems _

theorem textOf_fails (g : Graph) (v : Value) :
    FailsAsFirst (HasNoText g) (single v) (textOf g v) := by
  cases v with
  | null => exact .ok _
  | _ => exact (FailsAsFirst.one fun _ => Iff.rfl).map some

theorem ofMapping_fails (m : Mapping) : FailsAsFirst (HasNoText m.graph) (asked m) (ofMapping m) :=
  (listOf_fails _ _).bind fun _ _ => (textOf_fails _ _).bind fun _ _ =>
    (listOf_fails _ _).bind fun _ _ => (textOf_fails _ _).bind fun _ _ =>
      (listOf_fails _ _).bind_ok

theorem first_hasNoText {values : List Value}
    (hv : v ∈ values) (h : g.text v = .error fault) : First (HasNoText g) values fault := by
  -- Every value without a text has the same fault, so it does not matter which one is met first.
  have hex : ∃ first, First (HasNoText g) values first :=
    exists_first fun hall => hall v hv fault h
  obtain ⟨first, hfirst⟩ := hex
  obtain ⟨w, -, hw⟩ := hfirst.exists_mem
  rwa [(g.text_fails v fault h).1, ← (g.text_fails w first hw).1]

theorem asked_eq_nil (h : m.entries = []) : asked m = [] := by
  have hnone (key : Text) : m.get? key = none := by
    rw [Mapping.get?, h]
    rfl
  simp only [asked, hnone]
  rfl

theorem split_eq_error : split text = .error fault ↔
    ∃ block body, parts? text = some (block, body) ∧ Yaml.load block = .error fault ∧
      fault ≠ .malformed := by
  rw [split, splitWith]
  constructor
  · intro h
    split at h
    · cases h
    next block body hparts =>
      split at h
      next => cases h
      next hne hload =>
        cases h
        exact ⟨block, body, hparts, hload, fun heq => hne (heq ▸ rfl)⟩
      next =>
        split at h
        · split at h <;> cases h
        · cases h
  · rintro ⟨block, body, hparts, hload, hne⟩
    simp only [hparts, hload]

theorem split_eq_ok (hasked : asked m ≠ []) :
    split text = .ok (m, body) ↔ ∃ block, parts? text = some (block, body) ∧
      Yaml.load block = .ok m.graph ∧ m.graph.entries? m.graph.root = some m.entries := by
  have hentries : m.entries ≠ [] := fun heq => hasked (asked_eq_nil heq)
  rw [split, splitWith]
  constructor
  · intro h
    split at h
    · cases h
      exact absurd rfl hentries
    next block body' hparts =>
      split at h
      next =>
        cases h
        exact absurd rfl hentries
      next => cases h
      next g hload =>
        split at h
        · rw [Mapping.ofGraph?] at h
          cases hroot : g.entries? g.root with
          | none =>
            rw [hroot] at h
            cases h
            exact absurd rfl hentries
          | some entries =>
            rw [hroot] at h
            cases h
            exact ⟨block, hparts, hload, hroot⟩
        · cases h
          exact absurd rfl hentries
  · rintro ⟨block, hparts, hload, hroot⟩
    have hmapping : Mapping.ofGraph? m.graph = some m := by rw [Mapping.ofGraph?, hroot]; rfl
    simp only [hparts, hload, Mapping.isTruthy_of_ofGraph? hmapping hentries, if_true, hmapping]

end Header

/-- The ways in which the header of a text cannot be read. A header that breaks the rules of YAML is
none of them: it counts as text of the document. -/
inductive Document.Refuses (text : Text) : Fault → Prop
  /-- A scalar has the form of its kind and no value. -/
  | scalar {block body : Text} {fault : Fault}
    (hparts : Header.parts? text = some (block, body)) (h : Yaml.load block = .error fault)
    (hne : fault ≠ .malformed) : Refuses text fault
  /-- A setting has no text. -/
  | value {block body : Text} {g : Yaml.Graph} {entries : List (Value × Value)}
    {v : Value} {fault : Fault} (hparts : Header.parts? text = some (block, body))
    (hload : Yaml.load block = .ok g) (hroot : g.entries? g.root = some entries)
    (hv : v ∈ Header.asked ⟨g, entries⟩) (h : g.text v = .error fault) : Refuses text fault

theorem Document.ofText_eq_error {fault : Fault} :
    ofText text = .error fault ↔ Refuses text fault := by
  rw [ofText, bind_eq_error, split_eq_error]
  constructor
  · rintro (⟨block, body, hparts, h, hne⟩ | ⟨⟨m, body⟩, hsplit, h⟩)
    · exact .scalar hparts h hne
    · have hfirst := ((ofMapping_fails m).bind_ok fault).mp h
      obtain ⟨v, hv, h⟩ := hfirst.exists_mem
      obtain ⟨block, hparts, hload, hroot⟩ :=
        (split_eq_ok (ne_nil_of_mem hv)).mp hsplit
      exact .value hparts hload hroot hv h
  · intro h
    cases h with
    | scalar hparts h hne => exact .inl ⟨_, _, hparts, h, hne⟩
    | @value block body g entries v _ hparts hload hroot hv h =>
      have hsplit := (split_eq_ok (m := ⟨g, entries⟩) (ne_nil_of_mem hv)).mpr
        ⟨block, hparts, hload, hroot⟩
      refine .inr ⟨_, hsplit, ((ofMapping_fails _).bind_ok fault).mpr ?_⟩
      exact first_hasNoText hv h

/-- The ways in which a text is no configuration, each with the fault that is told of it, in the
order in which they are looked for. -/
inductive Config.Refuses (text : Text) : ConfigFault → Prop
  | malformed (h : Yaml.load text = .error .malformed) : Refuses text .malformed
  | notMapping {g : Yaml.Graph} (hload : Yaml.load text = .ok g) (h : g.entries? g.root = none) :
    Refuses text .notMapping
  | violations {g : Yaml.Graph} {entries : List (Value × Value)} {found : List Violation}
    (hload : Yaml.load text = .ok g) (hroot : g.entries? g.root = some entries)
    (h : (schema Profile.defaultNames).violations g [] g.root = .ok found) (hne : found ≠ []) :
    Refuses text (.violations (Violation.sort found))
  /-- A scalar has the form of its kind and no value. -/
  | scalar {fault : Fault} (h : Yaml.load text = .error fault) (hne : fault ≠ .malformed) :
    Refuses text (.value fault)
  /-- A value that does not fit the schema cannot be quoted in a message. -/
  | value {g : Yaml.Graph} {entries : List (Value × Value)} {fault : Fault}
    (hload : Yaml.load text = .ok g) (hroot : g.entries? g.root = some entries)
    (h : (schema Profile.defaultNames).violations g [] g.root = .error fault) :
    Refuses text (.value fault)

theorem Config.parse_eq_error {fault : ConfigFault} :
    parse [] text = .error fault ↔ Refuses text fault := by
  have hplatforms : (if ([] : List Text).isEmpty then Profile.defaultNames else []) =
      Profile.defaultNames := rfl
  rw [parse, parseWith]
  constructor
  · intro h
    split at h
    next hload =>
      cases h
      exact .malformed hload
    next hne hload =>
      cases h
      exact .scalar hload fun heq => hne (heq ▸ rfl)
    next g hload =>
      rw [ofGraph, Mapping.ofGraph?] at h
      cases hroot : g.entries? g.root with
      | none =>
        rw [hroot] at h
        cases h
        exact .notMapping hload hroot
      | some entries =>
        rw [hroot] at h
        dsimp only [Option.map_some] at h
        split at h
        next hvalue =>
          cases h
          exact .value hload hroot hvalue
        next hnil =>
          obtain ⟨c, hok⟩ := exists_ofMapping hroot hnil
          cases hok.symm.trans h
        next hne hfound =>
          cases h
          exact .violations hload hroot hfound hne
  · intro h
    cases h with
    | malformed h => rw [h]
    | notMapping hload h => simp [hload, ofGraph, Mapping.ofGraph?, h]
    | violations hload hroot h hne =>
      simp only [hload, ofGraph, Mapping.ofGraph?, hroot, Option.map_some, hplatforms, h]
    | scalar h hne => simp only [h]
    | value hload hroot h =>
      simp only [hload, ofGraph, Mapping.ofGraph?, hroot, Option.map_some, hplatforms, h]

namespace Source

variable {t : FileTree} {f : Failure}

/-- What loading looks at: places, which must not be too long, the source directory, the
configuration, and documents with their bytes. -/
inductive Part where
  /-- A path that is looked up. -/
  | place (path : List Text)
  /-- The source directory of the project at `root`. -/
  | source (root : List Text)
  /-- The file of the configuration. -/
  | config (path : List Text)
  | document (path : List Text) (bytes : ByteArray)

def refusal (path : List Text) : ConfigFault → Failure
  | .value fault => .value fault
  | fault => .invalidConfig (Path.absolute path) fault

/-- The ways in which a part is at fault, each with the failure that loading ends with if the part
is the first one. -/
inductive Part.Fails (t : FileTree) : Part → Failure → Prop
  | tooLong {path : List Text} (h : t.entry? path = .error .nameTooLong) :
    Fails t (.place path) (.file .nameTooLong (Path.absolute path))
  | noSource {root : List Text} (h : t.entry? (child root directory) ≠ .ok (some .dir)) :
    Fails t (.source root) (.noSource (Path.absolute root))
  | noConfig {path : List Text} (h : ∀ bytes, t.entry? path ≠ .ok (some (.file bytes))) :
    Fails t (.config path) (.noConfig (Path.absolute path))
  | unreadableConfig {path : List Text} {bytes : ByteArray}
    (hfile : t.entry? path = .ok (some (.file bytes))) (h : ∀ text, readText bytes ≠ .ok text) :
    Fails t (.config path) (.unreadable (Path.absolute path))
  | config {path : List Text} {bytes : ByteArray} {text : Text} {fault : ConfigFault}
    (hfile : t.entry? path = .ok (some (.file bytes))) (htext : readText bytes = .ok text)
    (h : Config.Refuses text fault) : Fails t (.config path) (refusal path fault)
  | unreadable {path : List Text} {bytes : ByteArray} (h : ∀ text, readText bytes ≠ .ok text) :
    Fails t (.document path bytes) (.unreadable (Path.absolute path))
  | document {path : List Text} {bytes : ByteArray} {text : Text} {fault : Fault}
    (htext : readText bytes = .ok text) (h : Document.Refuses text fault) :
    Fails t (.document path bytes) (.value fault)

def documentParts (t : FileTree) (dir : List Text) : List Part :=
  let files := (t.children dir).filterMap fun name =>
    match t.get? (child dir name) with
    | some (.file bytes) => if isDocumentName name then some (name, bytes) else none
    | _ => none
  files.flatMap fun file => [.document (child dir file.1) file.2]

def skillPart (t : FileTree) (dir : List Text) (name : Text) : List Part :=
  let path := child (child dir name) skillFileName
  match t.get? path with
  | some (.file bytes) => [.document path bytes]
  | _ => []

def skillParts (t : FileTree) (dir : List Text) : List Part :=
  let dirs := (t.children dir).filter fun name => t.get? (child dir name) == some .dir
  dirs.flatMap (skillPart t dir)

/-- A directory that may be missing, and its parts. -/
def folderParts (t : FileTree) (dir : List Text) (inside : List Part) : List Part :=
  .place dir :: match t.entry? dir with
    | .ok (some .dir) => inside
    | _ => []

def partsBelow (t : FileTree) (dir : List Text) : List Part :=
  let documents (name : Text) : List Part :=
    folderParts t (child dir name) (documentParts t (child dir name))
  let skills := child dir "skills"
  documents "rules" ++
    (documents "commands" ++ (folderParts t skills (skillParts t skills) ++ documents "agents"))

def parts (t : FileTree) (root : List Text) : List Part :=
  let dir := child root directory
  let configPath := child dir "config.yaml"
  .place dir :: .source root :: .place configPath :: .config configPath :: partsBelow t dir

section Loading

variable {path dir : List Text} {bytes : ByteArray} {α : Type}

theorem atPath_fails (look : Option FileEntry → α) (path : List Text) :
    FailsAsFirst (Part.Fails t) [.place path] (Failure.atPath path ((t.entry? path).map look)) := by
  refine .one fun f => ⟨fun h => ?_, fun h => ?_⟩
  · obtain ⟨fault, hfault, rfl⟩ := mapError_eq_error.mp h
    have hentry : t.entry? path = .error fault := by
      cases hentry : t.entry? path with
      | error e => simpa [hentry, Except.map] using hfault
      | ok entry => simp [hentry, Except.map] at hfault
    obtain rfl : fault = .nameTooLong := by
      rw [FileTree.entry?] at hentry
      split at hentry <;> cases hentry
      rfl
    exact .tooLong hentry
  · cases h with
    | tooLong h =>
      rw [h]
      rfl

theorem textOf_eq_error : textOf path bytes = .error f ↔
    (∀ text, readText bytes ≠ .ok text) ∧ f = .unreadable (Path.absolute path) := by
  rw [textOf, mapError_eq_error]
  cases readText bytes with
  | error e => simp [eq_comm]
  | ok text => simp

def configOf (path : List Text) (bytes : ByteArray) : Except Failure Config := do
  let text ← textOf path bytes
  (Config.parse [] text).mapError (refusal path)

theorem configOf_fails (hfile : t.entry? path = .ok (some (.file bytes))) :
    FailsAsFirst (Part.Fails t) [.config path] (configOf path bytes) := by
  refine .one fun f => ?_
  rw [configOf, bind_eq_error, textOf_eq_error]
  constructor
  · rintro (⟨h, rfl⟩ | ⟨text, htext, h⟩)
    · exact .unreadableConfig hfile h
    · obtain ⟨fault, hfault, rfl⟩ := mapError_eq_error.mp h
      exact .config hfile (mapError_eq_ok.mp htext) (Config.parse_eq_error.mp hfault)
  · intro h
    cases h with
    | noConfig h => exact absurd hfile (h bytes)
    | unreadableConfig hfile' h =>
      cases hfile.symm.trans hfile'
      exact .inl ⟨h, rfl⟩
    | config hfile' htext h =>
      cases hfile.symm.trans hfile'
      refine .inr ⟨_, mapError_eq_ok.mpr htext, ?_⟩
      exact mapError_eq_error.mpr ⟨_, Config.parse_eq_error.mpr h, rfl⟩

theorem noConfig_iff (h : ∀ bytes, t.entry? path ≠ .ok (some (.file bytes))) (f : Failure) :
    Part.Fails t (.config path) f ↔ f = .noConfig (Path.absolute path) := by
  constructor
  · intro hf
    cases hf with
    | noConfig _ => rfl
    | unreadableConfig hfile _ => exact absurd hfile (h _)
    | config hfile _ _ => exact absurd hfile (h _)
  · rintro rfl
    exact .noConfig h

theorem documentOf_fails :
    FailsAsFirst (Part.Fails t) [.document path bytes] (documentOf path bytes) := by
  refine .one fun f => ?_
  rw [documentOf, bind_eq_error, textOf_eq_error]
  constructor
  · rintro (⟨h, rfl⟩ | ⟨text, htext, h⟩)
    · exact .unreadable h
    · obtain ⟨fault, hfault, rfl⟩ := mapError_eq_error.mp h
      exact .document (mapError_eq_ok.mp htext) (Document.ofText_eq_error.mp hfault)
  · intro h
    cases h with
    | unreadable h => exact .inl ⟨h, rfl⟩
    | document htext h =>
      refine .inr ⟨_, mapError_eq_ok.mpr htext, ?_⟩
      exact mapError_eq_error.mpr ⟨_, Document.ofText_eq_error.mpr h, rfl⟩

theorem folder_fails {x : Except Failure (List α)} (h : FailsAsFirst (Part.Fails t) inside x) :
    FailsAsFirst (Part.Fails t) (folderParts t dir inside)
      (Failure.atPath dir (t.isDir? dir) >>= fun found => if !found then .ok [] else x) := by
  refine (atPath_fails _ dir).bind fun found hfound => ?_
  obtain ⟨entry, hentry, rfl⟩ : ∃ entry, t.entry? dir = .ok entry ∧ (entry == some .dir) = found :=
    map_eq_ok.mp (mapError_eq_ok.mp hfound)
  rw [hentry]
  by_cases hdir : entry = some .dir
  · subst hdir
    exact h
  have hfalse : (entry == some .dir) = false := by simpa using hdir
  rw [hfalse]
  split
  next heq => exact absurd (Except.ok.inj heq) hdir
  next => exact .ok _

theorem documentsIn_fails (dir : List Text) :
    FailsAsFirst (Part.Fails t) (folderParts t dir (documentParts t dir)) (documentsIn t dir) :=
  folder_fails (.mapM fun _ _ => documentOf_fails.bind_ok)

theorem skill?_fails (dir : List Text) (name : Text) :
    FailsAsFirst (Part.Fails t) (skillPart t dir name) (skill? t dir name) := by
  unfold skillPart skill?
  dsimp only
  generalize t.get? (child (child dir name) skillFileName) = entry
  match entry with
  | some (.file bytes) => exact documentOf_fails.bind_ok
  | some .dir => exact .ok _
  | none => exact .ok _

theorem skillsIn_fails (dir : List Text) :
    FailsAsFirst (Part.Fails t) (folderParts t dir (skillParts t dir)) (skillsIn t dir) := by
  have hskills := FailsAsFirst.mapM fun name (_ : name ∈ (t.children dir).filter fun name =>
    t.get? (child dir name) == some .dir) => skill?_fails (t := t) dir name
  exact folder_fails hskills.bind_ok

/-- What is read after the configuration fails as the first part below the source directory does. -/
theorem rest_fails (dir : List Text)
    (make : List SourceDocument → List SourceDocument → List SourceSkill →
      List SourceDocument → α) :
    FailsAsFirst (Part.Fails t) (partsBelow t dir) (do
      let rules ← documentsIn t (child dir "rules")
      let commands ← documentsIn t (child dir "commands")
      let skills ← skillsIn t (child dir "skills")
      let agents ← documentsIn t (child dir "agents")
      .ok (make rules commands skills agents)) :=
  (documentsIn_fails _).bind fun _ _ => (documentsIn_fails _).bind fun _ _ =>
    (skillsIn_fails _).bind fun _ _ => (documentsIn_fails _).bind_ok

/-- The configuration is looked up and read before all that stands below the source directory. -/
theorem configured_fails {rest : Config → Except Failure α} (path : List Text)
    (hrest : ∀ config, FailsAsFirst (Part.Fails t) ps (rest config)) :
    FailsAsFirst (Part.Fails t) (.place path :: .config path :: ps) (do
      match ← Failure.atPath path (t.file? path) with
      | none => throw (.noConfig (Path.absolute path))
      | some bytes => configOf path bytes >>= rest) := by
  refine (atPath_fails _ _).bind fun file hfile => ?_
  obtain ⟨entry, hentry, rfl⟩ := map_eq_ok.mp (mapError_eq_ok.mp hfile)
  match entry with
  | some (.file bytes) => exact (configOf_fails hentry).bind fun config _ => hrest config
  | some .dir => exact .error (noConfig_iff (by simp [hentry]))
  | none => exact .error (noConfig_iff (by simp [hentry]))

/-- Loading fails as the first part does that is at fault, in the order in which the parts are
looked at. If none is at fault, it has a result. -/
theorem load_fails (t : FileTree) (root : List Text) :
    FailsAsFirst (Part.Fails t) (parts t root) (load t root) := by
  refine (atPath_fails _ _).bind fun found hfound => ?_
  obtain ⟨entry, hentry, rfl⟩ : ∃ entry, t.entry? (child root directory) = .ok entry ∧
      (entry == some .dir) = found :=
    map_eq_ok.mp (mapError_eq_ok.mp hfound)
  split
  next hnone =>
    refine .error fun f => ⟨?_, ?_⟩
    · rintro ⟨⟩
      rfl
    rintro rfl
    refine .noSource fun hdir => ?_
    rw [hentry, Except.ok.injEq] at hdir
    simp [hdir] at hnone
  next hsome =>
    refine .skip ?_ ?_
    · intro f hf
      cases hf with
      | noSource hdir =>
        rw [hentry] at hdir
        exact hdir (congrArg _ (by simpa using hsome))
    · have hload := configured_fails (t := t)
        (child (child root directory) "config.yaml") fun config =>
          rest_fails (child root directory) (Source.mk config)
      simp only [configOf, bind_assoc] at hload
      exact hload

end Loading

/-- The failures of loading that blame no source and so are not told to the user. -/
inductive IsUntold : Failure → Prop
  | value {fault : Fault} (h : fault ≠ .malformed) : IsUntold (.value fault)
  | path (path : Text) : IsUntold (.file .nameTooLong path)

theorem Part.Fails.isUntold {part : Part} (h : part.Fails t f)
    (htold : f.isConfiguration = false) : IsUntold f := by
  cases h with
  | tooLong _ => exact .path _
  | config _ _ h =>
    cases h with
    | scalar _ hne => exact .value hne
    | value _ _ h =>
      rw [(Config.Schema.violations_fails _ _ _ _ _ h).1]
      exact .value nofun
    | _ => cases htold
  | document _ h =>
    cases h with
    | scalar _ _ hne => exact .value hne
    | value _ _ _ _ h =>
      rw [(Yaml.Graph.text_fails _ _ _ h).1]
      exact .value nofun
  | _ => cases htold

theorem runValidate_of_error {p : Project} (h : load t p.root = .error f) :
    Console.runValidate p t =
      if f.isConfiguration then
        .ok ({ code := 2, err := [Console.withoutColour ("Error: " ++ f.message)] }, t)
      else .error ⟨f, t⟩ := by
  rw [Console.runValidate, h]
  dsimp only
  rw [Console.told]
  split
  · rfl
  · rfl

/-- Loading has a result exactly if no part of the sources is at fault, and else fails as the first
one that is. That failure blames the sources, and the user reads its message; or a scalar has no
value, a value has no text or a path is too long, and the program halts. -/
theorem load_fails_as_first_faulty_part (p : Project) (t : FileTree) :
    ((∃ source, load t p.root = .ok source) ↔
        ∀ part ∈ parts t p.root, ∀ f, ¬ part.Fails t f) ∧
      ∀ f, (load t p.root = .error f ↔ First (Part.Fails t) (parts t p.root) f) ∧
        (load t p.root = .error f →
          f.isConfiguration = true ∧ Console.runValidate p t =
            .ok ({ code := 2, err := [Console.withoutColour ("Error: " ++ f.message)] }, t) ∨
          IsUntold f ∧ f.isConfiguration = false ∧ Console.runValidate p t = .error ⟨f, t⟩) := by
  have hload := load_fails t p.root
  refine ⟨hload.exists_ok_iff, fun f => ⟨hload f, fun hf => ?_⟩⟩
  rw [runValidate_of_error hf]
  cases htold : f.isConfiguration with
  | true => exact .inl ⟨rfl, rfl⟩
  | false =>
    obtain ⟨part, -, hpart⟩ := ((hload f).mp hf).exists_mem
    exact .inr ⟨hpart.isUntold htold, rfl, rfl⟩

/-- A project whose configuration gives a day that is none as its version. -/
def datedTree : FileTree :=
  ⟨[(["p", ".agentrc", "config.yaml"],
      .file ((bytes? "version: 2024-13-45\n").getD ⟨#[]⟩)),
    (["p", ".agentrc"], .dir), (["p"], .dir)]⟩

theorem impossible_date_ends_loading :
    ∃ f, load datedTree ["p"] = .error f ∧ f.isConfiguration = false ∧
      f.message = "month must be in 1..12" := by
  have h : Outcome.fails (fun f => f.isConfiguration == false &&
      f.message == ("month must be in 1..12" : Text)) (load datedTree ["p"]) = true := by
    decide +kernel
  obtain ⟨f, hf, hmessage⟩ := Outcome.exists_of_fails h
  simp only [Bool.and_eq_true, beq_iff_eq] at hmessage
  exact ⟨f, hf, hmessage⟩

end Source

end AgentConfig
