import AgentConfig.Config
import AgentConfig.Proofs.Outcome

namespace AgentConfig

open List Outcome

open Outcome (FailsOnly)

namespace Yaml

def Fault.oversized : Fault :=
  .unconvertible ("Exceeds the limit (4300 digits) for integer string conversion; " ++
    "use sys.set_int_max_str_digits() to increase the limit")

def Value.IsOversized (v : Value) : Prop := ∃ n : Int, v = .int n ∧ Nat.pow 10 maxDigits ≤ n.natAbs

def Cell.values : Cell → List Value
  | .seq items => items
  | .pair key value => [key, value]
  | .set items => items
  | .map entries => entries.flatMap fun e => [e.1, e.2]

namespace Graph

variable {g : Graph} {v w : Value} {fault : Fault} {items : List Value}
  {entries : List (Value × Value)}

def HoldsOversized (g : Graph) : Prop := ∃ cell ∈ g.cells, ∃ v ∈ cell.values, v.IsOversized

/-- The fault of a value that cannot be quoted. -/
def Unquotable (g : Graph) (v : Value) (fault : Fault) : Prop :=
  fault = .oversized ∧ (v.IsOversized ∨ g.HoldsOversized)

theorem Unquotable.of_mem {cell : Cell} (h : g.Unquotable w fault) (hcell : g.cell? v = some cell)
    (hw : w ∈ cell.values) : g.Unquotable v fault := by
  refine ⟨h.1, .inr (h.2.elim (fun hlarge => ⟨cell, ?_, w, hw, hlarge⟩) id)⟩
  cases v with
  | cell place => exact Array.mem_of_getElem? hcell
  | _ => cases hcell

theorem cell?_of_items? (h : g.items? v = some items) : g.cell? v = some (.seq items) := by
  unfold items? at h
  split at h
  next hcell => rwa [Option.some.inj h] at hcell
  next => cases h

theorem cell?_of_entries? (h : g.entries? v = some entries) : g.cell? v = some (.map entries) := by
  unfold entries? at h
  split at h
  next hcell => rwa [Option.some.inj h] at hcell
  next => cases h

theorem scalarLiteral_fails (g : Graph) (v : Value) :
    FailsOnly (g.Unquotable v) v.scalarLiteral := by
  cases v with
  | int n =>
    rw [Value.scalarLiteral, Value.intText]
    split
    next hlarge => exact .error ⟨rfl, .inl ⟨n, rfl, hlarge⟩⟩
    next => exact .ok _
  | _ => exact .ok _

theorem literalFrom_fails (g : Graph) (fuel : Nat) (path : List Nat) (v : Value) :
    FailsOnly (g.Unquotable v) (g.literalFrom fuel path v) := by
  induction fuel generalizing path v with
  | zero => cases v <;> exact scalarLiteral_fails g _
  | succ fuel ih =>
    cases v with
    | cell place =>
      rw [literalFrom]
      split
      next => exact .ok _
      next cell hcell =>
        have hinside (w : Value) (hw : w ∈ cell.values) :
            FailsOnly (g.Unquotable (.cell place)) (g.literalFrom fuel (place :: path) w) :=
          fun fault h => (ih _ w fault h).of_mem hcell hw
        split
        · exact .ok _
        split
        · exact (FailsOnly.mapM hinside).bind fun _ _ => .ok _
        · exact (hinside _ (by simp [Cell.values])).bind fun _ _ =>
            (hinside _ (by simp [Cell.values])).bind fun _ _ => .ok _
        · exact .ok _
        · exact (FailsOnly.mapM hinside).bind fun _ _ => .ok _
        next entries =>
          refine (FailsOnly.mapM fun entry hentry => ?_).bind fun _ _ => .ok _
          have hmem (w : Value) (hw : w ∈ [entry.1, entry.2]) : w ∈ (Cell.map entries).values :=
            mem_flatMap.mpr ⟨entry, hentry, hw⟩
          exact (hinside _ (hmem _ (by simp))).bind fun _ _ =>
            (hinside _ (hmem _ (by simp))).bind fun _ _ => .ok _
    | _ => exact scalarLiteral_fails g _

theorem literal_fails (g : Graph) (v : Value) : FailsOnly (g.Unquotable v) (g.literal v) :=
  literalFrom_fails g _ _ v

theorem text_fails (g : Graph) (v : Value) : FailsOnly (g.Unquotable v) (g.text v) := by
  unfold text
  split
  · exact .ok _
  · exact .ok _
  · exact .ok _
  · exact literal_fails g _

end Graph

end Yaml

namespace Config

open Yaml (Fault Graph Mapping Value)

variable {g : Graph} {v : Value} {path : List Text} {entries : List (Value × Value)}

namespace Schema

theorem wrongType_fails (g : Graph) (path : List Text) (value : Value) (type : Text) :
    FailsOnly (g.Unquotable value) (wrongType g path value type) :=
  (g.literal_fails value).bind fun _ _ => .ok _

theorem textViolations_fails (g : Graph) (path : List Text) (allowed : Option (List Text))
    (value : Value) : FailsOnly (g.Unquotable value) (textViolations g path allowed value) := by
  have hallowed : FailsOnly (g.Unquotable value) (notAllowed g path value allowed) := by
    unfold notAllowed
    split
    · exact .ok _
    · split
      · exact .ok _
      · exact (g.literal_fails value).bind fun _ _ => .ok _
  have hmore (found : List Violation) : FailsOnly (g.Unquotable value)
      (do return found ++ (← notAllowed g path value allowed)) := hallowed.bind fun _ _ => .ok _
  unfold textViolations
  split
  · exact hmore []
  · exact (wrongType_fails g path value _).bind fun _ _ => hmore _

theorem unexpected_fails (hv : g.entries? v = some entries) (path listed : List Text) :
    FailsOnly (g.Unquotable v) (unexpected path listed ⟨g, entries⟩) := by
  refine FailsOnly.bind ?_ fun keys _ => ?_
  · refine (FailsOnly.mapM fun key hkey => ?_).bind fun _ _ => .ok _
    obtain ⟨entry, hentry, rfl⟩ := mem_map.mp (mem_of_mem_filter hkey)
    have hmem : entry.1 ∈ (Yaml.Cell.map entries).values :=
      mem_flatMap.mpr ⟨entry, hentry, mem_cons_self⟩
    have hinside {fault : Fault} (h : g.Unquotable entry.1 fault) : g.Unquotable v fault :=
      h.of_mem (Graph.cell?_of_entries? hv) hmem
    exact FailsOnly.bind (fun fault h => hinside (g.text_fails _ fault h)) fun _ _ =>
      FailsOnly.bind (fun fault h => hinside (g.literal_fails _ fault h)) fun _ _ => .ok _
  · split
    · exact .ok _
    · exact .ok _

theorem mem_of_lookup? {name : Text} {w : Value} (h : Value.lookup? name entries = some w) :
    w ∈ (Yaml.Cell.map entries).values := by
  obtain ⟨entry, hentry, rfl⟩ := Option.map_eq_some_iff.mp h
  exact mem_flatMap.mpr ⟨entry, mem_of_find?_eq_some hentry, by simp⟩

mutual

/-- Checking a value ends with the list of its violations, unless it comes to a value that it cannot
quote. There is no other fault. -/
theorem violations_fails (g : Graph) (path : List Text) : (s : Schema) → (value : Value) →
    FailsOnly (g.Unquotable value) (s.violations g path value)
  | .text allowed, value => textViolations_fails g path allowed value
  | .list item, value => by
    rw [violations]
    split
    next items hitems =>
      refine FailsOnly.flatMapM fun entry hentry fault h => ?_
      exact (violations_fails g _ item entry.1 fault h).of_mem (Graph.cell?_of_items? hitems)
        (fst_mem_of_mem_zipIdx hentry)
    next => exact wrongType_fails g path value _
  | .mapping required properties, value => by
    rw [violations]
    split
    next entries hentries =>
      refine (propertyViolations_fails hentries path properties).bind fun _ _ => ?_
      exact (unexpected_fails hentries path _).bind fun _ _ => .ok _
    next => exact wrongType_fails g path value _

theorem propertyViolations_fails {g : Graph} {v : Value} {entries : List (Value × Value)}
    (hv : g.entries? v = some entries) (path : List Text) : (properties : List (Text × Schema)) →
      FailsOnly (g.Unquotable v) (propertyViolations path properties ⟨g, entries⟩)
  | [] => .ok _
  | (name, schema) :: rest => by
    have hrest (found : List Violation) : FailsOnly (g.Unquotable v)
        (do return found ++ (← propertyViolations path rest ⟨g, entries⟩)) :=
      (propertyViolations_fails hv path rest).bind fun _ _ => .ok _
    rw [propertyViolations]
    split
    next w hw =>
      refine FailsOnly.bind (fun fault h => ?_) fun _ _ => hrest _
      exact (violations_fails g _ schema w fault h).of_mem (Graph.cell?_of_entries? hv)
        (mem_of_lookup? hw)
    next => exact hrest []

end

def HasOnly (listed : List Text) (entries : List (Value × Value)) : Prop :=
  ∀ e ∈ entries, ∃ name ∈ listed, e.1 = .str name

/-- The values that fit a shape. A text is one of the allowed ones, and a mapping has the required
keys and none that the shape does not have. -/
inductive Fits (g : Graph) : Schema → Value → Prop
  | text {allowed : Option (List Text)} {text : Text}
    (h : ∀ texts, allowed = some texts → text ∈ texts) : Fits g (.text allowed) (.str text)
  | list {item : Schema} {v : Value} {items : List Value} (hv : g.items? v = some items)
    (h : ∀ w ∈ items, Fits g item w) : Fits g (.list item) v
  | mapping {required : List Text} {properties : List (Text × Schema)} {v : Value}
    {entries : List (Value × Value)} (hv : g.entries? v = some entries)
    (hrequired : ∀ key ∈ required, (Value.lookup? key entries).isSome = true)
    (h : ∀ p ∈ properties, ∀ w, Value.lookup? p.1 entries = some w → Fits g p.2 w)
    (honly : HasOnly (properties.map (·.1)) entries) : Fits g (.mapping required properties) v

theorem wrongType_ne_nil {type : Text} : wrongType g path v type ≠ .ok [] := by
  unfold wrongType
  cases g.literal v <;> simp [bind, Except.bind, pure, Except.pure]

theorem notAllowed_eq_nil_iff {allowed : Option (List Text)} {text : Text} :
    notAllowed g path (.str text) allowed = .ok [] ↔
      ∀ texts, allowed = some texts → text ∈ texts := by
  cases allowed with
  | none => simp [notAllowed]
  | some texts =>
    by_cases h : text ∈ texts
    · simp [notAllowed, Value.text?, h, pure, Except.pure]
    · cases hliteral : g.literal (.str text) <;>
        simp [notAllowed, Value.text?, h, hliteral, bind, Except.bind, pure, Except.pure]

theorem textViolations_eq_nil_iff {allowed : Option (List Text)} :
    textViolations g path allowed v = .ok [] ↔ Fits g (.text allowed) v := by
  cases v with
  | str text =>
    refine Outcome.append_eq_nil_iff.trans ?_
    rw [notAllowed_eq_nil_iff]
    constructor
    · rintro ⟨-, h⟩
      exact .text h
    · rintro ⟨h⟩
      exact ⟨rfl, h⟩
  | _ =>
    refine iff_of_false (fun h => ?_) nofun
    exact wrongType_ne_nil (Outcome.append_eq_nil_iff.mp h).1

theorem sameKey_str_iff {key : Value} {name : Text} :
    key.sameKey (.str name) = true ↔ key = .str name := by
  cases key <;> simp [Value.sameKey]

theorem unexpected_eq_nil_iff {listed : List Text} :
    unexpected path listed ⟨g, entries⟩ = .ok [] ↔ HasOnly listed entries := by
  have hextra : ((entries.map (·.1)).filter fun key =>
      !listed.any fun name => key.sameKey (.str name)) = [] ↔ HasOnly listed entries := by
    simp [filter_eq_nil_iff, HasOnly, sameKey_str_iff]
  constructor
  · intro h
    obtain ⟨keys, hkeys, h⟩ := bind_eq_ok.mp h
    obtain ⟨shown, hshown, hsorted⟩ := bind_eq_ok.mp hkeys
    have hlength := (mapM_eq_ok.mp hshown).length_eq
    refine hextra.mp (length_eq_zero_iff.mp (hlength.trans ?_))
    cases keys with
    | nil => simpa using congrArg List.length (Except.ok.inj hsorted)
    | cons key keys => cases h
  · intro h
    have hkeys : extraKeys listed ⟨g, entries⟩ = .ok [] := by
      rw [extraKeys, hextra.mpr h]
      simp [pure, Except.pure, bind, Except.bind]
    exact bind_eq_ok.mpr ⟨[], hkeys, rfl⟩

theorem missing_eq_nil_iff {required : List Text} {m : Mapping} :
    missing path required m = [] ↔ ∀ key ∈ required, (m.get? key).isSome = true := by
  simp [missing, filter_eq_nil_iff, Option.isSome_iff_ne_none]

mutual

theorem violations_eq_nil_iff (g : Graph) (path : List Text) : (s : Schema) → (v : Value) →
    (s.violations g path v = .ok [] ↔ s.Fits g v)
  | .text allowed, v => textViolations_eq_nil_iff
  | .list item, v => by
    rw [violations]
    split
    next items hitems =>
      rw [flatMapM_eq_nil_iff]
      constructor
      · intro h
        refine .list hitems fun w hw => ?_
        obtain ⟨i, hi⟩ := mem_iff_getElem?.mp hw
        exact (violations_eq_nil_iff g _ item w).mp (h (w, i) (mk_mem_zipIdx_iff_getElem?.mpr hi))
      · rintro (_ | ⟨hitems', h⟩) entry hentry
        cases hitems.symm.trans hitems'
        exact (violations_eq_nil_iff g _ item _).mpr (h _ (fst_mem_of_mem_zipIdx hentry))
    next hnone =>
      refine iff_of_false wrongType_ne_nil ?_
      rintro (_ | ⟨hitems, -⟩)
      exact absurd (hnone.symm.trans hitems) nofun
  | .mapping required properties, v => by
    rw [violations]
    split
    next entries hentries =>
      constructor
      · intro h
        obtain ⟨inside, hinside, h⟩ := bind_eq_ok.mp h
        obtain ⟨more, hmore, h⟩ := bind_eq_ok.mp h
        obtain ⟨hmissing, rfl⟩ := append_eq_nil_iff.mp (Except.ok.inj h)
        obtain ⟨hnone, rfl⟩ := append_eq_nil_iff.mp hmissing
        exact .mapping hentries (missing_eq_nil_iff.mp hnone)
          ((propertyViolations_eq_nil_iff g path properties entries).mp hinside)
          (unexpected_eq_nil_iff.mp hmore)
      · rintro (_ | _ | ⟨hentries', hrequired, h, honly⟩)
        cases hentries.symm.trans hentries'
        refine bind_eq_ok.mpr
          ⟨[], (propertyViolations_eq_nil_iff g path properties entries).mpr h, ?_⟩
        refine bind_eq_ok.mpr ⟨[], unexpected_eq_nil_iff.mpr honly, ?_⟩
        rw [missing_eq_nil_iff.mpr hrequired]
        rfl
    next hnone =>
      refine iff_of_false wrongType_ne_nil ?_
      rintro (_ | _ | ⟨hentries, -, -, -⟩)
      exact absurd (hnone.symm.trans hentries) nofun

theorem propertyViolations_eq_nil_iff (g : Graph) (path : List Text) :
    (properties : List (Text × Schema)) → (entries : List (Value × Value)) →
      (propertyViolations path properties ⟨g, entries⟩ = .ok [] ↔
        ∀ p ∈ properties, ∀ w, Value.lookup? p.1 entries = some w → p.2.Fits g w)
  | [], _ => by simp [propertyViolations]
  | (name, schema) :: rest, entries => by
    rw [forall_mem_cons, ← propertyViolations_eq_nil_iff g path rest entries, propertyViolations]
    split
    next w hw =>
      refine Outcome.append_eq_nil_iff.trans (and_congr_left fun _ => ?_)
      rw [violations_eq_nil_iff g _ schema w]
      exact ⟨fun h w' hw' => Option.some.inj (hw.symm.trans hw') ▸ h, fun h => h w hw⟩
    next hnone =>
      refine Outcome.append_eq_nil_iff.trans (and_congr_left fun _ => ?_)
      exact iff_of_true rfl fun w hw => absurd (hnone.symm.trans hw) nofun

end

end Schema

section

variable {α : Type} {is : Value → α → Prop} {xs : List α}

@[simp] theorem found_some (key : Text) (x : α) : found key (some x) = .ok x := rfl

/-- What stands in the list under a key; no list stands for nothing. -/
def ListedAt (g : Graph) (entries : List (Value × Value)) (key : Text) (is : Value → α → Prop)
    (xs : List α) : Prop :=
  match Value.lookup? key entries with
  | none => xs = []
  | some v => ∃ items, g.items? v = some items ∧ Forall₂ is items xs

theorem forall₂_iff_mapM {fits : Value → Prop} {read : Value → Except ConfigFault α}
    (hfits : ∀ v, fits v ↔ ∃ x, is v x) (hread : ∀ v x, is v x → read v = .ok x)
    {items : List Value} :
    Forall₂ is items xs ↔ (∀ v ∈ items, fits v) ∧ items.mapM read = .ok xs := by
  rw [mapM_eq_ok]
  constructor
  · intro h
    refine ⟨fun v hv => ?_, h.imp hread⟩
    obtain ⟨x, -, hx⟩ := exists_of_forall₂_left h hv
    exact (hfits v).mpr ⟨x, hx⟩
  · rintro ⟨hall, h⟩
    refine forall₂_imp_of_mem h fun v hv x hx => ?_
    obtain ⟨y, hy⟩ := (hfits v).mp (hall v hv)
    cases (hread v y hy).symm.trans hx
    exact hy

theorem listedAt_iff {s : Schema} {read : Value → Except ConfigFault α}
    (hfits : ∀ v, s.Fits g v ↔ ∃ x, is v x) (hread : ∀ v x, is v x → read v = .ok x)
    {key : Text} :
    ListedAt g entries key is xs ↔
      (∀ v, Value.lookup? key entries = some v → Schema.Fits g (.list s) v) ∧
        listAt ⟨g, entries⟩ key read = .ok xs := by
  unfold ListedAt listAt Mapping.get?
  cases hlookup : Value.lookup? key entries with
  | none => simp [eq_comm]
  | some v =>
    simp only [forall₂_iff_mapM hfits hread]
    constructor
    · rintro ⟨items, hitems, hall, hxs⟩
      refine ⟨fun w hw => ?_, by simpa [hitems, bind, Except.bind] using hxs⟩
      cases hw
      exact .list hitems hall
    · rintro ⟨hlist, hxs⟩
      obtain (_ | ⟨hitems, hall⟩) := hlist v rfl
      exact ⟨_, hitems, hall, by simpa [hitems, bind, Except.bind] using hxs⟩

theorem exists_listAt {s : Schema} {read : Value → Except ConfigFault α} {key : Text}
    (h : ∀ v, Value.lookup? key entries = some v → Schema.Fits g (.list s) v)
    (hread : ∀ v, s.Fits g v → ∃ x, read v = .ok x) :
    ∃ xs, listAt ⟨g, entries⟩ key read = .ok xs := by
  unfold listAt Mapping.get?
  cases hlookup : Value.lookup? key entries with
  | none => exact ⟨[], rfl⟩
  | some v =>
    obtain (_ | @⟨_, _, items, hitems, hall⟩) := h v hlookup
    have hmapM : FailsOnly (fun _ => False) (items.mapM read) := FailsOnly.mapM fun w hw => by
      obtain ⟨x, hx⟩ := hread w (hall w hw)
      rw [hx]
      exact .ok x
    simpa [hitems, bind, Except.bind] using hmapM.exists_ok

end

/-- An item describes a hook: it has the keys of a hook and no others, and of these only the pattern
may be missing. -/
def DescribesHook (g : Graph) (item : Value) (h : Hook) : Prop :=
  ∃ entries, g.entries? item = some entries ∧
    Schema.HasOnly ["event", "match", "run", "description"] entries ∧
    Value.lookup? "event" entries = some (.str h.event.text) ∧
    Value.lookup? "match" entries = h.glob.map .str ∧
    Value.lookup? "run" entries = some (.str h.run) ∧
    Value.lookup? "description" entries = some (.str h.description)

/-- A graph describes a configuration for some of the platforms: version 1, and a list of targets
and one of hooks, each of which may be missing. -/
def Describes (platforms : List Text) (g : Graph) (c : Config) : Prop :=
  ∃ entries, g.entries? g.root = some entries ∧
    Schema.HasOnly ["version", "targets", "hooks"] entries ∧
    Value.lookup? "version" entries = some (.str c.version) ∧ c.version = "1" ∧
    ListedAt g entries "targets" (fun v target => v = .str target ∧ target ∈ platforms) c.targets ∧
    ListedAt g entries "hooks" (DescribesHook g) c.hooks

theorem fits_text_iff {allowed : Option (List Text)} : Schema.Fits g (.text allowed) v ↔
      ∃ text, v = .str text ∧ ∀ texts, allowed = some texts → text ∈ texts := by
  constructor
  · rintro ⟨h⟩
    exact ⟨_, rfl, h⟩
  · rintro ⟨text, rfl, h⟩
    exact .text h

theorem isSome_and_fits_iff {allowed : Option (List Text)} {key : Text} :
    (Value.lookup? key entries).isSome = true ∧
        (∀ w, Value.lookup? key entries = some w → Schema.Fits g (.text allowed) w) ↔
      ∃ text, Value.lookup? key entries = some (.str text) ∧
        ∀ texts, allowed = some texts → text ∈ texts := by
  cases Value.lookup? key entries with
  | none => simp
  | some w => simp [fits_text_iff]

theorem fits_none_iff {key : Text} :
    (∀ w, Value.lookup? key entries = some w → Schema.Fits g (.text none) w) ↔
      ∃ text : Option Text, Value.lookup? key entries = text.map .str := by
  cases Value.lookup? key entries with
  | none => exact iff_of_true nofun ⟨none, rfl⟩
  | some w => simp [fits_text_iff, eq_comm]

theorem mem_events_iff {text : Text} :
    text ∈ HookEvent.all.map HookEvent.text ↔ ∃ event : HookEvent, text = event.text := by
  rw [mem_map]
  constructor
  · rintro ⟨event, -, rfl⟩
    exact ⟨event, rfl⟩
  · rintro ⟨event, rfl⟩
    exact ⟨event, by cases event <;> decide, rfl⟩

theorem fits_hookSchema_iff : hookSchema.Fits g v ↔ ∃ h, DescribesHook g v h := by
  constructor
  · rintro (_ | _ | ⟨hentries, hrequired, hproperties, honly⟩)
    simp only [forall_mem_cons] at hrequired hproperties
    obtain ⟨hevent, hrun, hdescription, -⟩ := hrequired
    obtain ⟨hevent', hmatch, hrun', hdescription', -⟩ := hproperties
    obtain ⟨_, hevent, hknown⟩ := isSome_and_fits_iff.mp ⟨hevent, hevent'⟩
    obtain ⟨event, rfl⟩ := mem_events_iff.mp (hknown _ rfl)
    obtain ⟨glob, hglob⟩ := fits_none_iff.mp hmatch
    obtain ⟨run, hrun, -⟩ := isSome_and_fits_iff.mp ⟨hrun, hrun'⟩
    obtain ⟨description, hdescription, -⟩ := isSome_and_fits_iff.mp ⟨hdescription, hdescription'⟩
    exact ⟨⟨event, run, description, glob⟩, _, hentries, honly, hevent, hglob, hrun, hdescription⟩
  · rintro ⟨h, entries, hentries, honly, hevent, hglob, hrun, hdescription⟩
    refine .mapping hentries ?_ ?_ honly
    · simp [hevent, hrun, hdescription]
    simp only [forall_mem_cons]
    refine ⟨?_, fits_none_iff.mpr ⟨h.glob, hglob⟩, fits_none_iff.mpr ⟨h.run, hrun⟩,
      fits_none_iff.mpr ⟨h.description, hdescription⟩, nofun⟩
    refine (isSome_and_fits_iff.mpr ⟨_, hevent, fun texts htexts => ?_⟩).2
    exact Option.some.inj htexts ▸ mem_events_iff.mpr ⟨h.event, rfl⟩

theorem textAt_eq {key text : Text} (h : Value.lookup? key entries = some (.str text)) :
    textAt ⟨g, entries⟩ key = .ok text := by
  rw [textAt, Mapping.get?, h]
  rfl

theorem hookOf_eq {h : Hook} (hv : DescribesHook g v h) : hookOf g v = .ok h := by
  obtain ⟨entries, hentries, -, hevent, hglob, hrun, hdescription⟩ := hv
  have hofText (event : HookEvent) : HookEvent.ofText? event.text = some event := by
    cases event <;> rfl
  have hpattern : (Mapping.get? ⟨g, entries⟩ "match").mapM
      (fun w => found "match" w.text?) = .ok h.glob := by
    rw [Mapping.get?, hglob]
    cases h.glob <;> rfl
  simp only [hookOf, hentries, found_some, bind, Except.bind, textAt_eq hevent, hofText,
    textAt_eq hrun, textAt_eq hdescription, hpattern]
  rfl

theorem fits_schema_iff {platforms : List Text} (hroot : g.entries? v = some entries) :
    (schema platforms).Fits g v ↔ Value.lookup? "version" entries = some (.str "1") ∧
      (∀ w, Value.lookup? "targets" entries = some w →
        Schema.Fits g (.list (.text (some platforms))) w) ∧
      (∀ w, Value.lookup? "hooks" entries = some w → Schema.Fits g (.list hookSchema) w) ∧
      Schema.HasOnly ["version", "targets", "hooks"] entries := by
  constructor
  · rintro (_ | _ | ⟨hentries, hrequired, hproperties, honly⟩)
    cases hroot.symm.trans hentries
    simp only [forall_mem_cons] at hrequired hproperties
    obtain ⟨hversion, htargets, hhooks, -⟩ := hproperties
    obtain ⟨version, hlookup, hknown⟩ := isSome_and_fits_iff.mp ⟨hrequired.1, hversion⟩
    rw [mem_singleton.mp (hknown _ rfl)] at hlookup
    exact ⟨hlookup, htargets, hhooks, honly⟩
  · rintro ⟨hversion, htargets, hhooks, honly⟩
    refine .mapping hroot ?_ ?_ honly
    · simp [hversion]
    simp only [forall_mem_cons]
    refine ⟨(isSome_and_fits_iff.mpr ⟨_, hversion, fun texts htexts => ?_⟩).2, htargets, hhooks,
      nofun⟩
    exact Option.some.inj htexts ▸ mem_singleton_self _

theorem listedAt_targets_iff {platforms targets : List Text} :
    ListedAt g entries "targets" (fun v t => v = .str t ∧ t ∈ platforms) targets ↔
      (∀ w, Value.lookup? "targets" entries = some w →
        Schema.Fits g (.list (.text (some platforms))) w) ∧
      listAt ⟨g, entries⟩ "targets" (fun v => found "targets" v.text?) = .ok targets := by
  refine listedAt_iff (fun v => by simp [fits_text_iff]) ?_
  rintro v target ⟨rfl, -⟩
  rfl

theorem listedAt_hooks_iff {hooks : List Hook} :
    ListedAt g entries "hooks" (DescribesHook g) hooks ↔
      (∀ w, Value.lookup? "hooks" entries = some w → Schema.Fits g (.list hookSchema) w) ∧
      listAt ⟨g, entries⟩ "hooks" (hookOf g) = .ok hooks :=
  listedAt_iff (fun _ => fits_hookSchema_iff) fun _ _ => hookOf_eq

/-- The graphs that describe a configuration are those that fit the schema, and the configuration is
what is read off them. -/
theorem describes_iff {platforms : List Text} {c : Config} : Describes platforms g c ↔
    ∃ entries, g.entries? g.root = some entries ∧ (schema platforms).Fits g g.root ∧
      ofMapping ⟨g, entries⟩ = .ok c := by
  refine exists_congr fun entries => and_congr_right fun hroot => ?_
  rw [listedAt_targets_iff, listedAt_hooks_iff, fits_schema_iff hroot]
  constructor
  · rintro ⟨honly, hversion, hone, ⟨htargets, hlisted⟩, hhooks, hhook⟩
    rw [hone] at hversion
    refine ⟨⟨hversion, htargets, hhooks, honly⟩, ?_⟩
    obtain ⟨version, targets, hooks⟩ := c
    dsimp only at hone hlisted hhook
    simp only [ofMapping, hhook, textAt_eq hversion, hlisted, hone, bind, Except.bind]
    rfl
  · rintro ⟨⟨hversion, htargets, hhooks, honly⟩, h⟩
    obtain ⟨hooks, hhook, h⟩ := bind_eq_ok.mp h
    obtain ⟨version, hone, h⟩ := bind_eq_ok.mp h
    cases (textAt_eq hversion).symm.trans hone
    obtain ⟨targets, hlisted, h⟩ := bind_eq_ok.mp h
    cases h
    exact ⟨honly, hversion, rfl, ⟨htargets, hlisted⟩, hhooks, hhook⟩

/-- After an empty list of violations no lookup fails: nothing that is asked for is missing, and
nothing is of another kind than the one it is taken for. -/
theorem exists_ofMapping {platforms : List Text} (hroot : g.entries? g.root = some entries)
    (h : (schema platforms).violations g path g.root = .ok []) :
    ∃ c, ofMapping ⟨g, entries⟩ = .ok c := by
  have hfits := (Schema.violations_eq_nil_iff g path _ _).mp h
  obtain ⟨hversion, htargets, hhooks, honly⟩ := (fits_schema_iff hroot).mp hfits
  have hhook (v : Value) (hv : hookSchema.Fits g v) : ∃ h, hookOf g v = .ok h := by
    obtain ⟨h, hh⟩ := fits_hookSchema_iff.mp hv
    exact ⟨h, hookOf_eq hh⟩
  have htarget (v : Value) (hv : Schema.Fits g (.text (some platforms)) v) :
      ∃ text, found "targets" v.text? = .ok text := by
    obtain ⟨text, rfl, -⟩ := fits_text_iff.mp hv
    exact ⟨text, rfl⟩
  obtain ⟨hooks, hhooks⟩ := exists_listAt hhooks hhook
  obtain ⟨targets, htargets⟩ := exists_listAt htargets htarget
  refine ⟨⟨"1", targets, hooks⟩, ?_⟩
  simp only [ofMapping, hhooks, textAt_eq hversion, htargets, bind, Except.bind]
  rfl

def allowed (platforms : List Text) : List Text :=
  if platforms.isEmpty then Profile.defaultNames else platforms

theorem ofGraph_eq_ok_iff {platforms : List Text} {c : Config} :
    ofGraph platforms g = .ok c ↔ ∃ entries, g.entries? g.root = some entries ∧
      (schema (allowed platforms)).Fits g g.root ∧ ofMapping ⟨g, entries⟩ = .ok c := by
  rw [ofGraph, Mapping.ofGraph?]
  cases g.entries? g.root with
  | none => simp
  | some entries =>
    simp only [← Schema.violations_eq_nil_iff g [], Option.map_some, ← allowed.eq_1]
    split
    next hfault => simp [hfault]
    next hnil => simp [hnil]
    next found hne hfound => simpa [hfound] using fun hnil => absurd hnil hne

theorem ofGraph_fails (g : Graph) (platforms : List Text) :
    FailsOnly (fun fault => fault = .notMapping ∧ g.entries? g.root = none ∨
        (∃ found, fault = .violations found ∧ found ≠ []) ∨
        fault = .value .oversized ∧ g.HoldsOversized) (ofGraph platforms g) := by
  rw [ofGraph, Mapping.ofGraph?]
  cases hroot : g.entries? g.root with
  | none => exact .error (.inl ⟨rfl, rfl⟩)
  | some entries =>
    dsimp only [Option.map_some]
    split
    next fault hfault =>
      obtain ⟨rfl, ⟨n, hn, -⟩ | hlarge⟩ := Schema.violations_fails g [] _ _ fault hfault
      · rw [hn] at hroot
        cases hroot
      · exact .error (.inr (.inr ⟨rfl, hlarge⟩))
    next hnil =>
      obtain ⟨c, hok⟩ := exists_ofMapping hroot hnil
      rw [hok]
      exact .ok c
    next found hne _ =>
      refine .error (.inr (.inl ⟨_, rfl, fun hnil => hne ?_⟩))
      exact (hnil ▸ found.mergeSort_perm _ : [].Perm found).nil_eq.symm

/-- A text that loads to a value is accepted exactly if the value describes a configuration, and it
stands for that configuration. Of any other text it is told that it is no mapping, or how it
violates the schema. Only where an integer in it is too large to be quoted this fails. -/
theorem parse_accepts_iff_describes (platforms : List Text) {text : Text} {g : Graph}
    (hload : Yaml.load text = .ok g) :
    (∀ c, parse platforms text = .ok c ↔ Describes (allowed platforms) g c) ∧
    ∀ fault, parse platforms text = .error fault →
      fault = .notMapping ∧ g.entries? g.root = none ∨
      (∃ found, fault = .violations found ∧ found ≠ []) ∨
      fault = .value .oversized ∧ g.HoldsOversized := by
  have hparse : parse platforms text = ofGraph platforms g := by
    rw [parse, parseWith, hload]
  rw [hparse]
  exact ⟨fun c => ofGraph_eq_ok_iff.trans describes_iff.symm, ofGraph_fails g platforms⟩

theorem describes_of_targets_and_hooks :
    let text : Text := "version: '1'\ntargets: [claude, codex]\nhooks:\n- event: post-edit\n" ++
      "  match: '*.py'\n  run: fmt\n  description: tidy\n- event: pre-commit\n  run: lint\n" ++
      "  description: ''\n"
    ∃ g, Yaml.load text = .ok g ∧ Describes (allowed []) g
      ⟨"1", ["claude", "codex"],
        [⟨.postEdit, "fmt", "tidy", some "*.py"⟩, ⟨.preCommit, "lint", "", none⟩]⟩ := by
  intro text
  have hchecks : Outcome.checks (fun _ => true) (Yaml.load text) = true := by
    decide +kernel
  obtain ⟨g, hg, -⟩ := Outcome.exists_of_checks hchecks
  refine ⟨g, hg, ((parse_accepts_iff_describes [] hg).1 _).mp ?_⟩
  decide +kernel

end Config

end AgentConfig
