import AgentConfig.Hook.Command
import AgentConfig.Output.Plan
import AgentConfig.Proofs.Json.KeyPaths

namespace AgentConfig

open List Json PlanContext Members

namespace Json

variable {members base overlay hooks : Members} {event key : Text} {events gone : List Text}

def hooksKey : Text := "hooks"

def hooksOf (members : Members) : Members :=
  match members.get? hooksKey with
  | some (.obj hooks) => hooks
  | _ => []

/-- The hooks of a document are none or an object. -/
def HasHookObject (members : Members) : Prop :=
  members.get? hooksKey = none ∨ ∃ hooks, members.get? hooksKey = some (.obj hooks)

/-- The hooks of a document are none or an object that is not empty. -/
def HasNoEmptyHooks (members : Members) : Prop :=
  members.get? hooksKey = none ∨ ∃ hooks, hooks ≠ [] ∧ members.get? hooksKey = some (.obj hooks)

theorem hooksOf_eq (h : members.get? hooksKey = some (.obj hooks)) : hooksOf members = hooks := by
  rw [hooksOf, h]

theorem hooksOf_eq_nil (h : members.get? hooksKey = none) : hooksOf members = [] := by
  rw [hooksOf, h]

theorem HasNoEmptyHooks.hasHookObject (h : HasNoEmptyHooks members) : HasHookObject members :=
  h.imp_right fun ⟨hooks, _, hget⟩ => ⟨hooks, hget⟩

/-- A document that was `base`, but for the hooks of some events. Those are gone, and all else is
found as it was. -/
structure Lacks (base : Members) (gone : List Text) (members : Members) : Prop where
  others : ∀ key, key ≠ hooksKey → members.get? key = base.get? key
  hooks : ∀ event, (hooksOf members).get? event =
    if event ∈ gone then none else (hooksOf base).get? event

/-- A document that was `base`, but for the hooks of some events, with those of further events. -/
structure Lists (base : Members) (gone events : List Text) (members : Members) : Prop where
  others : ∀ key, key ≠ hooksKey → members.get? key = base.get? key
  hooks : ∀ event, event ∉ events → (hooksOf members).get? event =
    if event ∈ gone then none else (hooksOf base).get? event
  object : HasHookObject members
  listed : ∀ event ∈ events, event ∈ (hooksOf members).keys

theorem Lacks.refl (base : Members) : Lacks base [] base where
  others _ _ := rfl
  hooks event := by simp

/-- Generated settings: entries under each of some events. -/
structure IsGenerated (events : List Text) (overlay : Members) : Prop where
  hooks : ∃ entries : Members, overlay = [(hooksKey, .obj entries)] ∧ entries.keys = events ∧
    ∀ m ∈ entries, ∃ items, m.2 = .arr items
  nodup : events.Nodup
  ne_nil : events ≠ []

def eventPath (event : Text) : Text := hooksKey ++ "." ++ event

theorem IsGenerated.keyPaths_eq (h : IsGenerated events overlay) :
    keyPaths keyDepth overlay = events.map eventPath := by
  obtain ⟨entries, rfl, rfl, harr⟩ := h.hooks
  have hpaths : ∀ ms : Members, (∀ m ∈ ms, ∃ items, m.2 = .arr items) →
      keyPaths 1 ms = ms.keys := by
    intro ms hms
    induction ms with
    | nil => rfl
    | cons m ms ih =>
      obtain ⟨k, v⟩ := m
      obtain ⟨items, hv⟩ := hms _ mem_cons_self
      obtain rfl : v = .arr items := hv
      rw [keyPaths, ih fun m hm => hms m (mem_cons_of_mem _ hm)]
      rfl
  cases entries with
  | nil => exact absurd rfl h.ne_nil
  | cons m ms =>
    rw [keyPaths, keyPaths, memberPaths, if_pos (by decide), append_nil, keyDepth,
      hpaths _ harr]
    rfl

theorem get?_merge_hooks (base entries : Members) :
    (merge base [(hooksKey, .obj entries)]).get? hooksKey =
      some (mergeValue (base.get? hooksKey) (.obj entries)) :=
  get?_merge_of_eq_some (by simp [Members.keys]) (get?_cons_self _ _ _)

theorem IsGenerated.get?_merge (h : IsGenerated events overlay) (hbase : HasHookObject base) :
    (∀ key, key ≠ hooksKey → (merge base overlay).get? key = base.get? key) ∧
    HasHookObject (merge base overlay) ∧
    (∀ event ∈ events, event ∈ (hooksOf (merge base overlay)).keys) ∧
    ∀ event, event ∉ events →
      (hooksOf (merge base overlay)).get? event = (hooksOf base).get? event := by
  obtain ⟨entries, rfl, rfl, -⟩ := h.hooks
  have hget := get?_merge_hooks base entries
  refine ⟨fun key hkey => get?_merge_of_eq_none ?_, ?_⟩
  · rw [get?_cons, if_neg (Ne.symm hkey), get?_nil]
  rcases hbase with hnone | ⟨hooks, hhooks⟩
  · rw [hnone] at hget
    refine ⟨.inr ⟨entries, hget⟩, fun event hevent => ?_, fun event hevent => ?_⟩
    · rwa [hooksOf_eq hget]
    · rw [hooksOf_eq hget, hooksOf_eq_nil hnone]
      exact get?_eq_none_iff.mpr hevent
  · rw [hhooks] at hget
    refine ⟨.inr ⟨merge hooks entries, hget⟩, fun event hevent => ?_, fun event hevent => ?_⟩
    · obtain ⟨v, hv⟩ := exists_get?_iff.mpr hevent
      rw [hooksOf_eq hget, ← exists_get?_iff]
      exact ⟨_, get?_merge_of_eq_some h.nodup hv⟩
    · rw [hooksOf_eq hget, hooksOf_eq hhooks]
      exact get?_merge_of_eq_none (get?_eq_none_iff.mpr hevent)

theorem IsGenerated.hasPath_merge (h : IsGenerated events overlay) (base : Members)
    (hevent : event ∈ events) :
    HasPath [hooksKey, event] (merge base overlay) := by
  obtain ⟨entries, rfl, rfl, -⟩ := h.hooks
  have hget := get?_merge_hooks base entries
  unfold mergeValue at hget
  split at hget
  · obtain ⟨v, hv⟩ := exists_get?_iff.mpr hevent
    exact ⟨_, hget, exists_get?_iff.mp ⟨_, get?_merge_of_eq_some h.nodup hv⟩⟩
  · exact ⟨_, hget, hevent⟩

theorem Lacks.lists_merge (h : Lacks base gone members) (hmembers : HasHookObject members)
    (hoverlay : IsGenerated events overlay) :
    Lists base gone events (merge members overlay) := by
  obtain ⟨hothers, hobject, hlisted, hrest⟩ := hoverlay.get?_merge hmembers
  exact
    { others := fun key hkey => (hothers key hkey).trans (h.others key hkey)
      hooks := fun event hevent => (hrest event hevent).trans (h.hooks event)
      object := hobject
      listed := hlisted }

/-- A trigger event, whose path passes the hooks and the event. -/
def IsEvent (event : Text) : Prop := pathKeys (eventPath event) = [hooksKey, event]

def otherHooks (events : List Text) (hooks : Members) : Members :=
  hooks.filter fun m => !events.contains m.1

/-- A document with other hooks in place of its own; without any, the member is dropped. -/
def withHooks (members hooks : Members) : Members :=
  if hooks.isEmpty then members.erase hooksKey else members.put hooksKey (.obj hooks)

theorem get?_withHooks_of_ne (hkey : key ≠ hooksKey) (members hooks : Members) :
    (withHooks members hooks).get? key = members.get? key := by
  unfold withHooks
  split
  · exact get?_erase_ne hkey members
  · exact get?_put_ne hkey _ members

theorem hooksOf_withHooks (members hooks : Members) :
    hooksOf (withHooks members hooks) = hooks ∧ HasNoEmptyHooks (withHooks members hooks) := by
  unfold withHooks
  split
  · rename_i hempty
    have hget := get?_erase_self hooksKey members
    exact ⟨(hooksOf_eq_nil hget).trans (isEmpty_iff.mp hempty).symm, .inl hget⟩
  · rename_i hempty
    have hget := get?_put_self hooksKey (.obj hooks) members
    exact ⟨hooksOf_eq hget, .inr ⟨hooks, by simpa using hempty, hget⟩⟩

theorem withHooks_withHooks (members : Members) (hne : hooks ≠ [])
    (others : Members) : withHooks (withHooks members hooks) others = withHooks members others := by
  have hsome : hooks.isEmpty = false := by simpa using hne
  simp [withHooks, hsome, erase_put, put_put]

theorem removed_eventPath (hevent : IsEvent event) (members : Members) :
    removed (eventPath event) members = if event ∈ (hooksOf members).keys
      then withHooks members ((hooksOf members).erase event) else members := by
  rw [removed, removePath?, hevent, removeKeys?, hooksOf]
  · cases members.get? hooksKey with
    | none => rfl
    | some v =>
      cases v with
      | obj hooks =>
        by_cases hmem : event ∈ Members.keys hooks
        · simp [removeKeys?, hasKey_iff.mpr hmem, hmem, withHooks]
        · simp [removeKeys?, hasKey_iff, hmem]
      | _ => rfl
  · simp

theorem fst_removePaths_events (hevents : ∀ event ∈ events, IsEvent event) (members : Members) :
    (removePaths (events.map eventPath) members).1 =
      if ∃ event ∈ events, event ∈ (hooksOf members).keys
      then withHooks members (otherHooks events (hooksOf members)) else members := by
  rw [fst_removePaths]
  induction events generalizing members with
  | nil => simp
  | cons event events ih =>
    obtain ⟨hevent, hevents⟩ := forall_mem_cons.mp hevents
    rw [map_cons, foldl_cons, ih hevents, removed_eventPath hevent]
    by_cases hfirst : event ∈ (hooksOf members).keys
    · have hleft := (hooksOf_withHooks members ((hooksOf members).erase event)).1
      have hrest : otherHooks (event :: events) (hooksOf members) =
          otherHooks events ((hooksOf members).erase event) := by
        simp only [otherHooks, Members.erase, filter_filter]
        refine filter_congr fun m _ => ?_
        by_cases hm : m.1 = event <;> simp [hm]
      have hsome : ∃ other ∈ event :: events, other ∈ (hooksOf members).keys :=
        ⟨event, mem_cons_self, hfirst⟩
      rw [if_pos hfirst, hleft, if_pos hsome, hrest]
      split
      · rename_i hmore
        exact withHooks_withHooks _ (fun hnil => by simp [hnil, Members.keys] at hmore) _
      rename_i hnone
      rw [otherHooks, filter_eq_self.mpr]
      intro m hm
      have hnot : m.1 ∉ events := fun hmem => hnone ⟨m.1, hmem, mem_map_of_mem hm⟩
      simp [hnot]
    · have hrest : otherHooks (event :: events) (hooksOf members) =
          otherHooks events (hooksOf members) := by
        refine filter_congr fun m hm => ?_
        have hnot : m.1 ≠ event := fun heq => hfirst (heq ▸ mem_map_of_mem hm)
        simp [hnot]
      simp [hfirst, hrest]

theorem Lists.lacks_removePaths (h : Lists base gone events members)
    (hevents : ∀ event ∈ events, IsEvent event) (hne : events ≠ []) :
    Lacks base (gone ++ events) (removePaths (events.map eventPath) members).1 ∧
      HasNoEmptyHooks (removePaths (events.map eventPath) members).1 := by
  obtain ⟨hleft, htidy⟩ := hooksOf_withHooks members (otherHooks events (hooksOf members))
  have hfirst := head_mem hne
  rw [fst_removePaths_events hevents, if_pos ⟨_, hfirst, h.listed _ hfirst⟩]
  refine ⟨⟨fun key hkey => (get?_withHooks_of_ne hkey _ _).trans (h.others key hkey),
    fun event => ?_⟩, htidy⟩
  rw [hleft, otherHooks, get?_filter (fun key => !events.contains key)]
  by_cases hevent : event ∈ events
  · simp [hevent]
  · simp [hevent, ← h.hooks event hevent]

end Json

namespace Hook

variable {hooks : List Hook}

theorem isEvent_trigger (event : HookEvent) : IsEvent event.trigger.event := by
  cases event <;> (unfold IsEvent; decide +kernel)

theorem joinHalves_trigger (event : HookEvent) :
    joinHalves event.trigger.event = event.trigger.event := by
  cases event <;> decide +kernel

/-- The trigger events of some hooks, each of them once, in the order of the first hooks that they
start. -/
def events (hooks : List Hook) : List Text := (hooks.map fun h => h.event.trigger.event).eraseDups

theorem events_concat (hooks : List Hook) (hook : Hook) : events (hooks ++ [hook]) =
    if hook.event.trigger.event ∈ events hooks then events hooks
    else events hooks ++ [hook.event.trigger.event] := by
  simp only [events, map_append, map_singleton, eraseDups_append, mem_eraseDups]
  split
  next h => rw [List.removeAll, filter_cons_of_neg (by simpa using h)]; simp
  next h => rw [List.removeAll, filter_cons_of_pos (by simpa using h)]; rfl

theorem exists_of_mem_events {event : Text} (h : event ∈ events hooks) :
    ∃ hook ∈ hooks, hook.event.trigger.event = event :=
  mem_map.mp (mem_eraseDups.mp h)

theorem isEvent_of_mem_events : ∀ event ∈ events hooks, IsEvent event := by
  intro event hevent
  obtain ⟨hook, -, rfl⟩ := exists_of_mem_events hevent
  exact isEvent_trigger hook.event

theorem nodup_eraseDups (xs : List Text) : xs.eraseDups.Nodup := by
  induction hlength : xs.length using Nat.strong_induction_on generalizing xs with
  | _ n ih =>
    cases xs with
    | nil => exact nodup_nil
    | cons x xs =>
      rw [eraseDups_cons, nodup_cons]
      refine ⟨fun hmem => ?_, ih _ ?_ _ rfl⟩
      · have hne := (mem_filter.mp (mem_eraseDups.mp hmem)).2
        simp at hne
      · rw [← hlength, length_cons]
        exact Nat.lt_succ_of_le (length_filter_le _ _)

theorem events_ne_nil (h : hooks ≠ []) : events hooks ≠ [] := by
  obtain ⟨hook, rest, rfl⟩ := exists_cons_of_ne_nil h
  exact ne_nil_of_mem (mem_eraseDups.mpr (mem_map.mpr ⟨hook, mem_cons_self, rfl⟩))

/-- The entries of the hooks of one event, in the order of the hooks. -/
def entriesOf (hooks : List Hook) (event : Text) : List Json :=
  (hooks.filter fun h => h.event.trigger.event == event).map entry

/-- The entries of the hooks, by event. -/
def entries (hooks : List Hook) : Members :=
  (events hooks).map fun event => (event, .arr (entriesOf hooks event))

theorem addEntry_map {events : List Text} (hnodup : events.Nodup) (of : Text → List Json)
    (event : Text) (entry : Json) :
    addEntry event entry (events.map fun e => (e, of e)) =
      (events.map fun e => (e, if e = event then of e ++ [entry] else of e)) ++
        if event ∈ events then [] else [(event, [entry])] := by
  induction events with
  | nil => simp [addEntry]
  | cons first rest ih =>
    obtain ⟨hfresh, hnodup⟩ := nodup_cons.mp hnodup
    by_cases hfirst : first = event
    · subst hfirst
      have hrest : (rest.map fun e => (e, if e = first then of e ++ [entry] else of e)) =
          rest.map fun e => (e, of e) := by
        refine map_congr_left fun e he => ?_
        rw [if_neg (ne_of_mem_of_not_mem he hfresh)]
      simp [addEntry, hrest]
    · simp [addEntry, hfirst, Ne.symm hfirst, ih hnodup]

/-- The loop over the hooks makes the groups that a search through all hooks makes for each event:
one more hook changes the group of its own event only, or opens it behind the others. -/
theorem grouped_eq (hooks : List Hook) :
    grouped hooks = (events hooks).map fun event => (event, entriesOf hooks event) := by
  induction hooks using reverseRecOn with
  | nil => rfl
  | append_singleton hooks hook ih =>
    have hentries (event : Text) : entriesOf (hooks ++ [hook]) event =
        if event = hook.event.trigger.event then entriesOf hooks event ++ [hook.entry]
        else entriesOf hooks event := by
      by_cases h : event = hook.event.trigger.event
      · simp [entriesOf, h]
      · simp [entriesOf, h, Ne.symm h]
    have hstep : grouped (hooks ++ [hook]) =
        addEntry hook.event.trigger.event hook.entry (grouped hooks) := by
      simp [grouped]
    have hnodup : (events hooks).Nodup := nodup_eraseDups _
    rw [hstep, ih, addEntry_map hnodup (entriesOf hooks), events_concat]
    simp only [hentries]
    by_cases hmem : hook.event.trigger.event ∈ events hooks
    · simp [hmem]
    · have hnone : entriesOf hooks hook.event.trigger.event = [] := by
        refine map_eq_nil_iff.mpr (filter_eq_nil_iff.mpr fun other hother heq => hmem ?_)
        rw [← eq_of_beq heq]
        exact mem_eraseDups.mpr (mem_map_of_mem hother)
      simp [hmem, hnone]

theorem settings_eq (h : hooks ≠ []) :
    settings hooks = [(hooksKey, .obj (entries hooks))] := by
  have hsome :
      ((events hooks).map fun event => (event, entriesOf hooks event)).isEmpty = false := by
    simpa using events_ne_nil h
  simp only [settings, grouped_eq, hsome, map_map]
  rfl

def settingsFile (path : Text) (hooks : List Hook) : OutputFile :=
  ⟨path, Json.write (.obj (settings hooks)), .sharedKeys⟩

theorem isPlain_entry (hook : Hook) : IsPlain hook.entry := by
  have hcommand : IsPlain (.obj [("type", .str "command"), ("command", .str hook.command)]) := by
    refine .obj (show (["type", "command"].map fun k : Text => joinHalves k).Nodup by decide)
      fun m hm => ?_
    simp only [mem_cons, not_mem_nil, or_false] at hm
    rcases hm with rfl | rfl <;> exact .str _
  refine .obj (show (["matcher", "hooks"].map fun k : Text => joinHalves k).Nodup by decide)
    fun m hm => ?_
  simp only [mem_cons, not_mem_nil, or_false] at hm
  rcases hm with rfl | rfl
  · exact .str _
  · refine .arr fun v hv => ?_
    rw [mem_singleton.mp hv]
    exact hcommand

theorem map_joinHalves_events (hooks : List Hook) :
    (events hooks).map joinHalves = events hooks := by
  refine (map_congr_left fun event hevent => ?_).trans (map_id _)
  obtain ⟨hook, -, rfl⟩ := exists_of_mem_events hevent
  exact joinHalves_trigger hook.event

theorem isPlain_settings (hooks : List Hook) : IsPlain (.obj (settings hooks)) := by
  by_cases h : hooks = []
  · rw [h]
    exact .obj nodup_nil fun _ hm => nomatch hm
  rw [settings_eq h]
  refine .obj (nodup_singleton _) fun m hm => ?_
  rw [mem_singleton.mp hm]
  refine .obj ?_ fun m hm => ?_
  · rw [entries, map_map]
    exact (map_joinHalves_events hooks).symm ▸ nodup_eraseDups _
  obtain ⟨event, -, rfl⟩ := mem_map.mp hm
  refine .arr fun v hv => ?_
  obtain ⟨hook, -, rfl⟩ := mem_map.mp hv
  exact isPlain_entry hook

theorem levels_settings (hooks : List Hook) : (Json.obj (settings hooks)).levels ≤ 6 := by
  by_cases h : hooks = []
  · rw [h]
    decide
  have hentry : ∀ hook : Hook, hook.entry.levels = 3 := fun _ => rfl
  rw [settings_eq h, Json.levels, Nat.succ_le_succ_iff, memberLevels_le_iff]
  intro m hm
  rw [mem_singleton.mp hm, Json.levels, Nat.succ_le_succ_iff, memberLevels_le_iff]
  intro m hm
  obtain ⟨event, -, rfl⟩ := mem_map.mp hm
  rw [Json.levels, Nat.succ_le_succ_iff, itemLevels_le_iff]
  intro v hv
  obtain ⟨hook, -, rfl⟩ := mem_map.mp hv
  exact (hentry hook).le

theorem joinHalves_eventPath :
    ∀ event ∈ events hooks, joinHalves (eventPath event) = eventPath event := by
  intro event hevent
  obtain ⟨hook, -, rfl⟩ := exists_of_mem_events hevent
  cases hook.event <;> decide +kernel

theorem overlayOf_settings (hooks : List Hook) :
    overlayOf (Json.write (.obj (settings hooks))) =
      .ok (joinedMembers (settings hooks)) := by
  have hread := read_write (isPlain_settings hooks) ((levels_settings hooks).trans (by decide))
  rw [overlayOf, hread]
  rfl

theorem isGenerated_settings (h : hooks ≠ []) :
    IsGenerated (events hooks) (joinedMembers (settings hooks)) where
  hooks := by
    rw [settings_eq h]
    refine ⟨joinedMembers (entries hooks), rfl, ?_, ?_⟩
    · rw [joinedMembers_eq_map, entries, map_map, Members.keys, map_map]
      exact map_joinHalves_events hooks
    intro m hm
    rw [joinedMembers_eq_map, entries, map_map] at hm
    obtain ⟨event, -, rfl⟩ := mem_map.mp hm
    exact ⟨_, rfl⟩
  nodup := nodup_eraseDups _
  ne_nil := events_ne_nil h

theorem keys_entries (hooks : List Hook) : (entries hooks).keys = events hooks := by
  rw [entries, Members.keys, map_map]
  exact map_id _

theorem hasPath_of_joined (h : hooks ≠ []) {keys : List Text}
    (hpath : HasPath keys (joinedMembers (settings hooks))) :
    HasPath keys (settings hooks) := by
  obtain ⟨read, hread, hevents, harrays⟩ := (isGenerated_settings h).hooks
  rw [hread] at hpath
  rw [settings_eq h]
  match keys, hpath with
  | [key], hpath => exact hpath
  | key :: next :: keys, ⟨child, hchild, hnext⟩ =>
    rw [get?_cons] at hchild
    split at hchild
    · rename_i hkey
      cases hchild
      refine ⟨entries hooks, by rw [get?_cons, if_pos hkey], ?_⟩
      cases keys with
      | nil =>
        rw [HasPath, keys_entries, ← hevents]
        exact hnext
      | cons last keys =>
        obtain ⟨deeper, hdeeper, -⟩ := hnext
        obtain ⟨items, hitems⟩ := harrays _ (mem_of_get? hdeeper)
        cases hitems
    · cases hchild

end Hook

end AgentConfig

namespace AgentConfig.Hook

open List

variable {hooks : List Hook} {hook : Hook}

/-- What an object holds under its keys, all lists joined. -/
def items (groups : Json.Members) : List Json :=
  groups.flatMap fun
    | (_, .arr items) => items
    | _ => []

/-- Where in a list the first hook of an event stands. -/
def firstIndex (hooks : List Hook) (event : Text) : Nat :=
  (hooks.map (·.event.trigger.event)).idxOf event

theorem pairwise_events (hooks : List Hook) :
    (events hooks).Pairwise fun a b => firstIndex hooks a < firstIndex hooks b := by
  induction hooks using reverseRecOn with
  | nil => exact .nil
  | append_singleton hooks hook ih =>
    have hold (event : Text) (h : event ∈ events hooks) :
        firstIndex (hooks ++ [hook]) event = firstIndex hooks event ∧
          firstIndex hooks event < hooks.length := by
      have hmem := mem_eraseDups.mp h
      rw [firstIndex, map_append, idxOf_append_of_mem hmem]
      exact ⟨rfl, by simpa [firstIndex] using idxOf_lt_length_of_mem hmem⟩
    have hkept : (events hooks).Pairwise fun a b =>
        firstIndex (hooks ++ [hook]) a < firstIndex (hooks ++ [hook]) b :=
      ih.imp_of_mem fun ha hb hlt => by rwa [(hold _ ha).1, (hold _ hb).1]
    rw [events_concat]
    split
    next => exact hkept
    next hnew =>
      refine pairwise_append.mpr ⟨hkept, pairwise_singleton _ _, fun event hevent new h => ?_⟩
      rw [mem_singleton.mp h, (hold _ hevent).1]
      have hlast : firstIndex (hooks ++ [hook]) hook.event.trigger.event = hooks.length := by
        rw [firstIndex, map_append,
          idxOf_append_of_notMem fun hmem => hnew (mem_eraseDups.mpr hmem)]
        simp
      exact hlast ▸ (hold _ hevent).2

theorem perm_flatMap_filter {events : List Text} (hnodup : events.Nodup)
    (h : ∀ hook ∈ hooks, hook.event.trigger.event ∈ events) :
    (events.flatMap fun event => hooks.filter (·.event.trigger.event == event)).Perm hooks := by
  induction events generalizing hooks with
  | nil =>
    have hnil : hooks = [] :=
      eq_nil_iff_forall_not_mem.mpr fun hook hhook => not_mem_nil (h hook hhook)
    rw [hnil]
    exact .nil
  | cons event events ih =>
    obtain ⟨hfresh, hnodup⟩ := nodup_cons.mp hnodup
    -- The other events find their hooks among those that the first event leaves.
    have hleft : (events.flatMap fun other => hooks.filter (·.event.trigger.event == other)) =
        events.flatMap fun other =>
          (hooks.filter fun hook => !(hook.event.trigger.event == event)).filter
            (·.event.trigger.event == other) := by
      refine flatMap_congr fun other hother => ?_
      rw [filter_filter]
      refine filter_congr fun hook _ => ?_
      by_cases heq : hook.event.trigger.event = other
      · have hne : other ≠ event := fun h => hfresh (h ▸ hother)
        simp [heq, hne]
      · simp [heq]
    rw [flatMap_cons, hleft]
    refine (Perm.append_left _ (ih hnodup fun hook hhook => ?_)).trans (filter_append_perm _ _)
    obtain ⟨hmem, hne⟩ := mem_filter.mp hhook
    exact (mem_cons.mp (h hook hmem)).resolve_left (by simpa using hne)

/-- Hooks are compiled to one object. Its keys are the events that start some hook, by the first
hook of each. Under an event stand the entries of its hooks, in their order: what starts the hook,
and its command. So every hook has one entry, also where two kinds of hooks are started by one
event. -/
theorem settings_groups_hooks (h : hooks ≠ []) : ∃ groups : Json.Members,
    settings hooks = [(Json.hooksKey, .obj groups)] ∧
    (∀ event, event ∈ groups.keys ↔ ∃ hook ∈ hooks, hook.event.trigger.event = event) ∧
    groups.keys.Pairwise (fun a b => firstIndex hooks a < firstIndex hooks b) ∧
    (∀ event ∈ groups.keys, groups.get? event =
      some (.arr ((hooks.filter (·.event.trigger.event == event)).map fun hook =>
        .obj [("matcher", .str hook.event.trigger.matcher),
          ("hooks", .arr [.obj [("type", .str "command"), ("command", .str hook.command)]])]))) ∧
    (items groups).Perm (hooks.map entry) ∧ (items groups).length = hooks.length := by
  have hkeys := keys_entries hooks
  have hnodup : (entries hooks).keys.Nodup := hkeys ▸ nodup_eraseDups _
  have hperm : (items (entries hooks)).Perm (hooks.map entry) := by
    have hall : ∀ hook ∈ hooks, hook.event.trigger.event ∈ events hooks := fun hook hhook =>
      List.mem_eraseDups.mpr (List.mem_map_of_mem hhook)
    have heq : items (entries hooks) = ((events hooks).flatMap fun event =>
        hooks.filter (·.event.trigger.event == event)).map entry := by
      rw [items, entries, List.flatMap_map, List.map_flatMap]
      rfl
    rw [heq]
    exact (perm_flatMap_filter (nodup_eraseDups _) hall).map entry
  refine ⟨entries hooks, settings_eq h, fun event => ?_, hkeys ▸ pairwise_events hooks,
    fun event hevent => ?_, hperm, by simpa using hperm.length_eq⟩
  · rw [hkeys, events, List.mem_eraseDups, List.mem_map]
  · exact Json.Members.get?_of_mem hnodup (List.mem_map.mpr ⟨event, hkeys ▸ hevent, rfl⟩)

/-- Two kinds of hooks that one event starts, with a hook of another event between them. -/
theorem settings_groups_interleaved : ∃ groups : Json.Members,
    settings
        [⟨.postEdit, "a", "", none⟩, ⟨.preCommit, "b", "", none⟩, ⟨.postCreate, "c", "", none⟩] =
      [(Json.hooksKey, .obj groups)] ∧
    groups.keys = [("PostToolUse" : Text), "Notification"] ∧
    groups.get? "PostToolUse" =
      some (.arr [entry ⟨.postEdit, "a", "", none⟩, entry ⟨.postCreate, "c", "", none⟩]) ∧
    (items groups).length = 3 := by
  obtain ⟨groups, hgroups, -, -, hentries, -, hlength⟩ := @settings_groups_hooks
    [⟨.postEdit, "a", "", none⟩, ⟨.preCommit, "b", "", none⟩, ⟨.postCreate, "c", "", none⟩]
    (by simp)
  have hkeys : groups.keys = [("PostToolUse" : Text), "Notification"] := by
    rw [← (Json.obj.inj (Prod.mk.inj (List.cons.inj hgroups).1).2)]
    decide
  refine ⟨groups, hgroups, hkeys, ?_, hlength⟩
  rw [hentries _ (by simp [hkeys])]
  rfl

end AgentConfig.Hook
