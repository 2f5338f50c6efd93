import AgentConfig.Proofs.Hook.Settings
import AgentConfig.Proofs.Json.Overlay

namespace AgentConfig.Json

open List Members

variable {events : List Text} {hooks base entries overlay : Members}

namespace Members

variable {members : Members} {key : Text} {value : Json}

theorem put_of_get? (h : get? key members = some value) : put key value members = members := by
  induction members with
  | nil => cases h
  | cons m members ih =>
    obtain ⟨k, v⟩ := m
    rw [get?_cons] at h
    by_cases hk : k = key
    · rw [if_pos hk] at h
      rw [put, if_pos hk, Option.some.inj h]
    · rw [if_neg hk] at h
      rw [put, if_neg hk, ih h]

theorem erase_concat (h : key ∉ keys members) (value : Json) :
    erase key (members ++ [(key, value)]) = members := by
  have hkeep : ∀ m ∈ members, (m.1 != key) = true := fun m hm =>
    bne_iff_ne.mpr fun heq => h (mem_map.mpr ⟨m, hm, heq⟩)
  simp [erase, filter_append, filter_eq_self.mpr hkeep]

end Members

theorem not_mem_keys_otherHooks : ∀ event ∈ events, event ∉ (otherHooks events hooks).keys := by
  intro event hevent hmem
  obtain ⟨m, hm, rfl⟩ := mem_map.mp hmem
  simpa [hevent] using (mem_filter.mp hm).2

/-- The events stand last among the hooks, in order, and the hooks last in the document if they hold
no other event. -/
def EndsIn (events : List Text) (members : Members) : Prop :=
  events <:+ (hooksOf members).keys ∧
    ((hooksOf members).keys = events → members.keys.getLast? = some hooksKey)
  deriving Decidable

theorem otherHooks_append_iff (hkeys : entries.keys = events) (hnodup : hooks.keys.Nodup)
    (hget : ∀ event ∈ events, hooks.get? event = entries.get? event) :
    hooks = otherHooks events hooks ++ entries ↔ events <:+ hooks.keys := by
  constructor
  · intro h
    rw [h, Members.keys, map_append]
    exact ⟨_, congrArg _ hkeys.symm⟩
  · rintro ⟨first, hfirst⟩
    obtain ⟨others, last, rfl, rfl, hlast⟩ := map_eq_append_iff.mp hfirst.symm
    rw [Members.keys, map_append] at hnodup
    obtain ⟨-, hnodupLast, hapart⟩ := nodup_append.mp hnodup
    have hothers : otherHooks events (others ++ last) = others := by
      rw [otherHooks, filter_append, filter_eq_self.mpr, filter_eq_nil_iff.mpr, append_nil]
      · intro m hm
        have hmem : m.1 ∈ events := hlast ▸ mem_map_of_mem hm
        simp [hmem]
      · intro m hm
        have hnot : m.1 ∉ events := fun hmem =>
          hapart m.1 (mem_map_of_mem hm) m.1 (hlast.symm ▸ hmem) rfl
        simp [hnot]
    rw [hothers]
    refine congrArg _ (eq_of_keys (hlast.trans hkeys.symm) ?_ fun m hm => ?_)
    · rw [hkeys, ← hlast]
      exact hnodupLast
    · rw [← hget m.1 (hlast ▸ mem_map_of_mem hm)]
      refine get?_of_mem ?_ (mem_append_right _ hm)
      rwa [Members.keys, map_append]

/-- A generated document that is taken out and laid over the rest again restores the document
exactly if that ended in it. -/
theorem IsGenerated.merge_again_iff {n : Nat} (h : IsGenerated events overlay)
    (hevents : ∀ event ∈ events, IsEvent event) (hreadable : AreReadable n (merge base overlay)) :
    merge (removePaths (events.map eventPath) (merge base overlay)).1 overlay =
      merge base overlay ↔ EndsIn events (merge base overlay) := by
  obtain ⟨entries, rfl, hkeys, harr⟩ := h.hooks
  generalize hmembers : merge base [(hooksKey, .obj entries)] = members at hreadable
  obtain ⟨event, more, hsome⟩ := exists_cons_of_ne_nil h.ne_nil
  obtain ⟨hooks, hget, -⟩ : HasPath [hooksKey, event] members :=
    hmembers ▸ h.hasPath_merge base (hsome ▸ mem_cons_self)
  have hmem : ∀ event ∈ events, event ∈ Members.keys hooks := by
    intro event hevent
    obtain ⟨child, hchild, hmem⟩ : HasPath [hooksKey, event] members :=
      hmembers ▸ h.hasPath_merge base hevent
    cases hget.symm.trans hchild
    exact hmem
  have hnodup : (Members.keys hooks).Nodup := by
    obtain ⟨less, hless⟩ := hreadable.child (mem_of_get? hget)
    exact hless.keys
  have hsame : ∀ event ∈ events, Members.get? event hooks = entries.get? event := by
    intro event hevent
    obtain ⟨v, hv⟩ := exists_get?_iff.mpr (hkeys ▸ hevent)
    obtain ⟨items, rfl⟩ := harr _ (mem_of_get? hv)
    have hhooks : mergeValue (base.get? hooksKey) (.obj entries) = .obj hooks := by
      rw [← hmembers, merge, merge, get?_put_self] at hget
      exact Option.some.inj hget
    unfold mergeValue at hhooks
    split at hhooks
    · rw [← Json.obj.inj hhooks, get?_merge_of_eq_some (hkeys ▸ h.nodup) hv, hv]
      rfl
    · rw [Json.obj.inj hhooks]
  have hentries : merge (otherHooks events hooks) entries = otherHooks events hooks ++ entries :=
    merge_of_disjoint (hkeys ▸ h.nodup) fun event hevent =>
      not_mem_keys_otherHooks event (hkeys ▸ hevent)
  rw [fst_removePaths_events hevents, hooksOf_eq hget, EndsIn, hooksOf_eq hget,
    if_pos ⟨event, hsome ▸ mem_cons_self, hmem event (hsome ▸ mem_cons_self)⟩,
    ← otherHooks_append_iff hkeys hnodup hsame, merge, merge]
  by_cases hnil : otherHooks events hooks = []
  · -- The hooks are dropped with their last event, and come back behind all other members.
    have hgone : hooksKey ∉ Members.keys (members.erase hooksKey) := fun hmem =>
      (mem_keys_erase.mp hmem).2 rfl
    have hvalue : mergeValue none (.obj entries) = .obj entries := rfl
    have hput := put_of_not_mem hgone (.obj entries)
    rw [hnil, withHooks, isEmpty_nil, if_pos rfl, get?_erase_self, hvalue, nil_append]
    constructor
    · intro hagain
      have hhooks := hget
      rw [← hagain, get?_put_self] at hhooks
      refine ⟨(Json.obj.inj (Option.some.inj hhooks)).symm, fun _ => ?_⟩
      rw [← hagain, hput, Members.keys, map_append]
      exact getLast?_concat
    · rintro ⟨rfl, hlast⟩
      obtain ⟨init, hinit⟩ := getLast?_eq_some_iff.mp (hlast hkeys)
      obtain ⟨before, last, rfl, rfl, hmap⟩ := map_eq_append_iff.mp hinit
      obtain ⟨⟨key, v⟩, rfl, rfl⟩ := map_eq_singleton_iff.mp hmap
      have hv := get?_of_mem hreadable.keys (mem_append_right before mem_cons_self)
      obtain rfl := Option.some.inj (hget.symm.trans hv)
      have hnew : hooksKey ∉ Members.keys before := by
        have hkeys := hreadable.keys
        rw [hinit] at hkeys
        exact fun hmem => (nodup_append.mp hkeys).2.2 _ hmem _ mem_cons_self rfl
      rw [hput, erase_concat hnew]
  · -- Other hooks keep the member in its place.
    have hleft : (otherHooks events hooks).isEmpty = false := by simpa using hnil
    rw [withHooks, hleft, if_neg Bool.false_ne_true, get?_put_self, mergeValue, hentries,
      put_put]
    constructor
    · intro hagain
      have hhooks := hget
      rw [← hagain, get?_put_self] at hhooks
      refine ⟨(Json.obj.inj (Option.some.inj hhooks)).symm, fun hall => absurd ?_ hnil⟩
      refine filter_eq_nil_iff.mpr fun m hm => ?_
      have hmem : m.1 ∈ events := hall ▸ mem_map_of_mem hm
      simp [hmem]
    · rintro ⟨hhooks, -⟩
      rw [← hhooks]
      exact put_of_get? hget

end AgentConfig.Json
