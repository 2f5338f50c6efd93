import AgentConfig.Proofs.Json.KeyPaths

namespace AgentConfig.Json

open List Members

variable {allowed : Text → Prop} {key : Text} {members base overlay : Members} {path : List Text}
  {v : Json}

theorem keys_merge (h : overlay.keys.Nodup) (base : Members) :
    (merge base overlay).keys = base.keys ++ overlay.keys.filter (· ∉ base.keys) := by
  induction overlay generalizing base with
  | nil => rw [merge]; simp [Members.keys]
  | cons m overlay ih =>
    obtain ⟨k, v⟩ := m
    obtain ⟨hnew, hnodup⟩ := nodup_cons.mp h
    rw [merge, ih hnodup, keys_put, Members.keys_cons]
    by_cases hk : k ∈ base.keys
    · rw [if_pos hk, filter_cons_of_neg (by simpa using hk)]
    rw [if_neg hk, filter_cons_of_pos (by simpa using hk), append_assoc, singleton_append]
    congr 2
    refine filter_congr fun other hother => ?_
    have hne : other ≠ k := fun heq => hnew (heq ▸ hother)
    simp [hne]

theorem nodup_keys_merge (hbase : base.keys.Nodup) (hoverlay : overlay.keys.Nodup) :
    (merge base overlay).keys.Nodup := by
  rw [keys_merge hoverlay]
  refine nodup_append.mpr ⟨hbase, hoverlay.filter _, fun a ha b hb => ?_⟩
  rintro rfl
  simp [ha] at hb

theorem get?_merge (h : overlay.keys.Nodup) (key : Text) : (merge base overlay).get? key =
      match overlay.get? key with
      | some v => some (mergeValue (base.get? key) v)
      | none => base.get? key := by
  cases hget : overlay.get? key with
  | none => exact get?_merge_of_eq_none hget
  | some v => exact get?_merge_of_eq_some h hget

theorem mergeValue_of_plain (h : ∀ members, v ≠ .obj members) (current : Option Json) :
    mergeValue current v = v :=
  (mergeValue_cases current v).resolve_left fun ⟨_, o, _, hv, _⟩ => h o hv

theorem merge_of_disjoint {base entries : Members} (hnodup : entries.keys.Nodup)
    (hnew : ∀ key ∈ entries.keys, key ∉ base.keys) : merge base entries = base ++ entries := by
  induction entries generalizing base with
  | nil => rw [merge, append_nil]
  | cons m entries ih =>
    obtain ⟨k, v⟩ := m
    rw [Members.keys_cons, nodup_cons] at hnodup
    have hk : k ∉ base.keys := hnew k mem_cons_self
    have hvalue : mergeValue (base.get? k) v = v := by
      rw [get?_eq_none_iff.mpr hk]
      cases v <;> rfl
    rw [merge, hvalue, put_of_not_mem hk, ih hnodup.2, append_assoc]
    · rfl
    intro key hkey
    rw [Members.keys, map_append, mem_append, not_or]
    refine ⟨hnew key (mem_cons_of_mem _ hkey), ?_⟩
    rintro hmem
    obtain rfl : key = k := mem_singleton.mp hmem
    exact hnodup.1 hkey

theorem merge_nil_left (h : overlay.keys.Nodup) : merge [] overlay = overlay :=
  merge_of_disjoint h nofun

theorem mergeValue_obj (current : Option Json) (overlay : Members) :
    (∃ base, current = some (.obj base) ∧
        mergeValue current (.obj overlay) = .obj (merge base overlay)) ∨
      mergeValue current (.obj overlay) = .obj overlay := by
  rcases mergeValue_cases current (.obj overlay) with ⟨base, _, hbase, ⟨rfl⟩, hmerged⟩ | hmerged
  · exact .inl ⟨base, hbase, hmerged⟩
  · exact .inr hmerged

theorem IsKeyed.mergeValue_again (h : IsKeyed allowed v) {current : Option Json}
    (hcurrent : ∀ w ∈ current, IsKeyed allowed w) :
    mergeValue (some (mergeValue current v)) v = mergeValue current v := by
  induction h generalizing current with
  | plain h => rw [mergeValue_of_plain h, mergeValue_of_plain h]
  | @obj overlay hkeys _ _ ih =>
    have hmerge (base : Members) (hbase : IsKeyed allowed (.obj base)) :
        merge (merge base overlay) overlay = merge base overlay := by
      have hmerged := nodup_keys_merge hbase.nodup_keys hkeys
      refine eq_of_get? ?_ (nodup_keys_merge hmerged hkeys) fun key => ?_
      · rw [keys_merge hkeys, append_right_eq_self, filter_eq_nil_iff]
        intro key hkey
        by_cases hold : key ∈ base.keys <;> simp [keys_merge hkeys, hkey, hold]
      rw [get?_merge hkeys, get?_merge hkeys]
      cases hget : overlay.get? key with
      | none => rfl
      | some v =>
        exact congrArg some (ih _ (mem_of_get? hget) fun w hw => hbase.value hw)
    rcases mergeValue_obj current overlay with ⟨base, rfl, hmerged⟩ | hmerged <;> rw [hmerged]
    · exact congrArg Json.obj (hmerge base (hcurrent _ rfl))
    · have hself := hmerge [] (.obj nodup_nil nofun nofun)
      rw [merge_nil_left hkeys] at hself
      exact congrArg Json.obj hself

theorem IsKeyed.mergeValue_self (h : IsKeyed allowed v) : mergeValue (some v) v = v := by
  have hnone : mergeValue none v = v := by cases v <;> rfl
  simpa only [hnone] using @IsKeyed.mergeValue_again _ v h none nofun

theorem IsKeyed.mergeValue_back (h : IsKeyed allowed v) {current : Option Json}
    (hcurrent : ∀ w ∈ current, IsKeyed allowed w) :
    mergeValue current (mergeValue current v) = mergeValue current v := by
  induction h generalizing current with
  | plain h => rw [mergeValue_of_plain h, mergeValue_of_plain h]
  | @obj overlay hkeys _ _ ih =>
    rcases mergeValue_obj current overlay with ⟨base, rfl, hmerged⟩ | hmerged <;>
      rw [hmerged]
    · have hbase := hcurrent _ rfl
      have hboth := nodup_keys_merge hbase.nodup_keys hkeys
      refine congrArg Json.obj (eq_of_get? ?_ (nodup_keys_merge hbase.nodup_keys hboth) ?_)
      · rw [keys_merge hboth, keys_merge hkeys, filter_append, filter_filter]
        simp
      intro key
      rw [get?_merge hboth, get?_merge hkeys]
      cases hget : overlay.get? key with
      | none =>
        dsimp only
        cases hold : Members.get? key base with
        | none => rfl
        | some w => exact congrArg some (hbase.value hold).mergeValue_self
      | some v =>
        exact congrArg some (ih _ (mem_of_get? hget) fun w hw => hbase.value hw)
    · exact hmerged

theorem IsKeyed.levels_mergeValue_le {n : Nat} (h : IsKeyed allowed v) (hv : v.levels ≤ n)
    {current : Option Json} (hcurrent : ∀ w ∈ current, IsKeyed allowed w ∧ w.levels ≤ n) :
    (mergeValue current v).levels ≤ n := by
  induction h generalizing current n with
  | plain h => rwa [mergeValue_of_plain h]
  | @obj overlay hkeys _ _ ih =>
    rcases mergeValue_obj current overlay with ⟨base, rfl, hmerged⟩ | hmerged <;> rw [hmerged]
    · obtain ⟨hbase, hlow⟩ := hcurrent _ rfl
      obtain ⟨n, rfl⟩ : ∃ k, n = k + 1 := Nat.exists_eq_add_one.mpr (by rw [levels] at hv; omega)
      rw [levels, Nat.add_le_add_iff_right, memberLevels_le_iff] at hv hlow ⊢
      intro m hm
      have hget := get?_of_mem (nodup_keys_merge hbase.nodup_keys hkeys) hm
      cases hover : overlay.get? m.1 with
      | none =>
        rw [get?_merge_of_eq_none hover] at hget
        exact hlow _ (mem_of_get? hget)
      | some v =>
        rw [get?_merge_of_eq_some hkeys hover] at hget
        have hmem := mem_of_get? hover
        rw [← Option.some.inj hget]
        exact ih _ hmem (hv _ hmem) fun w hw =>
          ⟨hbase.value hw, hlow _ (mem_of_get? hw)⟩
    · exact hv

/-- The value that keys lead to. -/
def at? : List Text → Json → Option Json
  | [], v => some v
  | key :: path, .obj members => (Members.get? key members).bind (at? path)
  | _ :: _, _ => none

/-- The way along some keys ends at an object that lacks the next of them. -/
def BreaksOff : List Text → Json → Prop
  | key :: path, .obj members => ∀ v ∈ Members.get? key members, BreaksOff path v
  | _, _ => False

theorem at?_merge_of_overlay (hoverlay : IsKeyed allowed (.obj overlay))
    (h : at? path (.obj overlay) = some v) (hplain : ∀ members, v ≠ .obj members) :
    at? path (.obj (merge base overlay)) = some v := by
  induction path generalizing base overlay with
  | nil => exact absurd (Option.some.inj h).symm (hplain overlay)
  | cons key path ih =>
    obtain ⟨u, hget, hu⟩ := Option.bind_eq_some_iff.mp h
    rw [at?, get?_merge_of_eq_some hoverlay.nodup_keys hget, Option.bind_some]
    rcases mergeValue_cases (base.get? key) u with ⟨b, o, -, rfl, hmerged⟩ | hmerged <;>
      rw [hmerged]
    · exact ih (hoverlay.value hget) hu
    · exact hu

theorem at?_merge_of_breaksOff (hoverlay : IsKeyed allowed (.obj overlay))
    (h : at? path (.obj base) = some v) (hbreaks : BreaksOff path (.obj overlay)) :
    at? path (.obj (merge base overlay)) = some v := by
  induction path generalizing base overlay with
  | nil => exact hbreaks.elim
  | cons key path ih =>
    obtain ⟨u, hget, hu⟩ := Option.bind_eq_some_iff.mp h
    rw [at?, get?_merge hoverlay.nodup_keys, hget]
    cases hover : overlay.get? key with
    | none => exact hu
    | some o =>
      have hrest := hbreaks o hover
      cases path with
      | nil => exact hrest.elim
      | cons next path =>
        cases o with
        | obj inner =>
          cases u with
          | obj b => exact ih (hoverlay.value hover) hu hrest
          | _ => cases hu
        | _ => exact hrest.elim

theorem at?_merge_of_objects {inner outer : Members} (hoverlay : IsKeyed allowed (.obj overlay))
    (hbase : at? path (.obj base) = some (.obj inner))
    (h : at? path (.obj overlay) = some (.obj outer)) :
    at? path (.obj (merge base overlay)) = some (.obj (merge inner outer)) ∧
      IsKeyed allowed (.obj outer) := by
  induction path generalizing base overlay with
  | nil =>
    cases hbase
    cases h
    exact ⟨rfl, hoverlay⟩
  | cons key path ih =>
    obtain ⟨b, hb, hinner⟩ := Option.bind_eq_some_iff.mp hbase
    obtain ⟨o, ho, houter⟩ := Option.bind_eq_some_iff.mp h
    rw [at?, get?_merge hoverlay.nodup_keys, hb, ho]
    have hobj {u : Json} {found : Members} (hu : at? path u = some (.obj found)) :
        ∃ members, u = .obj members := by
      cases path with
      | nil => exact ⟨_, Option.some.inj hu⟩
      | cons next path => cases u <;> first | exact ⟨_, rfl⟩ | cases hu
    obtain ⟨b, rfl⟩ := hobj hinner
    obtain ⟨o, rfl⟩ := hobj houter
    exact ih (hoverlay.value ho) hinner houter

/-- The keys of an object are apart, and so are those of the objects under them. -/
abbrev KeepsApart : Json → Prop := IsKeyed fun _ => True

/-- An object that was laid over another, and what came of it: its values are taken, what it does
not name is kept, and the keys that were there stand first. -/
structure IsOverlaid (base overlay merged : Members) : Prop where
  again : merge merged overlay = merged
  back : merge base merged = merged
  takes : ∀ path v, at? path (.obj overlay) = some v → (∀ members, v ≠ .obj members) →
    at? path (.obj merged) = some v
  keeps : ∀ path v, at? path (.obj base) = some v → BreaksOff path (.obj overlay) →
    at? path (.obj merged) = some v
  ordered : ∀ path (inner outer : Members), at? path (.obj base) = some (.obj inner) →
    at? path (.obj overlay) = some (.obj outer) →
    ∃ both : Members, at? path (.obj merged) = some (.obj both) ∧
      both.keys = inner.keys ++ outer.keys.filter (· ∉ inner.keys)

theorem overlay_of_levels (hbase : (obj base).levels ≤ maxMergeLevels)
    (hoverlay : (obj overlay).levels ≤ maxMergeLevels) :
    Json.overlay (.obj base) overlay = .ok (.obj (merge base overlay)) := by
  rw [levels] at hoverlay
  rw [Json.overlay, if_neg (by omega)]
  exact if_neg (by omega)

/-- Laying an object over another is idempotent, takes the values of the overlay and keeps what the
overlay lacks, in the order of keys. Where documents have no more levels than can be merged, it
returns, and so it does when it is done again. -/
theorem merge_overlays (hbase : KeepsApart (.obj base)) (hoverlay : KeepsApart (.obj overlay)) :
    IsOverlaid base overlay (merge base overlay) ∧
      ((obj base).levels ≤ maxMergeLevels → (obj overlay).levels ≤ maxMergeLevels →
        Json.overlay (.obj base) overlay = .ok (.obj (merge base overlay)) ∧
        Json.overlay (.obj (merge base overlay)) overlay = .ok (.obj (merge base overlay)) ∧
        Json.overlay (.obj base) (merge base overlay) = .ok (.obj (merge base overlay))) := by
  have hcurrent : ∀ w ∈ some (obj base), KeepsApart w := fun w hw => Option.some.inj hw ▸ hbase
  have hagain : merge (merge base overlay) overlay = merge base overlay :=
    Json.obj.inj (hoverlay.mergeValue_again hcurrent)
  have hback : merge base (merge base overlay) = merge base overlay :=
    Json.obj.inj (hoverlay.mergeValue_back hcurrent)
  refine ⟨⟨hagain, hback, ?_, ?_, ?_⟩, fun hlow hover => ?_⟩
  · exact fun path v => at?_merge_of_overlay hoverlay
  · exact fun path v => at?_merge_of_breaksOff hoverlay
  · intro path inner outer hinner houter
    obtain ⟨hboth, hapart⟩ := at?_merge_of_objects hoverlay hinner houter
    exact ⟨_, hboth, keys_merge hapart.nodup_keys inner⟩
  · have hmerged : (obj (merge base overlay)).levels ≤ maxMergeLevels :=
      hoverlay.levels_mergeValue_le hover fun w hw => Option.some.inj hw ▸ ⟨hbase, hlow⟩
    refine ⟨overlay_of_levels hlow hover, ?_, ?_⟩
    · rw [overlay_of_levels hmerged hover, hagain]
    · rw [overlay_of_levels hlow hmerged, hback]

/-- A document with an object and a list, laid over by one that has an object in both places. -/
theorem merge_overlays_nested :
    let base : Members := [("a", .obj [("x", .int 1)]), ("b", .arr [])]
    let overlay : Members := [("b", .obj []), ("a", .obj [("z", .null), ("x", .obj [])])]
    KeepsApart (.obj base) ∧ KeepsApart (.obj overlay) ∧
      IsOverlaid base overlay (merge base overlay) ∧
      Json.overlay (.obj (merge base overlay)) overlay = .ok (.obj (merge base overlay)) := by
  intro base overlay
  have hobj {members : Members} (hnodup : members.keys.Nodup)
      (hvalues : ∀ m ∈ members, KeepsApart m.2) : KeepsApart (.obj members) :=
    .obj hnodup (fun _ _ => trivial) hvalues
  have hbase : KeepsApart (.obj base) := by
    refine hobj (by decide) ?_
    simp only [base, forall_mem_cons]
    refine ⟨hobj (by decide) ?_, .plain nofun, nofun⟩
    simpa using .plain nofun
  have hoverlay : KeepsApart (.obj overlay) := by
    refine hobj (by decide) ?_
    simp only [overlay, forall_mem_cons]
    refine ⟨hobj (by decide) nofun, hobj (by decide) ?_, nofun⟩
    simpa using ⟨.plain nofun, hobj (by decide) nofun⟩
  obtain ⟨hoverlaid, hreturns⟩ := merge_overlays hbase hoverlay
  exact ⟨hbase, hoverlay, hoverlaid, (hreturns (by decide) (by decide)).2.1⟩

end AgentConfig.Json
