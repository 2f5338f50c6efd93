import AgentConfig.Json.Merge
import AgentConfig.Proofs.Json.Readable

namespace AgentConfig.Json

open List Members

variable {key path : Text} {members base overlay rest : Members} {keys paths : List Text}
  {n k : Nat} {value merged : Json}

/-- The keys lead to something in the object. -/
def HasPath : List Text → Members → Prop
  | [], _ => False
  | [key], members => key ∈ members.keys
  | key :: next :: keys, members =>
    ∃ child, members.get? key = some (.obj child) ∧ HasPath (next :: keys) child

theorem HasPath.congr {others : Members} (h : others.get? key = members.get? key)
    (hpath : HasPath (key :: keys) members) :
    HasPath (key :: keys) others := by
  cases keys with
  | nil =>
    rw [HasPath, ← exists_get?_iff] at hpath ⊢
    rwa [h]
  | cons next keys =>
    obtain ⟨child, hchild, hrest⟩ := hpath
    exact ⟨child, h.trans hchild, hrest⟩

theorem HasPath.mem_keys (h : HasPath (key :: keys) members) : key ∈ members.keys := by
  cases keys with
  | nil => exact h
  | cons next keys =>
    obtain ⟨child, hchild, -⟩ := h
    exact exists_get?_iff.mp ⟨_, hchild⟩

theorem removeKeys?_cons (h : removeKeys? (key :: keys) members = some rest) :
    (∀ other, other ≠ key → rest.get? other = members.get? other) ∧
      ((rest.get? key = none ∧ (keys = [] ∨ ∃ child, members.get? key = some (.obj child) ∧
          removeKeys? keys child = some [])) ∨
        ∃ child less, members.get? key = some (.obj child) ∧ removeKeys? keys child = some less ∧
          less ≠ [] ∧ rest.get? key = some (.obj less)) := by
  cases keys with
  | nil =>
    unfold removeKeys? at h
    split at h
    · rw [← Option.some.inj h]
      exact ⟨fun other hne => get?_erase_ne hne _,
        .inl ⟨get?_erase_self _ _, .inl rfl⟩⟩
    · cases h
  | cons next keys =>
    unfold removeKeys? at h
    split at h
    · rename_i child hchild
      obtain ⟨less, hless, heq⟩ := Option.map_eq_some_iff.mp h
      split at heq
      · rename_i hempty
        obtain rfl := isEmpty_iff.mp hempty
        rw [← heq]
        exact ⟨fun other hne => get?_erase_ne hne _,
          .inl ⟨get?_erase_self _ _, .inr ⟨child, hchild, hless⟩⟩⟩
      · rename_i hne
        rw [← heq]
        exact ⟨fun other hne => get?_put_ne hne _ _,
          .inr ⟨child, less, hchild, hless, by simpa using hne, get?_put_self _ _ _⟩⟩
    · cases h

theorem not_hasPath_of_removeKeys? (h : removeKeys? keys members = some rest) :
    ¬ HasPath keys rest := by
  induction keys generalizing members rest with
  | nil => exact fun hpath => hpath
  | cons key keys ih =>
    intro hpath
    obtain ⟨-, ⟨hnone, -⟩ | ⟨child, less, -, hless, -, hget⟩⟩ := removeKeys?_cons h
    · exact get?_eq_none_iff.mp hnone hpath.mem_keys
    cases keys with
    | nil => cases hless
    | cons next keys =>
      obtain ⟨found, hfound, hrest⟩ := hpath
      cases hget.symm.trans hfound
      exact ih hless hrest

theorem not_hasPath_of_removeKeys?_eq_none (h : removeKeys? keys members = none) :
    ¬ HasPath keys members := by
  induction keys generalizing members with
  | nil => exact fun hpath => hpath
  | cons key keys ih =>
    cases keys with
    | nil =>
      unfold removeKeys? at h
      split at h
      · cases h
      · rename_i hkey
        rwa [hasKey_iff] at hkey
    | cons next keys =>
      rintro ⟨child, hchild, hrest⟩
      rw [removeKeys?, hchild] at h
      · exact ih (Option.map_eq_none_iff.mp h) hrest
      · simp

theorem HasPath.of_removeKeys? {path : List Text} (h : removeKeys? keys members = some rest)
    (hpath : HasPath path rest) :
    HasPath path members := by
  induction keys generalizing members rest path with
  | nil => cases h
  | cons key keys ih =>
    obtain ⟨hothers, hkey⟩ := removeKeys?_cons h
    cases path with
    | nil => exact hpath
    | cons first path =>
      by_cases hfirst : first = key
      · subst hfirst
        rcases hkey with ⟨hnone, -⟩ | ⟨child, less, hchild, hless, -, hget⟩
        · exact absurd hpath.mem_keys (get?_eq_none_iff.mp hnone)
        cases path with
        | nil => exact exists_get?_iff.mp ⟨_, hchild⟩
        | cons next path =>
          obtain ⟨found, hfound, hrest⟩ := hpath
          cases hget.symm.trans hfound
          exact ⟨child, hchild, ih hless hrest⟩
      · exact hpath.congr (hothers first hfirst).symm

def removed (path : Text) (members : Members) : Members := (removePath? path members).getD members

/-- One more removal, and whether anything was removed so far. -/
def removeStep (state : Members × Bool) (path : Text) : Members × Bool :=
  (removed path state.1, state.2 || (removePath? path state.1).isSome)

theorem removePaths_eq (paths : List Text) (members : Members) :
    removePaths paths members = paths.foldl removeStep (members, false) := by
  unfold removePaths
  congr 1
  funext state path
  obtain ⟨members, changed⟩ := state
  unfold removeStep removed
  cases hremove : removePath? path members <;> simp [hremove]

theorem fst_removePaths (paths : List Text) (members : Members) :
    (removePaths paths members).1 =
      paths.foldl (fun members path => removed path members) members := by
  have hfold : ∀ state : Members × Bool, (paths.foldl removeStep state).1 =
      paths.foldl (fun members path => removed path members) state.1 := by
    induction paths with
    | nil => exact fun _ => rfl
    | cons path paths ih => exact fun state => ih (removeStep state path)
  rw [removePaths_eq]
  exact hfold (members, false)

theorem removePaths_of_snd_eq_false (h : (removePaths paths members).2 = false) :
    (removePaths paths members).1 = members := by
  have hfold : ∀ state : Members × Bool, (paths.foldl removeStep state).2 = false →
      state.2 = false ∧ (paths.foldl removeStep state).1 = state.1 := by
    clear h
    induction paths with
    | nil => exact fun _ hfalse => ⟨hfalse, rfl⟩
    | cons path paths ih =>
      intro state hfalse
      obtain ⟨hstep, hrest⟩ := ih (removeStep state path) hfalse
      obtain ⟨hbefore, hnone⟩ := Bool.or_eq_false_iff.mp hstep
      refine ⟨hbefore, hrest.trans ?_⟩
      have hnone : removePath? path state.1 = none := by simpa using hnone
      rw [removeStep, removed, hnone]
      rfl
  rw [removePaths_eq] at h ⊢
  exact (hfold (members, false) h).2

theorem HasPath.of_removed (h : HasPath keys (removed path members)) : HasPath keys members := by
  unfold removed at h
  cases hremove : removePath? path members with
  | none => rwa [hremove] at h
  | some rest =>
    rw [hremove] at h
    exact h.of_removeKeys? hremove

theorem not_hasPath_removed (path : Text) (members : Members) :
    ¬ HasPath (pathKeys path) (removed path members) := by
  unfold removed
  cases hremove : removePath? path members with
  | none => exact not_hasPath_of_removeKeys?_eq_none hremove
  | some rest => exact not_hasPath_of_removeKeys? hremove

theorem HasPath.of_removePaths (h : HasPath keys (removePaths paths members).1) :
    HasPath keys members := by
  rw [fst_removePaths] at h
  induction paths generalizing members with
  | nil => exact h
  | cons path paths ih => exact (ih h).of_removed

theorem not_hasPath_removePaths (hpath : path ∈ paths) (members : Members) :
    ¬ HasPath (pathKeys path) (removePaths paths members).1 := by
  rw [fst_removePaths]
  induction paths generalizing members with
  | nil => cases hpath
  | cons first paths ih =>
    rcases mem_cons.mp hpath with rfl | hpath
    · intro h
      rw [foldl_cons, ← fst_removePaths] at h
      exact not_hasPath_removed path members h.of_removePaths
    · exact ih hpath (removed first members)

theorem HasPath.of_put (h : HasPath keys (members.put key value)) :
    HasPath keys members ∨ keys = [key] ∨
      ∃ next rest child, keys = key :: next :: rest ∧ value = .obj child ∧
        HasPath (next :: rest) child := by
  cases keys with
  | nil => exact .inl h
  | cons first keys =>
    by_cases hfirst : first = key
    · subst hfirst
      cases keys with
      | nil => exact .inr (.inl rfl)
      | cons next rest =>
        obtain ⟨child, hchild, hrest⟩ := h
        rw [get?_put_self] at hchild
        exact .inr (.inr ⟨next, rest, child, rfl, Option.some.inj hchild, hrest⟩)
    · exact .inl (h.congr (get?_put_ne hfirst _ _).symm)

theorem IsReadableIn.pos_of_obj (h : IsReadableIn n (.obj members)) : 0 < n := by
  have hlevels := h.2
  rw [Json.levels] at hlevels
  omega

theorem AreReadable.child {child : Members} (h : AreReadable n members)
    (hmem : (key, .obj child) ∈ members) :
    ∃ less, AreReadable less child := by
  have hchild : IsReadableIn n (.obj child) := h.values _ hmem
  obtain ⟨less, rfl⟩ := Nat.exists_eq_add_one.mpr hchild.pos_of_obj
  exact ⟨less, areReadable_iff.mpr hchild⟩

theorem AreReadable.tail {m : Text × Json} (h : AreReadable n (m :: members)) :
    AreReadable n members where
  keys := (nodup_cons.mp h.keys).2
  joined other hother := h.joined other (mem_cons_of_mem _ hother)
  values other hother := h.values other (mem_cons_of_mem _ hother)

theorem HasPath.of_tail (hall : AreReadable n ((key, value) :: members))
    (h : HasPath keys members) : HasPath keys ((key, value) :: members) := by
  cases keys with
  | nil => exact h
  | cons first keys =>
    refine h.congr ?_
    rw [get?_cons, if_neg]
    rintro rfl
    exact (nodup_cons.mp hall.keys).1 h.mem_keys

theorem mergeValue_cases (current : Option Json) (v : Json) :
    (∃ b o, current = some (.obj b) ∧ v = .obj o ∧ mergeValue current v = .obj (merge b o)) ∨
      mergeValue current v = v := by
  unfold mergeValue
  split
  · split
    · exact .inl ⟨_, _, rfl, rfl, rfl⟩
    · exact .inr rfl
  · exact .inr rfl

theorem HasPath.of_merge (hoverlay : AreReadable n overlay)
    (h : HasPath keys (merge base overlay)) :
    HasPath keys base ∨ HasPath keys overlay := by
  -- The outer induction follows the path into the objects, the inner one the overlay's members.
  induction keys generalizing n base overlay with
  | nil => exact .inl h
  | cons key keys ih =>
    induction overlay generalizing base with
    | nil => exact .inl (by rwa [merge] at h)
    | cons m more ihmore =>
      obtain ⟨k, v⟩ := m
      rcases ihmore hoverlay.tail h with hput | hmore
      · rcases hput.of_put with hbase | hkey | ⟨next, rest, child, hkeys, hvalue, hrest⟩
        · exact .inl hbase
        · obtain ⟨rfl, rfl⟩ := List.cons.inj hkey
          exact .inr (by simp [HasPath])
        obtain ⟨rfl, rfl⟩ := List.cons.inj hkeys
        rcases mergeValue_cases (base.get? key) v with ⟨b, o, hb, rfl, hmerged⟩ | hmerged
        · obtain rfl := Json.obj.inj (hmerged.symm.trans hvalue)
          obtain ⟨less, ho⟩ := hoverlay.child mem_cons_self
          rcases ih ho hrest with hbelow | hbelow
          · exact .inl ⟨b, hb, hbelow⟩
          · exact .inr ⟨o, get?_cons_self _ _ _, hbelow⟩
        · obtain rfl := hmerged.symm.trans hvalue
          exact .inr ⟨child, get?_cons_self _ _ _, hrest⟩
      · exact .inr (hmore.of_tail hoverlay)

theorem get?_merge_of_eq_none (h : overlay.get? key = none) :
    (merge base overlay).get? key = base.get? key := by
  induction overlay generalizing base with
  | nil => rw [merge]
  | cons m more ih =>
    rw [get?_cons] at h
    split at h
    · cases h
    · rename_i hne
      rw [merge, ih h, get?_put_ne (Ne.symm hne)]

theorem get?_merge_of_eq_some {v : Json} (hkeys : overlay.keys.Nodup)
    (h : overlay.get? key = some v) :
    (merge base overlay).get? key = some (mergeValue (base.get? key) v) := by
  induction overlay generalizing base with
  | nil => cases h
  | cons m more ih =>
    obtain ⟨hk, hmore⟩ := nodup_cons.mp hkeys
    rw [get?_cons] at h
    rw [merge]
    split at h
    · rename_i heq
      subst heq
      obtain rfl := Option.some.inj h
      rw [get?_merge_of_eq_none (get?_eq_none_iff.mpr hk), get?_put_self]
    · rename_i hne
      rw [ih hmore h, get?_put_ne (Ne.symm hne)]

theorem AreReadable.erase (h : AreReadable n members) (key : Text) :
    AreReadable n (members.erase key) where
  keys := nodup_keys_erase h.keys
  joined m hm := h.joined m (mem_erase.mp hm).1
  values m hm := h.values m (mem_erase.mp hm).1

theorem AreReadable.mono (h : AreReadable n members) (hle : n ≤ k) : AreReadable k members where
  keys := h.keys
  joined := h.joined
  values m hm := ⟨(h.values m hm).1, (h.values m hm).2.trans hle⟩

theorem AreReadable.removeKeys? (h : AreReadable n members)
    (hremove : Json.removeKeys? keys members = some rest) :
    AreReadable n rest := by
  induction keys generalizing n members rest with
  | nil => cases hremove
  | cons key keys ih =>
    cases keys with
    | nil =>
      unfold Json.removeKeys? at hremove
      split at hremove
      · rw [← Option.some.inj hremove]
        exact h.erase key
      · cases hremove
    | cons next keys =>
      unfold Json.removeKeys? at hremove
      split at hremove
      · rename_i child hchild
        have hmem := mem_of_get? hchild
        obtain ⟨less, hless, heq⟩ := Option.map_eq_some_iff.mp hremove
        split at heq
        · rw [← heq]
          exact h.erase key
        rw [← heq]
        have hvalue : IsReadableIn n (.obj child) := h.values _ hmem
        obtain ⟨k, rfl⟩ := Nat.exists_eq_add_one.mpr hvalue.pos_of_obj
        have hrest := ih (areReadable_iff.mpr hvalue) hless
        exact h.put (h.joined _ hmem) (areReadable_iff.mp hrest)
      · cases hremove

theorem AreReadable.removePaths (h : AreReadable n members) (paths : List Text) :
    AreReadable n (Json.removePaths paths members).1 := by
  rw [fst_removePaths]
  induction paths generalizing members with
  | nil => exact h
  | cons path paths ih =>
    refine ih (show AreReadable n (removed path members) from ?_)
    unfold removed
    cases hremove : removePath? path members with
    | none => exact h
    | some rest => exact h.removeKeys? hremove

theorem AreReadable.merge (hbase : AreReadable n base) (hoverlay : AreReadable n overlay) :
    AreReadable n (merge base overlay) := by
  -- The outer induction goes down the levels, the inner one along the overlay's members.
  induction n using Nat.strong_induction_on generalizing base overlay with
  | _ n ih =>
    induction overlay generalizing base with
    | nil => rwa [Json.merge]
    | cons m more ihmore =>
      obtain ⟨k, v⟩ := m
      have hv : IsReadableIn n v := hoverlay.values _ mem_cons_self
      refine ihmore (hbase.put (hoverlay.joined _ mem_cons_self) ?_) hoverlay.tail
      rcases mergeValue_cases (base.get? k) v with ⟨b, o, hb, rfl, hmerged⟩ | hmerged <;>
        rw [hmerged]
      · obtain ⟨less, rfl⟩ := Nat.exists_eq_add_one.mpr hv.pos_of_obj
        exact areReadable_iff.mp (ih less (Nat.lt_succ_self less)
          (areReadable_iff.mpr (hbase.values _ (mem_of_get? hb))) (areReadable_iff.mpr hv))
      · exact hv

theorem overlay_eq_ok (h : Json.overlay (.obj base) overlay = .ok merged) :
    merged = .obj (merge base overlay) ∧ memberLevels base < maxMergeLevels ∧
      memberLevels overlay ≤ maxMergeLevels := by
  unfold Json.overlay at h
  split at h
  · cases h
  rename_i hlevels
  rw [Json.levels] at hlevels
  dsimp only at h
  split at h
  · cases h
  · exact ⟨(Except.ok.inj h).symm, by omega, by omega⟩

theorem AreReadable.of_levels (h : AreReadable n members) (hlevels : memberLevels members ≤ k) :
    AreReadable k members where
  keys := h.keys
  joined := h.joined
  values m hm := ⟨(h.values m hm).1, memberLevels_le_iff.mp hlevels m hm⟩

theorem isReadable_overlay (hbase : AreReadable n base)
    (hoverlay : AreReadable k overlay) (h : Json.overlay (.obj base) overlay = .ok merged) :
    IsReadableIn maxLevels merged := by
  obtain ⟨rfl, hb, ho⟩ := overlay_eq_ok h
  have hmerged := (hbase.of_levels hb.le).merge (hoverlay.of_levels ho)
  exact areReadable_iff.mp (hmerged.mono (show maxMergeLevels ≤ maxLevels - 1 by decide))

end AgentConfig.Json

namespace AgentConfig.Json

open List Members

variable {keys path : List Text} {members rest child others : Members} {v : Json} {key : Text}

/-- The keys lead to a value that is not an object with members. -/
def HasLeaf : List Text → Json → Members → Prop
  | [], _, _ => False
  | [key], v, members => members.get? key = some v ∧ ∀ child, v = .obj child → child = []
  | key :: next :: keys, v, members =>
    ∃ child, members.get? key = some (.obj child) ∧ HasLeaf (next :: keys) v child

theorem HasLeaf.congr (h : others.get? key = members.get? key)
    (hleaf : HasLeaf (key :: keys) v members) : HasLeaf (key :: keys) v others := by
  cases keys with
  | nil => exact ⟨h.trans hleaf.1, hleaf.2⟩
  | cons next keys =>
    obtain ⟨child, hchild, hrest⟩ := hleaf
    exact ⟨child, h.trans hchild, hrest⟩

theorem not_hasLeaf_of_get?_eq_none (h : members.get? key = none) :
    ¬ HasLeaf (key :: keys) v members := by
  cases keys with
  | nil =>
    rintro ⟨hget, -⟩
    cases h.symm.trans hget
  | cons next keys =>
    rintro ⟨child, hchild, -⟩
    cases h.symm.trans hchild

theorem not_hasLeaf_nil (keys : List Text) (v : Json) : ¬ HasLeaf keys v [] := by
  cases keys with
  | nil => exact fun h => h
  | cons key keys => exact not_hasLeaf_of_get?_eq_none rfl

theorem hasLeaf_cons_iff (h : members.get? key = some (.obj child)) (hne : child ≠ []) :
    HasLeaf (key :: keys) v members ↔ HasLeaf keys v child := by
  cases keys with
  | nil =>
    constructor
    · rintro ⟨hget, hempty⟩
      cases h.symm.trans hget
      exact hne (hempty child rfl)
    · exact False.elim
  | cons next keys =>
    constructor
    · rintro ⟨other, hother, hrest⟩
      cases h.symm.trans hother
      exact hrest
    · exact fun hrest => ⟨child, h, hrest⟩

theorem HasLeaf.hasPath (h : HasLeaf path v members) (hne : keys ≠ []) (hway : keys <+: path) :
    HasPath keys members := by
  induction keys generalizing path members with
  | nil => exact absurd rfl hne
  | cons key keys ih =>
    obtain ⟨rest, rfl⟩ := hway
    cases keys with
    | nil =>
      by_contra hnot
      exact not_hasLeaf_of_get?_eq_none (Members.get?_eq_none_iff.mpr hnot) h
    | cons next keys =>
      obtain ⟨child, hchild, hrest⟩ := h
      exact ⟨child, hchild, ih hrest (by simp) ⟨rest, rfl⟩⟩

theorem ne_nil_of_removeKeys? (h : removeKeys? keys members = some rest) : members ≠ [] := by
  rintro rfl
  cases keys with
  | nil => cases h
  | cons key keys =>
    cases keys with
    | nil => cases h
    | cons next keys => cases h

/-- A removal takes away the leaves below what is removed, and no others. -/
theorem hasLeaf_of_removeKeys? (h : removeKeys? keys members = some rest) :
    HasLeaf path v rest ↔ HasLeaf path v members ∧ ¬ keys <+: path := by
  induction keys generalizing members rest path with
  | nil => cases h
  | cons key keys ih =>
    obtain ⟨hothers, hkey⟩ := removeKeys?_cons h
    cases path with
    | nil => simp [HasLeaf]
    | cons first path =>
      by_cases hfirst : first = key
      · subst hfirst
        obtain ⟨hnone, rfl | ⟨child, hchild, hempty⟩⟩ | ⟨child, less, hchild, hless, hne, hget⟩ :=
          hkey
        · simp [not_hasLeaf_of_get?_eq_none hnone]
        · have hleaves : HasLeaf path v [] ↔ HasLeaf path v child ∧ ¬ keys <+: path := ih hempty
          rw [hasLeaf_cons_iff hchild (ne_nil_of_removeKeys? hempty)]
          simpa [not_hasLeaf_of_get?_eq_none hnone, not_hasLeaf_nil] using hleaves
        · rw [hasLeaf_cons_iff hget hne, hasLeaf_cons_iff hchild (ne_nil_of_removeKeys? hless),
            ih hless]
          simp
      · have hsame := hothers first hfirst
        have hapart : ¬ key :: keys <+: first :: path := by
          rw [cons_prefix_cons]
          exact fun heq => hfirst heq.1.symm
        exact ⟨fun hleaf => ⟨hleaf.congr hsame.symm, hapart⟩, fun hleaf => hleaf.1.congr hsame⟩

theorem pathKeys_ne_nil (path : Text) : pathKeys path ≠ [] := by
  have hne : (Text.splitOn '.' path).reverse ≠ [] := by
    rw [Ne, reverse_eq_nil_iff]
    exact splitOn_ne_nil _ path
  unfold pathKeys
  split
  · split <;> simp
  · simpa using hne

theorem hasLeaf_removed {path : Text} : HasLeaf keys v (removed path members) ↔
      HasLeaf keys v members ∧ ¬ pathKeys path <+: keys := by
  unfold removed
  cases hremove : removePath? path members with
  | some rest => exact hasLeaf_of_removeKeys? hremove
  | none =>
    refine ⟨fun hleaf => ⟨hleaf, fun hway => ?_⟩, And.left⟩
    exact not_hasPath_of_removeKeys?_eq_none hremove (hleaf.hasPath (pathKeys_ne_nil path) hway)

/-- An object without what some key paths lead to. -/
structure IsWithout (paths : List Text) (members rest : Members) : Prop where
  eq : rest = (removePaths paths members).1
  leaves : ∀ keys v, HasLeaf keys v rest ↔
    HasLeaf keys v members ∧ ∀ path ∈ paths, ¬ pathKeys path <+: keys

/-- The removal of several paths, one after the other, takes away what lies below one of them; what
it empties goes with it, and all else stays. -/
theorem isWithout_removePaths (paths : List Text) (members : Members) :
    IsWithout paths members (removePaths paths members).1 := by
  refine ⟨rfl, fun keys v => ?_⟩
  rw [fst_removePaths]
  induction paths generalizing members with
  | nil => simp
  | cons path paths ih => rw [foldl_cons, ih, hasLeaf_removed, forall_mem_cons, and_assoc]

end AgentConfig.Json
