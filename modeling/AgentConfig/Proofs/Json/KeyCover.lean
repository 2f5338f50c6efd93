import AgentConfig.Proofs.Json.KeyPaths

namespace AgentConfig.Json

open List Members

variable {key path other : Text} {members : Members} {depth : Nat} {v : Json} {keys : List Text}
  {paths : List Text}

theorem splitOn_dot (start path : Text) :
    Text.splitOn '.' (start ++ ("." : Text) ++ path) =
      Text.splitOn '.' start ++ Text.splitOn '.' path := by
  rw [append_assoc]
  exact splitOnP_append_cons start path (beq_self_eq_true _)

theorem pathKeys_of_splitOn {parts : List Text} {last : Text}
    (h : Text.splitOn '.' path = parts ++ [last]) :
    pathKeys path = if parts ≠ [] ∧ last = [] then parts else parts ++ [last] := by
  rw [pathKeys, h, reverse_append]
  cases hparts : parts.reverse with
  | nil => simp [reverse_eq_nil_iff.mp hparts]
  | cons next more =>
    obtain rfl : parts = (next :: more).reverse := by rw [← hparts, reverse_reverse]
    cases last <;> simp

theorem exists_splitOn (path : Text) : ∃ parts last, Text.splitOn '.' path = parts ++ [last] :=
  ⟨_, _, (dropLast_append_getLast (splitOn_ne_nil _ path)).symm⟩

theorem pathKeys_of_key (h : .char '.' ∉ key) : pathKeys key = [key] := by
  have hparts : Text.splitOn '.' key = [] ++ [key] := splitOn_eq_singleton h
  rw [pathKeys_of_splitOn hparts]
  simp

theorem pathKeys_dot (start : Text) (hpath : path ≠ []) :
    pathKeys (start ++ ("." : Text) ++ path) = Text.splitOn '.' start ++ pathKeys path := by
  obtain ⟨parts, last, hparts⟩ := exists_splitOn path
  have hne : Text.splitOn '.' start ≠ [] := splitOn_ne_nil _ start
  rw [pathKeys_of_splitOn hparts,
    pathKeys_of_splitOn (splitOn_dot start path ▸ hparts ▸ (append_assoc _ _ _).symm)]
  cases parts with
  | nil =>
    have hlast : last ≠ [] := by
      have hjoin : [Letter.char '.'].intercalate (Text.splitOn '.' path) = path :=
        intercalate_splitOn _
      rw [hparts] at hjoin
      rintro rfl
      exact hpath hjoin.symm
    simp [hlast]
  | cons part parts => split <;> simp_all

theorem pathKeys_isPrefix (h : path ++ ("." : Text) <+: other) :
    pathKeys path <+: pathKeys other := by
  obtain ⟨rest, rfl⟩ := h
  have hway : Text.splitOn '.' path <+: pathKeys (path ++ ("." : Text) ++ rest) := by
    by_cases hrest : rest = []
    · subst hrest
      have hsplit : _ = _ ++ [([] : Text)] := splitOn_dot path []
      have hkeys := pathKeys_of_splitOn hsplit
      rw [if_pos ⟨splitOn_ne_nil _ path, rfl⟩] at hkeys
      exact hkeys ▸ prefix_refl _
    · rw [pathKeys_dot path hrest]
      exact prefix_append _ _
  refine List.IsPrefix.trans ?_ hway
  obtain ⟨parts, last, hparts⟩ := exists_splitOn path
  rw [pathKeys_of_splitOn hparts, hparts]
  split
  · exact prefix_append _ _
  · exact prefix_refl _

theorem exists_hasLeaf_cons (v : Json) {key : Text} {members : Members}
    (hget : members.get? key = some v) : ∃ keys leaf, HasLeaf (key :: keys) leaf members := by
  match v with
  | .obj ((next, w) :: rest) =>
    obtain ⟨keys, leaf, hleaf⟩ := exists_hasLeaf_cons w (get?_cons_self next w rest)
    exact ⟨next :: keys, leaf, (hasLeaf_cons_iff hget (cons_ne_nil _ _)).mpr hleaf⟩
  | .obj [] | .null | .bool _ | .int _ | .real _ | .str _ | .arr _ =>
    exact ⟨[], _, hget, by simp⟩

theorem exists_hasLeaf (hne : members ≠ []) : ∃ keys v, HasLeaf keys v members := by
  obtain ⟨⟨key, v⟩, rest, rfl⟩ := exists_cons_of_ne_nil hne
  obtain ⟨keys, leaf, hleaf⟩ := exists_hasLeaf_cons v (get?_cons_self key v rest)
  exact ⟨key :: keys, leaf, hleaf⟩

theorem HasPath.exists_hasLeaf (h : HasPath keys members) :
    ∃ path v, keys <+: path ∧ HasLeaf path v members := by
  induction keys generalizing members with
  | nil => exact h.elim
  | cons key keys ih =>
    cases keys with
    | nil =>
      obtain ⟨v, hget⟩ := exists_get?_iff.mpr h
      obtain ⟨path, leaf, hleaf⟩ := exists_hasLeaf_cons v hget
      exact ⟨key :: path, leaf, by simp, hleaf⟩
    | cons next keys =>
      obtain ⟨child, hget, hrest⟩ := h
      obtain ⟨path, v, ⟨more, rfl⟩, hleaf⟩ := ih hrest
      exact ⟨key :: (next :: keys ++ more), v, ⟨more, rfl⟩, child, hget, hleaf⟩

/-- Neither of the paths goes on from the other. -/
def PartWays (p q : Text) : Prop := ¬ pathKeys p <+: pathKeys q ∧ ¬ pathKeys q <+: pathKeys p

instance : Std.Symm PartWays := ⟨fun _ _ => And.symm⟩

/-- Key paths that lead to separate parts of an object, which together are all of it: every leaf of
the object lies below one of them. -/
structure Covers (paths : List Text) (members : Members) : Prop where
  leads : ∀ path ∈ paths, path ≠ [] ∧ HasPath (pathKeys path) members
  whole : ∀ {keys v}, HasLeaf keys v members → ∃ path ∈ paths, pathKeys path <+: keys
  apart : paths.Pairwise PartWays

theorem Covers.perm (h : Covers paths members) {order : List Text} (hperm : order.Perm paths) :
    Covers order members where
  leads path hpath := h.leads path (hperm.mem_iff.mp hpath)
  whole hleaf := by
    obtain ⟨path, hpath, hway⟩ := h.whole hleaf
    exact ⟨path, hperm.mem_iff.mpr hpath, hway⟩
  apart := (hperm.pairwise_iff And.symm).mpr h.apart

/-- The paths of a cover can be removed one after the other. Each leads to something in what the
others have left, and in the end nothing is left. -/
theorem Covers.foldlM_removePath? (h : Covers paths members) :
    paths.foldlM (fun rest path => removePath? path rest) members = some [] := by
  have hsteps (before after : List Text) (hsplit : paths = before ++ after) :
      before.foldlM (fun rest path => removePath? path rest) members =
        some (removePaths before members).1 := by
    induction before using reverseRecOn generalizing after with
    | nil => rfl
    | append_singleton before path ih =>
      -- A leaf below the path is below no other one, so it is still there.
      obtain ⟨keys, v, hway, hleaf⟩ := (h.leads path (by simp [hsplit])).2.exists_hasLeaf
      have hrest := ih (path :: after) (by simp [hsplit])
      have hstill : HasLeaf keys v (removePaths before members).1 := by
        refine ((isWithout_removePaths before members).leaves keys v).mpr ⟨hleaf, ?_⟩
        intro other hother hotherWay
        have hapart := h.apart
        rw [hsplit, append_assoc] at hapart
        have hne := (pairwise_append.mp hapart).2.2 other hother path (by simp)
        obtain hway' | hway' := prefix_or_prefix_of_prefix hotherWay hway
        · exact hne.1 hway'
        · exact hne.2 hway'
      obtain ⟨less, hless⟩ : ∃ less, removePath? path (removePaths before members).1 = some less :=
        Option.ne_none_iff_exists'.mp fun hnone => not_hasPath_of_removeKeys?_eq_none hnone
          (hstill.hasPath (pathKeys_ne_nil path) hway)
      have hnext : (removePaths (before ++ [path]) members).1 =
          removed path (removePaths before members).1 := by
        rw [fst_removePaths, fst_removePaths, foldl_append]
        rfl
      rw [foldlM_append, hrest, hnext]
      simp [hless, removed]
  rw [hsteps paths [] (by simp)]
  by_contra hne
  obtain ⟨keys, v, hleaf⟩ := exists_hasLeaf fun hnil => hne (congrArg some hnil)
  obtain ⟨hold, hnone⟩ := ((isWithout_removePaths paths members).leaves keys v).mp hleaf
  obtain ⟨path, hpath, hway⟩ := h.whole hold
  exact hnone path hpath hway

/-- A key that stands for itself in a dotted path. -/
def IsPathKey (key : Text) : Prop := key ≠ [] ∧ .char '.' ∉ key
  deriving Decidable

theorem keyPaths_eq (depth : Nat) (members : Members) :
    keyPaths depth members = members.flatMap fun m => memberPaths depth m.1 m.2 := by
  induction members with
  | nil => rfl
  | cons m members ih => rw [keyPaths, ih, flatMap_cons]

theorem memberPaths_cases (depth : Nat) (key : Text) (v : Json) : memberPaths depth key v = [key] ∨
      ∃ less child, depth = less + 1 ∧ v = .obj child ∧ child ≠ [] ∧
        memberPaths depth key v = (keyPaths less child).map (key ++ ("." : Text) ++ ·) := by
  unfold memberPaths
  split
  · exact .inl rfl
  · split
    · exact .inr ⟨depth - 1, _, by omega, rfl, by simp, rfl⟩
    · exact .inl rfl
  · exact .inl rfl

/-- What the paths of a member are to the object it stands in. -/
structure CoversMember (paths : List Text) (key : Text) (members : Members) : Prop where
  leads : ∀ path ∈ paths, path ≠ [] ∧ HasPath (pathKeys path) members ∧
    ∃ keys, pathKeys path = key :: keys
  whole : ∀ {keys leaf}, HasLeaf (key :: keys) leaf members →
    ∃ path ∈ paths, pathKeys path <+: key :: keys
  apart : paths.Pairwise PartWays

theorem coversMember_memberPaths
    (hless : ∀ less child, depth = less + 1 → v = .obj child → Covers (keyPaths less child) child)
    (hspelled : IsPathKey key) (hget : members.get? key = some v) :
    CoversMember (memberPaths depth key v) key members := by
  rcases memberPaths_cases depth key v with hpaths | ⟨less, child, rfl, rfl, hne, hpaths⟩ <;>
    rw [hpaths]
  · have hkeys := pathKeys_of_key hspelled.2
    refine ⟨?_, fun {keys _} _ => ⟨key, by simp, by simp [hkeys]⟩, pairwise_singleton _ _⟩
    simp only [mem_singleton, forall_eq, hkeys]
    exact ⟨hspelled.1, exists_get?_iff.mp ⟨v, hget⟩, [], rfl⟩
  · obtain ⟨hleads, hwhole, hapart⟩ := hless less child rfl rfl
    have hkeys {path : Text} (hpath : path ∈ keyPaths less child) :
        pathKeys (key ++ ("." : Text) ++ path) = key :: pathKeys path := by
      rw [pathKeys_dot key (hleads path hpath).1, Text.splitOn,
        splitOn_eq_singleton hspelled.2, singleton_append]
    refine ⟨?_, ?_, ?_⟩
    · intro path hpath
      obtain ⟨below, hbelow, rfl⟩ := mem_map.mp hpath
      rw [hkeys hbelow]
      refine ⟨by simp [hspelled.1], ?_, _, rfl⟩
      obtain ⟨next, rest, hnext⟩ := exists_cons_of_ne_nil (pathKeys_ne_nil below)
      have hpath := (hleads below hbelow).2
      rw [hnext] at hpath ⊢
      exact ⟨child, hget, hpath⟩
    · intro keys leaf hleaf
      obtain ⟨below, hbelow, hway⟩ := hwhole ((hasLeaf_cons_iff hget hne).mp hleaf)
      refine ⟨_, mem_map_of_mem hbelow, ?_⟩
      rw [hkeys hbelow]
      exact prefix_cons_inj key |>.mpr hway
    · rw [pairwise_map]
      refine hapart.imp_of_mem fun {p q} hp hq hpq => ?_
      rw [PartWays, hkeys hp, hkeys hq, prefix_cons_inj, prefix_cons_inj]
      exact hpq

theorem covers_keyPaths (h : IsKeyed IsPathKey (.obj members)) (depth : Nat) :
    Covers (keyPaths depth members) members := by
  induction depth using Nat.strong_induction_on generalizing members with
  | _ depth ih =>
    cases h with
    | plain h => exact absurd rfl (h members)
    | obj hkeys hspelled hvalues =>
      have hmember {m : Text × Json} (hm : m ∈ members) :
          CoversMember (memberPaths depth m.1 m.2) m.1 members := by
        refine coversMember_memberPaths (fun less child hdepth hchild => ?_)
          (hspelled m.1 (mem_map_of_mem hm)) (get?_of_mem hkeys hm)
        exact ih less (by omega) (hchild ▸ hvalues m hm)
      rw [keyPaths_eq]
      refine ⟨fun path hpath => ?_, fun {keys v} hleaf => ?_, ?_⟩
      · obtain ⟨m, hm, hpath⟩ := mem_flatMap.mp hpath
        obtain ⟨hne, hlead, -⟩ := (hmember hm).leads path hpath
        exact ⟨hne, hlead⟩
      · cases keys with
        | nil => exact hleaf.elim
        | cons key keys =>
          obtain ⟨w, hget⟩ := Option.ne_none_iff_exists'.mp fun hnone =>
            not_hasLeaf_of_get?_eq_none hnone hleaf
          have hm := mem_of_get? hget
          obtain ⟨path, hpath, hway⟩ := (hmember hm).whole hleaf
          exact ⟨path, mem_flatMap.mpr ⟨_, hm, hpath⟩, hway⟩
      · refine pairwise_flatMap.mpr ⟨fun m hm => (hmember hm).apart, ?_⟩
        refine (pairwise_map.mp hkeys).imp_of_mem fun {m n} hm hn hne p hp q hq => ?_
        obtain ⟨-, -, keys, hp⟩ := (hmember hm).leads p hp
        obtain ⟨-, -, others, hq⟩ := (hmember hn).leads q hq
        rw [PartWays, hp, hq, cons_prefix_cons, cons_prefix_cons]
        exact ⟨fun heq => hne heq.1, fun heq => hne heq.1.symm⟩

/-- The key paths of a document, down to any depth, can be removed in any order: each leads to
something when its turn comes, and in the end the document is empty. They are distinct, and none
goes on from another. -/
theorem keyPaths_cover_document (h : IsKeyed IsPathKey (.obj members)) (depth : Nat) :
    (∀ order : List Text, order.Perm (keyPaths depth members) →
      order.foldlM (fun rest path => removePath? path rest) members = some []) ∧
    (keyPaths depth members).Nodup ∧
    ∀ p ∈ keyPaths depth members, ∀ q ∈ keyPaths depth members, ¬ p ++ ("." : Text) <+: q := by
  have hcovers := covers_keyPaths h depth
  refine ⟨fun order hperm => (hcovers.perm hperm).foldlM_removePath?, ?_, fun p hp q hq hway => ?_⟩
  · refine hcovers.apart.imp fun {p q} hpq => ?_
    rintro rfl
    exact hpq.1 (prefix_refl _)
  · by_cases heq : p = q
    · have hlength := hway.length_le
      simp [heq, Text.ofString, Text.ofChars] at hlength
    · exact (hcovers.apart.forall hp hq heq).1 (pathKeys_isPrefix hway)

/-- A document with an empty object and one below the depth. -/
theorem keyPaths_cover_nested :
    let members : Members :=
      [("a", .obj [("b", .obj []), ("c", .obj [("d", .null)])]), ("e", .arr [])]
    IsKeyed IsPathKey (.obj members) ∧ keyPaths 2 members = ["a.b", "a.c", "e"] ∧
      ["e", "a.c", "a.b"].foldlM (fun rest path => removePath? path rest) members = some [] := by
  intro members
  have hkeyed : IsKeyed IsPathKey (.obj members) := by
    refine .obj (by decide) (by decide) ?_
    simp only [members, forall_mem_cons]
    refine ⟨.obj (by decide) (by decide) ?_, .plain nofun, nofun⟩
    simp only [forall_mem_cons]
    refine ⟨.obj (by decide) (by decide) nofun, .obj (by decide) (by decide) ?_, nofun⟩
    simp only [forall_mem_cons]
    exact ⟨.plain nofun, nofun⟩
  have hpaths : keyPaths 2 members = ["a.b", "a.c", "e"] := by decide
  refine ⟨hkeyed, hpaths, (keyPaths_cover_document hkeyed 2).1 _ ?_⟩
  rw [hpaths]
  decide

end AgentConfig.Json
