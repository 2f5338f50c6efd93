import AgentConfig.Proofs.FileTree.Directories

namespace AgentConfig.FileTree

open List AgentConfig.Path

variable {alike way : List Text → Prop} {base t u t' u' : FileTree}
  {path location names place source stop target : List Text}

section Same

variable (hproper : AreProper path) (hsame : ∀ place, place <+: path → u.get? place = t.get? place)
include hproper hsame

theorem locate_congr : u.locate path = t.locate path := by
  have hwalk (here : List Text) {names : List Text} (hnames : AreProper names)
      (hsame : ∀ place, place <+: here ++ names → u.get? place = t.get? place) :
      u.walk here names = t.walk here names := by
    induction names generalizing here with
    | nil => rfl
    | cons name rest ih =>
      have hname : name ≠ ".." := (hnames name mem_cons_self).ne_up
      rw [append_cons] at hsame
      simp only [walk, hname, if_false, hsame here (by simp), ih _ hnames.tail hsame]
  unfold locate
  split
  · rfl
  · rename_i names hnames
    obtain rfl := (mapM_fileName? hproper hnames).1
    rw [hwalk [] hproper hsame]

theorem entry?_congr : u.entry? path = t.entry? path := by
  unfold entry?
  rw [locate_congr hproper hsame]
  split
  · rename_i place hlocate
    rw [locate_eq hproper hlocate, hsame path prefix_rfl]
  · rfl
  · rfl

theorem readFile_congr : u.readFile path = t.readFile path := by
  unfold readFile
  rw [locate_congr hproper hsame]
  cases hlocate : t.locate path with
  | error fault => rfl
  | ok place =>
    rw [locate_eq hproper hlocate]
    simp only [bind, Except.bind, hsame path prefix_rfl]

end Same

theorem WellFormed.isEmptyDir_iff (ht : t.WellFormed) : t.isEmptyDir location = true ↔
    ∀ rest, rest ≠ [] → t.get? (location ++ rest) = none := by
  simp only [isEmptyDir, Bool.not_eq_true', any_eq_false]
  constructor
  · intro h rest hne
    by_contra hsome
    obtain ⟨entry, hget⟩ := Option.ne_none_iff_exists'.mp hsome
    exact h _ (WellFormed.mem_of_get? (by simp [hne]) hget)
      (Option.isSome_iff_exists.mpr ⟨rest, below?_eq_some_iff.mpr ⟨hne, rfl⟩⟩)
  · rintro h ⟨place, entry⟩ hmem hbelow
    obtain ⟨rest, hrest⟩ := Option.isSome_iff_exists.mp hbelow
    obtain ⟨hne, rfl⟩ := below?_eq_some_iff.mp hrest
    cases (ht.get?_of_mem hmem).symm.trans (h rest hne)

/-- At some places `u` has what `t` has, on the way to others the directories of `t` and of `base`,
and elsewhere what `base` has. -/
structure Mirrors (alike way : List Text → Prop) (base t u : FileTree) : Prop where
  left : t.WellFormed
  right : u.WellFormed
  alike_eq : ∀ {place}, alike place → u.get? place = t.get? place
  way_eq : ∀ {place}, way place → u.get? place = (base.get? place).or (t.get? place)
  bytes_eq : ∀ {place}, way place → base.bytesAt place = t.bytesAt place
  other_eq : ∀ {place}, ¬ alike place → ¬ way place → u.get? place = base.get? place

namespace Mirrors

theorem refl (ht : t.WellFormed) : Mirrors alike way t t t :=
  ⟨ht, ht, fun _ => rfl, fun _ => by cases t.get? _ <;> rfl, fun _ => rfl, fun _ _ => rfl⟩

section

variable (h : Mirrors alike way base t u)
include h

theorem bytesAt_eq (hplace : alike place ∨ way place) : u.bytesAt place = t.bytesAt place := by
  rcases hplace with hplace | hplace
  · exact bytesAt_congr (h.alike_eq hplace)
  · have hbytes := h.bytes_eq hplace
    have hget := h.way_eq hplace
    cases hbase : base.get? place with
    | none => exact bytesAt_congr (by rw [hget, hbase, Option.none_or])
    | some entry =>
      rw [← hbytes]
      exact bytesAt_congr (by rw [hget, hbase, Option.some_or])

theorem dir_iff (hplace : way place) : u.get? place = some .dir ↔
    base.get? place = some .dir ∨ t.get? place = some .dir := by
  have hbytes := h.bytes_eq hplace
  rw [h.way_eq hplace]
  cases hget : base.get? place with
  | none => simp
  | some entry =>
    cases entry with
    | dir => simp
    | file bytes =>
      rw [bytesAt_eq_some_iff.mpr hget, eq_comm, bytesAt_eq_some_iff] at hbytes
      simp [hbytes]

theorem changed (halike : alike location) (hway : ¬ way location) (ht : t'.WellFormed)
    (hu : u'.WellFormed) (hat : u'.get? location = t'.get? location)
    (hleft : ∀ {place}, place ≠ location → t'.get? place = t.get? place)
    (hright : ∀ {place}, place ≠ location → u'.get? place = u.get? place) :
    Mirrors alike way base t' u' := by
  have hne {place : List Text} (hplace : way place) : place ≠ location := by
    rintro rfl
    exact hway hplace
  refine ⟨ht, hu, fun {place} hplace => ?_, fun hplace => ?_, fun hplace => ?_,
    fun hplace hno => ?_⟩
  · by_cases heq : place = location
    · rw [heq, hat]
    · rw [hleft heq, hright heq, h.alike_eq hplace]
  · rw [hleft (hne hplace), hright (hne hplace), h.way_eq hplace]
  · rw [h.bytes_eq hplace, bytesAt_congr (hleft (hne hplace))]
  · rw [hright (by rintro rfl; exact hplace halike), h.other_eq hplace hno]

theorem made (hplace : alike location ∨ way location) (ht : t.GrowsTo t') (hu : u.GrowsTo u')
    (hdir : t'.get? location = some .dir) (hdir' : u'.get? location = some .dir)
    (hleft : ∀ {place}, place ≠ location → t'.get? place = t.get? place)
    (hright : ∀ {place}, place ≠ location → u'.get? place = u.get? place) :
    Mirrors alike way base t' u' := by
  refine ⟨ht.wellFormed, hu.wellFormed, fun {place} halike => ?_, fun {place} hway => ?_,
    fun hway => (h.bytes_eq hway).trans (ht.bytesAt_eq _).symm, fun {place} hno hnot => ?_⟩
  · by_cases heq : place = location
    · rw [heq, hdir, hdir']
    · rw [hleft heq, hright heq, h.alike_eq halike]
  · by_cases heq : place = location
    · subst heq
      have hbase := (h.bytes_eq hway).trans (ht.bytesAt_eq place).symm
      rw [bytesAt_of_dir hdir] at hbase
      rw [hdir, hdir']
      cases hget : base.get? place with
      | none => rfl
      | some entry =>
        cases entry with
        | dir => rfl
        | file bytes =>
          rw [bytesAt_eq_some_iff.mpr hget] at hbase
          cases hbase
    · rw [hleft heq, hright heq, h.way_eq hway]
  · have hne : place ≠ location := by
      rintro rfl
      exact hplace.elim hno hnot
    rw [hright hne, h.other_eq hno hnot]

theorem madeDir (hproper : AreProper path) (hfits : Fits path) (hplace : alike path ∨ way path)
    (ht : t.get? path.dropLast = some .dir) (hu : u.get? path.dropLast = some .dir) :
    TreeChange.Alike (Mirrors alike way base) (t.madeDir path) (u.madeDir path) := by
  by_cases hlong : IsTooLong path
  · have hrefused {t : FileTree} (ht : t.WellFormed) (hdir : t.get? path.dropLast = some .dir) :
        t.madeDir path = .error (.nameTooLong, t) :=
      madeDir_of_locate_error ((ht.locate_of_above hfits.1 hdir).resolve_left fun hok =>
        not_isTooLong_of_locate hproper hok hlong).1
    rw [hrefused h.left ht, hrefused h.right hu]
    exact ⟨h, rfl⟩
  have hbytes := h.bytesAt_eq hplace
  rcases madeDir_cases h.left hproper (h.left.locate_eq_ok hlong hfits.1 ht) with
    ⟨bytes, hfile, hfails⟩ | ⟨hfree, t', hmade, hgrown, hleft⟩ <;>
  rcases madeDir_cases h.right hproper (h.right.locate_eq_ok hlong hfits.1 hu) with
    ⟨bytes', hfile', hfails'⟩ | ⟨hfree', u', hmade', hgrown', hright⟩
  · rw [hfails, hfails']
    exact ⟨h, rfl⟩
  · cases hfile.symm.trans (hbytes.symm.trans hfree')
  · cases hfile'.symm.trans (hbytes.trans hfree)
  · rw [hmade, hmade']
    exact ⟨h.made hplace hgrown hgrown' (madeDir_ok hproper h.left hmade)
      (madeDir_ok hproper h.right hmade') hleft hright, rfl⟩

theorem makeDirs (hproper : AreProper path)
    (hplaces : ∀ place, place <+: path → alike place ∨ way place) :
    TreeChange.Alike (Mirrors alike way base) (t.makeDirs path) (u.makeDirs path) := by
  by_cases hfits : Fits path
  · induction path using reverseRecOn with
    | nil => exact ⟨h, rfl⟩
    | append_singleton above name ih =>
      have habove := hproper.of_subset (subset_append_left above [name])
      have hmade := ih habove (fun place hplace => hplaces place (hplace.trans (prefix_append _ _)))
        hfits.above
      refine (hmade.bind fun ht hu hnext => ?_).congr (makeDirs_concat hproper hfits)
        (makeDirs_concat hproper hfits)
      refine hnext.madeDir hproper hfits (hplaces _ prefix_rfl) ?_ ?_ <;> rw [dropLast_concat]
      · exact makeDirs_ok h.left habove ht
      · exact makeDirs_ok h.right habove hu
  · obtain ⟨fault, hfault⟩ := makeDirs_of_not_fits hproper hfits
    rw [hfault, hfault]
    exact ⟨h, rfl⟩

theorem same_below (ht : t.get? path.dropLast = some .dir) (hu : u.get? path.dropLast = some .dir)
    (halike : alike path) : ∀ place, place <+: path → u.get? place = t.get? place := by
  intro place hplace
  rcases eq_nil_or_concat path with rfl | ⟨above, name, rfl⟩
  · rw [prefix_nil.mp hplace, get?_nil, get?_nil]
  rw [concat_eq_append, dropLast_concat] at ht hu
  rw [concat_eq_append, prefix_concat_iff, ← concat_eq_append] at hplace
  rcases hplace with rfl | hplace
  · exact h.alike_eq halike
  · rw [h.left.get?_of_prefix ht hplace, h.right.get?_of_prefix hu hplace]

section Files

variable (hproper : AreProper path) (hsame : ∀ place, place <+: path → u.get? place = t.get? place)
  (halike : alike path) (hway : ¬ way path)
include hproper hsame halike hway

theorem writeFile (bytes : ByteArray) : TreeChange.Alike (Mirrors alike way base)
    (t.step (t.writeFile path bytes)) (u.step (u.writeFile path bytes)) := by
  have hlocate := locate_congr hproper hsame
  have hget := hsame path prefix_rfl
  refine .step (u.put path (.file bytes)) h ?_ fun t' hwrite => ?_
  · unfold FileTree.writeFile
    rw [hlocate]
    cases ht : t.locate path with
    | error fault => rfl
    | ok place =>
      obtain rfl := locate_eq hproper ht
      simp only [bind, Except.bind, hget]
      split <;> rfl
  · obtain ⟨place, ht, hno, rfl⟩ := writeFile_put hwrite
    obtain ⟨rfl, hnamed, habove⟩ := locate_inv hproper ht
    have hne := ne_nil_of_get?_ne hno
    refine h.changed halike hway (h.left.put hne hnamed habove (.inr hno))
      (h.right.put hne hnamed (locate_inv hproper (hlocate.trans ht)).2.2 (.inr (hget ▸ hno)))
      ?_ (get?_put_ne t _) (get?_put_ne u _)
    rw [get?_put_self t _ hne, get?_put_self u _ hne]

theorem writeText (text : Text) : TreeChange.Alike (Mirrors alike way base)
    (t.writeText path text) (u.writeText path text) := by
  unfold FileTree.writeText
  split
  · exact h.writeFile hproper hsame halike hway _
  · exact (h.writeFile hproper hsame halike hway _).bind fun _ _ hnext => ⟨hnext, rfl⟩

theorem unlink : TreeChange.Alike (Mirrors alike way base)
    (t.step (t.unlink path)) (u.step (u.unlink path)) := by
  have hget := hsame path prefix_rfl
  refine .step (u.erase path) h ?_ fun t' hunlink => ?_
  · unfold FileTree.unlink
    rw [locate_congr hproper hsame]
    cases ht : t.locate path with
    | error fault => rfl
    | ok place =>
      obtain rfl := locate_eq hproper ht
      simp only [bind, Except.bind, hget]
      split <;> rfl
  · obtain ⟨place, bytes, ht, hfile, rfl⟩ := unlink_erase hunlink
    obtain rfl := locate_eq hproper ht
    have hne : place ≠ [] := ne_nil_of_get?_ne (t := t) (by simp [hfile])
    refine h.changed halike hway (h.left.erase_file hfile) (h.right.erase_file (hget.trans hfile))
      ?_ (get?_erase_ne t) (get?_erase_ne u)
    rw [get?_erase_self t hne, get?_erase_self u hne]

end Files

theorem removeDir (hproper : AreProper path)
    (hsame : ∀ place, place <+: path → u.get? place = t.get? place)
    (hbelow : ∀ rest, alike (path ++ rest)) (hway : ¬ way path) :
    TreeChange.Alike (Mirrors alike way base) (t.step (t.removeDir path))
      (u.step (u.removeDir path)) := by
  have halike : alike path := append_nil path ▸ hbelow []
  have hempty : u.isEmptyDir path = t.isEmptyDir path := by
    rw [Bool.eq_iff_iff, h.left.isEmptyDir_iff, h.right.isEmptyDir_iff]
    simp only [h.alike_eq (hbelow _)]
  refine .step (u.erase path) h ?_ fun t' hremove => ?_
  · unfold FileTree.removeDir
    rw [locate_congr hproper hsame]
    cases ht : t.locate path with
    | error fault => rfl
    | ok place =>
      obtain rfl := locate_eq hproper ht
      simp only [bind, Except.bind, h.alike_eq halike, hempty]
      split
      · split <;> rfl
      · rfl
      · rfl
  · obtain ⟨place, ht, hne, -, hleaf, rfl⟩ := removeDir_erase hremove
    obtain rfl := locate_eq hproper ht
    refine h.changed halike hway (h.left.erase_emptyDir hleaf)
      (h.right.erase_emptyDir (hempty.trans hleaf)) ?_ (get?_erase_ne t) (get?_erase_ne u)
    rw [get?_erase_self t hne, get?_erase_self u hne]

omit h in
theorem pruneUp (h : Mirrors alike way base t u) (hstop : AreProper stop)
    (hproper : AreProper names.reverse) (halike : ∀ place, place <+: names.reverse → alike place)
    (hbelow : ∀ place, place <+: names.reverse → stop <+: place → place ≠ stop →
      (∀ rest, alike (place ++ rest)) ∧ ¬ way place) :
    Mirrors alike way base (t.pruneUp stop names) (u.pruneUp stop names) := by
  induction names generalizing t u with
  | nil => exact h
  | cons name above ih =>
    unfold FileTree.pruneUp
    dsimp only
    split
    · exact h
    rename_i hgoes
    simp only [Bool.or_eq_true, decide_eq_true_eq, Bool.not_eq_true', not_or, Bool.not_eq_false,
      isUnder_iff hproper hstop] at hgoes
    obtain ⟨hall, hway⟩ := hbelow _ prefix_rfl hgoes.2 hgoes.1
    obtain ⟨htree, hrefusal⟩ :=
      h.removeDir hproper (fun place hplace => h.alike_eq (halike place hplace)) hall hway
    have hup : above.reverse <+: (name :: above).reverse := by simp
    cases ht : t.removeDir (name :: above).reverse with
    | error fault =>
      rw [ht] at hrefusal
      cases hu : u.removeDir (name :: above).reverse with
      | error fault' => exact h
      | ok u' =>
        rw [hu] at hrefusal
        cases hrefusal
    | ok t' =>
      cases hu : u.removeDir (name :: above).reverse with
      | error fault =>
        rw [ht, hu] at hrefusal
        cases hrefusal
      | ok u' =>
        rw [ht, hu] at htree
        exact ih htree (hproper.of_subset hup.subset)
          (fun place hplace => halike place (hplace.trans hup))
          (fun place hplace => hbelow place (hplace.trans hup))

theorem copy (hsource : AreProper source) (hne : source ≠ []) (htarget : AreProper target)
    (hsame : ∀ place, place <+: source → u.get? place = t.get? place)
    (hsame' : ∀ place, place <+: target → u.get? place = t.get? place)
    (hbelow : ∀ rest, alike (target ++ rest)) (hway : ∀ rest, ¬ way (target ++ rest)) :
    TreeChange.Alike (Mirrors alike way base) (t.step (t.copy source target))
      (u.step (u.copy source target)) := by
  have hisDir : u.isDir? target = t.isDir? target :=
    congrArg (Except.map _) (entry?_congr htarget hsame')
  -- The file goes to the target or into it.
  have hwrites {place : List Text} (hplace : AreProper place)
      (hshows : ∀ above, above <+: place → u.get? above = t.get? above) (halike : alike place)
      (hno : ¬ way place) (fault : FileFault) : TreeChange.Alike (Mirrors alike way base)
        (t.step (if t.isSame source place then .error fault
          else t.readFile source >>= t.writeFile place))
        (u.step (if u.isSame source place then .error fault
          else u.readFile source >>= u.writeFile place)) := by
    have hisSame : u.isSame source place = t.isSame source place := by
      unfold isSame
      rw [locate_congr hsource hsame, locate_congr hplace hshows]
      split
      · rename_i hlocate _
        rw [locate_eq hsource hlocate, hsame source prefix_rfl]
      · rfl
    rw [hisSame, readFile_congr hsource hsame]
    split
    · exact ⟨h, rfl⟩
    cases t.readFile source with
    | error fault => exact ⟨h, rfl⟩
    | ok bytes => exact h.writeFile hplace hshows halike hno bytes
  unfold FileTree.copy
  rw [hisDir]
  cases t.isDir? target with
  | error fault => exact ⟨h, rfl⟩
  | ok inside =>
    cases inside with
    | false =>
      exact hwrites htarget hsame' (append_nil target ▸ hbelow []) (append_nil target ▸ hway []) _
    | true =>
      have hlast : (source.getLast?.getD "" : Text) = source.getLast hne := by
        simp [getLast?_eq_getLast_of_ne_nil hne]
      have hname := AreProper.singleton (hsource _ (getLast_mem hne))
      refine hwrites (htarget.append (hlast ▸ hname)) (fun above habove => ?_) (hbelow _) (hway _) _
      rcases prefix_concat_iff.mp habove with rfl | habove
      · exact h.alike_eq (hbelow _)
      · exact hsame' above habove

theorem write (hproper : AreProper path)
    (hplaces : ∀ place, place <+: path.dropLast → alike place ∨ way place) (halike : alike path)
    (hway : ¬ way path) (text : Text) :
    TreeChange.Alike (Mirrors alike way base) (t.write path text) (u.write path text) := by
  refine (h.makeDirs hproper.dropLast hplaces).bind fun ht hu hmade => ?_
  refine hmade.writeText hproper (hmade.same_below ?_ ?_ halike) halike hway text
  · exact makeDirs_ok h.left hproper.dropLast ht
  · exact makeDirs_ok h.right hproper.dropLast hu

end

end Mirrors

end AgentConfig.FileTree
