import AgentConfig.Proofs.Json.KeyPaths
import AgentConfig.Proofs.Output.Clean
import AgentConfig.Proofs.Output.Reload

namespace AgentConfig

open List Outcome FileTree Json ManifestEntry AgentConfig.Path

variable {changed found : Bool} {halt : Halt}

namespace ManifestEntry

/-- What becomes of the file of an entry, from its bytes before and after: it goes away, or loses
the keys that the entry lists and goes away if it has no others. -/
inductive Clears (e : ManifestEntry) : Option ByteArray → Option ByteArray → Prop
  | absent : Clears e none none
  | whole {bytes : ByteArray} (hkeys : e.ownedKeys = none) : Clears e (some bytes) none
  | emptied {bytes : ByteArray} {keys : List Text} {members : Members}
    (hkeys : e.ownedKeys.bind PlanContext.keyTexts = some keys)
    (hstored : IsStored bytes (.obj members)) (hrest : IsWithout keys members []) :
    Clears e (some bytes) none
  | stripped {bytes left : ByteArray} {keys : List Text} {members rest : Members}
    (hkeys : e.ownedKeys.bind PlanContext.keyTexts = some keys)
    (hstored : IsStored bytes (.obj members)) (hrest : IsWithout keys members rest)
    (hne : rest ≠ []) (hleft : IsStored left (.obj rest)) : Clears e (some bytes) (some left)

variable {e : ManifestEntry} {t : FileTree} {root : List Text} {a : Action}

theorem Clears.eq_none {before after : Option ByteArray} (h : e.Clears before after)
    (hkeys : e.ownedKeys = none) : after = none := by
  cases h with
  | stripped hlisted => simp [hkeys] at hlisted
  | _ => rfl

theorem removes_of_planRemoval (h : e.planRemoval t root = .ok (some a)) : e.Removes a := by
  obtain ⟨hnone, -⟩ | ⟨b, hb, hremoves⟩ := planRemoval_inv h
  · cases hnone
  · cases hb
    exact hremoves

theorem keys_of_planRemoval (h : e.planRemoval t root = .ok (some a)) (hkeys : e.ownedKeys ≠ none) :
    e.ownedKeys.bind PlanContext.keyTexts = some (a.ownedKeys.getD []) := by
  obtain ⟨found, -, h⟩ := bind_eq_ok.mp h
  split at h
  · cases h
  split at h
  · contradiction
  rename_i hsome
  split at h
  · cases h
  · rename_i texts htexts
    cases h
    rw [hsome, Option.bind_some, htexts, Option.getD_some]

end ManifestEntry

namespace Manifest

variable {m : Manifest} {t t' : FileTree} {root : List Text}

theorem paths_of_planRemoval {files : List ManifestEntry} {actions : List (Option Action)}
    (h : Forall₂ (fun e action => e.planRemoval t root = .ok action) files actions) :
    ((actions.filterMap id).map (·.path)).Sublist (files.map (·.path)) := by
  induction h with
  | nil => exact Sublist.refl []
  | @cons e action files actions hplan _ ih =>
    cases action with
    | none => exact ih.cons _
    | some a =>
      have hpath := (removes_of_planRemoval hplan).path_eq
      simp only [filterMap_cons, id_eq, map_cons, hpath]
      exact ih.cons_cons _

theorem actions_of_planRemoval {plan : Plan} (h : m.planRemoval t root = .ok plan) :
    (plan.actions.map (·.path)).Sublist m.paths ∧
      (∀ a ∈ plan.actions, ∃ e ∈ m.files, e.planRemoval t root = .ok (some a)) ∧
      ∀ e ∈ m.files, e.planRemoval t root = .ok none ∨
        ∃ a ∈ plan.actions, e.planRemoval t root = .ok (some a) := by
  obtain ⟨actions, hactions, h⟩ := bind_eq_ok.mp h
  cases h
  simp only [mem_filterMap, id_eq, exists_eq_right]
  refine ⟨paths_of_planRemoval (mapM_eq_ok.mp hactions),
    fun a ha => (mem_of_mapM_eq_ok hactions).mp ha, fun e he => ?_⟩
  obtain ⟨action, hmem, hplan⟩ := exists_of_mapM_eq_ok hactions he
  cases action with
  | none => exact .inl hplan
  | some a => exact .inr ⟨a, hmem, hplan⟩

theorem bytesAt_of_delete (ht : t.WellFormed) (hroot : AreProper root)
    (h : delete t root = .ok (found, t')) : t'.bytesAt (root ++ names) = none := by
  have hproper := hroot.append areProper_names
  unfold delete at h
  rw [location_eq] at h
  obtain ⟨there, hthere, h⟩ := bind_eq_ok.mp h
  cases there with
  | false =>
    cases h
    exact ht.bytesAt_of_not_exists hproper (mapError_eq_ok.mp (mapError_eq_ok.mp hthere))
  | true =>
    obtain ⟨u, hunlink, h⟩ := bind_eq_ok.mp h
    cases h
    exact (unlink_inv ht hproper (mapError_eq_ok.mp (mapError_eq_ok.mp hunlink))).2

theorem tree_of_delete_error (h : delete t root = .error halt) : halt.tree = t := by
  obtain hthere | ⟨there, -, h⟩ := bind_eq_error.mp h
  · obtain ⟨failure, -, rfl⟩ := mapError_eq_error.mp hthere
    rfl
  split at h
  · obtain hunlink | ⟨u, -, h⟩ := bind_eq_error.mp h
    · obtain ⟨failure, -, rfl⟩ := mapError_eq_error.mp hunlink
      rfl
    · cases h
  · cases h

end Manifest

namespace Workplace

variable {w : Workplace} {t u : FileTree} {a : Action} {names place : List Text}

section Removal

variable (hw : w.IsProper) (ht : t.WellFormed) (hpath : Path.Leads a.path names)
  {bytes : ByteArray} {members : Json.Members}
  (hbytes : t.bytesAt (w.root ++ names) = some bytes)
  (hstored : Json.IsStored bytes (.obj members))
include hw ht hpath hbytes hstored

private theorem removeKeysFrom_completed (hshort : ¬ IsTooLong (w.root ++ names)) :
    let rest := (removePaths (a.ownedKeys.getD []) members).1
    (∃ changed, (w.removeKeysFrom t a bytes).result = .ok changed) ∧
    ((rest = [] ∧ (w.removeKeysFrom t a bytes).tree.bytesAt (w.root ++ names) = none) ∨
      (rest ≠ [] ∧ ∃ left, (w.removeKeysFrom t a bytes).tree.bytesAt (w.root ++ names) = some left ∧
        IsStored left (.obj rest))) := by
  intro rest
  have hreadable : IsReadableIn maxLevels (.obj rest) :=
    areReadable_iff.mp ((areReadable_iff.mpr hstored.isReadable).removePaths _)
  obtain ⟨text, htext, hread⟩ := hstored
  have hfrom : w.removeKeysFrom t a bytes =
      if rest.isEmpty then .ofChange false (w.removeAt a.path t)
      else if (removePaths (a.ownedKeys.getD []) members).2 then
        .ofChange false (t.write (w.location a.path) (Json.write (.obj rest)))
      else .unchanged t := by
    rw [removeKeysFrom, htext]
    dsimp only
    rw [hread]
  rw [hfrom]
  split
  · rename_i hempty
    have hremove : ∃ u, w.removeAt a.path t = .ok u := by
      rw [removeAt, w.location_eq hpath, ht.unlink_eq hshort hbytes]
      exact ⟨_, rfl⟩
    obtain ⟨u, hremove⟩ := hremove
    rw [hremove]
    exact ⟨⟨true, rfl⟩, .inl ⟨isEmpty_iff.mp hempty, removeAt_completed hw ht hpath hremove⟩⟩
  · rename_i hempty
    have hne : rest ≠ [] := fun hnil => hempty (isEmpty_iff.mpr hnil)
    split
    · obtain ⟨left, hleft, -⟩ := hreadable.1.exists_bytes
      have hwrite := ht.overwrite_eq hshort hbytes hleft
      obtain ⟨left', hleft', hat⟩ := write_inv ht (hw.areProper hpath) hwrite
      rw [w.location_eq hpath, hwrite]
      exact ⟨⟨true, rfl⟩, .inr ⟨hne, left', hat, (hreadable.isWritten hleft').isStored⟩⟩
    · rename_i hchanged
      have hsame : rest = members :=
        removePaths_of_snd_eq_false (Bool.not_eq_true _ ▸ hchanged)
      exact ⟨⟨false, rfl⟩, .inr ⟨hne, bytes, hbytes, text, htext, hsame ▸ hread⟩⟩

theorem performKeyRemoval_completed (hshort : ¬ IsTooLong (w.root ++ names)) :
    let rest := (removePaths (a.ownedKeys.getD []) members).1
    (∃ changed, (w.performKeyRemoval t a).result = .ok changed) ∧
    ((rest = [] ∧ (w.performKeyRemoval t a).tree.bytesAt (w.root ++ names) = none) ∨
      (rest ≠ [] ∧ ∃ left, (w.performKeyRemoval t a).tree.bytesAt (w.root ++ names) = some left ∧
        IsStored left (.obj rest))) := by
  have hthere := ht.exists?_eq_true hshort (bytesAt_eq_some_iff.mp hbytes)
  have hfrom : w.performKeyRemoval t a = w.removeKeysFrom t a bytes := by
    simp only [performKeyRemoval, w.location_eq hpath, hthere, ht.readFile_eq hshort hbytes]
  rw [hfrom]
  exact removeKeysFrom_completed hw ht hpath hbytes hstored hshort

end Removal

section Perform

variable (hw : w.IsProper) (ht : t.WellFormed) (hpath : Path.Leads a.path names)
include hw ht hpath

theorem performKeyRemoval_inv :
    ((w.performKeyRemoval t a).tree = t ∧
        ∃ fault, (w.performKeyRemoval t a).result = .error fault) ∨
    ((w.performKeyRemoval t a).tree = t ∧ t.bytesAt (w.root ++ names) = none) ∨
    ∃ bytes members, t.bytesAt (w.root ++ names) = some bytes ∧
      IsStored bytes (.obj members) ∧ ¬ IsTooLong (w.root ++ names) := by
  have hproper := hw.areProper hpath
  unfold performKeyRemoval
  rw [w.location_eq hpath]
  split
  · exact .inl ⟨rfl, _, rfl⟩
  · rename_i hexists
    exact .inr (.inl ⟨rfl, ht.bytesAt_of_not_exists hproper hexists⟩)
  cases hread : t.readFile (w.root ++ names) with
  | error fault => exact .inl ⟨rfl, _, rfl⟩
  | ok bytes =>
    unfold removeKeysFrom
    dsimp only
    split
    · exact .inl ⟨rfl, _, rfl⟩
    rename_i text htext
    split
    · split <;> exact .inl ⟨rfl, _, rfl⟩
    · rename_i members hmembers
      obtain ⟨location, hlocate, -⟩ := bind_eq_ok.mp hread
      exact .inr (.inr ⟨bytes, members, readFile_inv hproper hread,
        ⟨text, htext, hmembers⟩, not_isTooLong_of_locate hproper hlocate⟩)
    · exact .inl ⟨rfl, _, rfl⟩

variable {e : ManifestEntry} {v : FileTree} (hplan : e.planRemoval v w.root = .ok (some a))
include hplan

theorem clears_of_perform (hresult : (w.perform t a).result = .ok changed) :
    e.Clears (t.bytesAt (w.root ++ names)) ((w.perform t a).tree.bytesAt (w.root ++ names)) := by
  have hkind := (removes_of_planRemoval hplan).kind_eq
  split at hkind
  · rename_i hkeys
    rw [perform_of_removeFile hkind] at hresult ⊢
    rw [performRemoval_completed hw ht hpath hresult]
    cases t.bytesAt (w.root ++ names) with
    | none => exact .absent
    | some bytes => exact .whole hkeys
  · rename_i hkeys
    have hperform : w.perform t a = w.performKeyRemoval t a := by rw [perform, hkind]
    have hlisted := keys_of_planRemoval hplan hkeys
    rw [hperform] at hresult ⊢
    obtain ⟨-, fault, hfault⟩ | ⟨htree, hnone⟩ | ⟨bytes, members, hbytes, hstored, hshort⟩ :=
      performKeyRemoval_inv hw ht hpath
    · cases hresult.symm.trans hfault
    · rw [htree, hnone]
      exact .absent
    · have hwithout := isWithout_removePaths (a.ownedKeys.getD []) members
      obtain ⟨-, ⟨hempty, hgone⟩ | ⟨hne, left, hleft, hrest⟩⟩ :=
        performKeyRemoval_completed hw ht hpath hbytes hstored hshort
      · rw [hbytes, hgone]
        exact .emptied hlisted hstored (hempty ▸ hwithout)
      · rw [hbytes, hleft]
        exact .stripped hlisted hstored hwithout hne hrest

theorem bytesAt_of_perform_error {fault : ActionFault}
    (hresult : (w.perform t a).result = .error fault) :
    (w.perform t a).tree.bytesAt (w.root ++ names) = t.bytesAt (w.root ++ names) := by
  have hremoves := removes_of_planRemoval hplan
  have hkind := hremoves.kind_eq
  split at hkind
  · rw [perform_of_removeFile hkind] at hresult ⊢
    obtain ⟨_, _, h⟩ | ⟨_, h⟩ | h := performRemoval_cases hw ht hpath
    · rw [h]
      rfl
    · rw [h]
      rfl
    · simp only [changing, hremoves.backup_eq, Bool.false_eq_true, if_false] at h
      rw [h] at hresult ⊢
      cases hremove : w.removeAt a.path t with
      | ok t' =>
        rw [hremove] at hresult
        cases hresult
      | error failed =>
        obtain rfl := removeAt_failed hremove
        rfl
  · have hperform : w.perform t a = w.performKeyRemoval t a := by rw [perform, hkind]
    rw [hperform] at hresult ⊢
    obtain ⟨htree, -⟩ | ⟨htree, -⟩ | ⟨bytes, members, hbytes, hstored, hshort⟩ :=
      performKeyRemoval_inv hw ht hpath
    · rw [htree]
    · rw [htree]
    · obtain ⟨⟨changed, hdone⟩, -⟩ :=
        performKeyRemoval_completed hw ht hpath hbytes hstored hshort
      cases hresult.symm.trans hdone

end Perform

theorem clean_error {m : Manifest} (hload : Manifest.load t w.root = .ok (some m))
    (hclean : w.clean t = .error halt) :
    halt.tree = t ∨ ∃ plan, m.planRemoval t w.root = .ok plan ∧
      ((∃ halt', w.execute t plan.actions = .error halt' ∧ halt.tree = halt'.tree) ∨
        ∃ e, w.execute t plan.actions = .ok e ∧ halt.tree = e.tree) := by
  obtain hfailed | ⟨manifest, hfound, hclean⟩ := bind_eq_error.mp hclean
  · obtain ⟨failure, hfailed, -⟩ := mapError_eq_error.mp hfailed
    cases hload.symm.trans hfailed
  cases hload.symm.trans (mapError_eq_ok.mp hfound)
  obtain hplan | ⟨plan, hplan, hclean⟩ := bind_eq_error.mp hclean
  · obtain ⟨failure, -, rfl⟩ := mapError_eq_error.mp hplan
    exact .inl rfl
  refine .inr ⟨plan, mapError_eq_ok.mp hplan, ?_⟩
  obtain hhalt | ⟨e, he, hclean⟩ := bind_eq_error.mp hclean
  · exact .inl ⟨halt, hhalt, rfl⟩
  refine .inr ⟨e, he, ?_⟩
  split at hclean
  · obtain hdelete | ⟨_, -, hclean⟩ := bind_eq_error.mp hclean
    · exact Manifest.tree_of_delete_error hdelete
    · cases hclean
  · cases hclean
    rfl

/-- The manifest lists each path once, in normal form, and not its own. -/
structure ListsApart (m : Manifest) : Prop where
  distinct : m.paths.Nodup
  leads : ∀ e ∈ m.files, ∃ names, Leads e.path names ∧ names ≠ Manifest.names

theorem listsApart_of_isTidy {m : Manifest} (h : m.IsTidy) : ListsApart m := by
  refine ⟨h.distinct, fun e he => ?_⟩
  obtain ⟨names, hleads, hout, -⟩ := h.leads e he
  exact ⟨names, hleads, hout.ne_manifest []⟩

def IsUntracked (w : Workplace) (m : Manifest) (place : List Text) : Prop :=
  ∀ e ∈ m.files, place ≠ join w.root e.path

/-- What holds of the tree when removals were carried out, whatever became of them. -/
structure PartlyCleared (w : Workplace) (m : Manifest) (t u : FileTree) : Prop where
  wellFormed : u.WellFormed
  untracked : ∀ {place}, w.IsUntracked m place → u.bytesAt place = t.bytesAt place
  tracked : ∀ {entry names}, entry ∈ m.files → Leads entry.path names →
    u.bytesAt (w.root ++ names) = t.bytesAt (w.root ++ names) ∨
      entry.Clears (t.bytesAt (w.root ++ names)) (u.bytesAt (w.root ++ names))

/-- What holds between the removals of a clean. An entry has its action ahead, has met a failure, or
is settled. -/
structure InClean (w : Workplace) (m : Manifest) (t : FileTree) (e : Execution)
    (pending : List Action) : Prop where
  partly : w.PartlyCleared m t e.tree
  planned : ∀ a ∈ pending, ∃ entry ∈ m.files, entry.planRemoval t w.root = .ok (some a)
  distinct : pending.Nodup
  ahead : ∀ {entry names a}, entry ∈ m.files → Leads entry.path names → a ∈ pending →
    entry.planRemoval t w.root = .ok (some a) →
    e.tree.bytesAt (w.root ++ names) = t.bytesAt (w.root ++ names)
  settled : ∀ {entry names}, entry ∈ m.files → Leads entry.path names →
    (∃ a ∈ pending, entry.planRemoval t w.root = .ok (some a)) ∨ e.failures ≠ [] ∨
      entry.Clears (t.bytesAt (w.root ++ names)) (e.tree.bytesAt (w.root ++ names))

section Clean

variable {m : Manifest} (hw : w.IsProper) (hm : ListsApart m) {plan : Plan}
include hw hm

theorem InClean.start (ht : t.WellFormed)
    (hplan : m.planRemoval t w.root = .ok plan) : w.InClean m t { tree := t } plan.actions := by
  obtain ⟨hpaths, hactions, hentries⟩ := Manifest.actions_of_planRemoval hplan
  refine ⟨⟨ht, fun _ => rfl, fun _ _ => .inl rfl⟩, hactions, (hm.distinct.sublist hpaths).of_map,
    fun _ _ _ _ => rfl, ?_⟩
  intro entry names hentry hleads
  obtain hnone | hplanned := hentries entry hentry
  · refine .inr (.inr ?_)
    obtain ⟨-, habsent⟩ | ⟨a, ha, -⟩ := ManifestEntry.planRemoval_inv hnone
    · rw [hleads.join_eq] at habsent
      rw [ht.bytesAt_of_not_exists (hw.areProper hleads) habsent]
      exact .absent
    · cases ha
  · exact .inl hplanned

section Step

variable {e e' : Execution} {rest : List Action} (h : w.InClean m t e (a :: rest))
  {other entry : ManifestEntry} (hother : other ∈ m.files)
  (hplan : other.planRemoval t w.root = .ok (some a))
include h hother hplan

theorem InClean.elsewhere (hplace : place ≠ join w.root other.path) :
    (w.perform e.tree a).tree.bytesAt place = e.tree.bytesAt place := by
  have hremoves := removes_of_planRemoval hplan
  obtain ⟨others, hleads, -⟩ := hm.leads other hother
  rw [hleads.join_eq] at hplace
  rw [← hremoves.path_eq] at hleads
  exact (perform_changesAt hw h.partly.wellFormed hleads hremoves).elsewhere hplace

theorem InClean.apart (hentry : entry ∈ m.files) (hleads : Leads entry.path names)
    (hne : entry ≠ other) :
    (w.perform e.tree a).tree.bytesAt (w.root ++ names) = e.tree.bytesAt (w.root ++ names) := by
  apply h.elsewhere hw hm hother hplan
  obtain ⟨others, hothers, -⟩ := hm.leads other hother
  rw [hothers.join_eq, Ne, append_cancel_left_eq]
  rintro rfl
  exact hne (inj_on_of_nodup_map hm.distinct hentry hother (hleads.unique hothers))

/-- Whatever becomes of an action, each file is as it was or as it should be. -/
theorem InClean.partlyCleared : w.PartlyCleared m t (w.perform e.tree a).tree := by
  have hremoves := removes_of_planRemoval hplan
  obtain ⟨others, hothers, -⟩ := hm.leads other hother
  have hpath : Leads a.path others := hremoves.path_eq ▸ hothers
  refine ⟨(perform_changesAt hw h.partly.wellFormed hpath hremoves).wellFormed, ?_, ?_⟩
  · intro place hplace
    rw [h.elsewhere hw hm hother hplan (hplace other hother), h.partly.untracked hplace]
  intro entry names hentry hleads
  by_cases hne : entry = other
  · subst hne
    obtain rfl : names = others := by rw [← hleads.names_eq, hothers.names_eq]
    have hbefore := h.ahead hentry hleads mem_cons_self hplan
    cases hresult : (w.perform e.tree a).result with
    | ok changed =>
      have hclears := clears_of_perform hw h.partly.wellFormed hpath hplan hresult
      rw [hbefore] at hclears
      exact .inr hclears
    | error fault =>
      rw [bytesAt_of_perform_error hw h.partly.wellFormed hpath hplan hresult, hbefore]
      exact .inl rfl
  · rw [h.apart hw hm hother hplan hentry hleads hne]
    exact h.partly.tracked hentry hleads

theorem InClean.next (htree : e'.tree = (w.perform e.tree a).tree)
    (hfailures : e.failures ≠ [] → e'.failures ≠ [])
    (hown : ∀ {names}, Leads other.path names → e'.failures ≠ [] ∨
      other.Clears (t.bytesAt (w.root ++ names)) (e'.tree.bytesAt (w.root ++ names))) :
    w.InClean m t e' rest := by
  obtain ⟨hnot, hdistinct⟩ := nodup_cons.mp h.distinct
  refine ⟨htree ▸ h.partlyCleared hw hm hother hplan,
    fun b hb => h.planned b (mem_cons_of_mem _ hb), hdistinct, ?_, ?_⟩
  · intro entry names b hentry hleads hb hplanned
    have hne : entry ≠ other := by
      rintro rfl
      cases hplan.symm.trans hplanned
      exact hnot hb
    rw [htree, h.apart hw hm hother hplan hentry hleads hne]
    exact h.ahead hentry hleads (mem_cons_of_mem _ hb) hplanned
  · intro entry names hentry hleads
    by_cases hne : entry = other
    · subst hne
      exact .inr (hown hleads)
    obtain ⟨b, hb, hplanned⟩ | hfailed | hclears := h.settled hentry hleads
    · refine .inl ⟨b, (mem_cons.mp hb).resolve_left ?_, hplanned⟩
      rintro rfl
      have hpath := (removes_of_planRemoval hplanned).path_eq.symm.trans
        (removes_of_planRemoval hplan).path_eq
      exact hne (inj_on_of_nodup_map hm.distinct hentry hother hpath)
    · exact .inr (.inl (hfailures hfailed))
    · rw [htree, h.apart hw hm hother hplan hentry hleads hne]
      exact .inr (.inr hclears)

end Step

/-- The removals of a clean keep each entry in step. At the end every entry is settled, unless some
removal has met a failure. -/
theorem execute_inClean (ht : t.WellFormed) (hplan : m.planRemoval t w.root = .ok plan) :
    Yields (fun e => w.InClean m t e []) (fun halt => w.PartlyCleared m t halt.tree)
      (w.execute t plan.actions) := by
  refine execute_induct (w.InClean m t) (w.PartlyCleared m t) ?_ ?_ ?_
    (InClean.start hw hm ht hplan)
  · intro e a rest changed e' h hresult htree _ hfailures
    obtain ⟨other, hother, hplan⟩ := h.planned a mem_cons_self
    refine h.next hw hm hother hplan htree (by rw [hfailures]; exact id) fun hleads => .inr ?_
    rw [htree, ← h.ahead hother hleads mem_cons_self hplan]
    have hremoves := removes_of_planRemoval hplan
    exact clears_of_perform hw h.partly.wellFormed (hremoves.path_eq ▸ hleads) hplan hresult
  · intro e a rest fault e' h _ _ htree _ hfailures
    obtain ⟨other, hother, hplan⟩ := h.planned a mem_cons_self
    have hfailed : e'.failures ≠ [] := by simp [hfailures]
    exact h.next hw hm hother hplan htree (fun _ => hfailed) fun _ => .inl hfailed
  · intro e a rest h
    obtain ⟨other, hother, hplan⟩ := h.planned a mem_cons_self
    exact h.partlyCleared hw hm hother hplan

omit hw in
theorem ListsApart.isUntracked : w.IsUntracked m (w.root ++ Manifest.names) := by
  intro e he
  obtain ⟨names, hleads, hne⟩ := hm.leads e he
  rw [hleads.join_eq, Ne, append_cancel_left_eq]
  exact Ne.symm hne

/-- A clean that returns has settled every entry of the manifest, by the removal of its file or of
the keys that are listed for it. All that no entry lists is left alone. -/
theorem clean_clears (ht : t.WellFormed) (hload : Manifest.load t w.root = .ok (some m))
    {removed : Option (List Text)} {t' : FileTree} (hclean : w.clean t = .ok (removed, t')) :
    t'.bytesAt (w.root ++ Manifest.names) = none ∧
      (∀ e ∈ m.files, ∀ names, Leads e.path names →
        e.Clears (t.bytesAt (w.root ++ names)) (t'.bytesAt (w.root ++ names))) ∧
      ∀ place, place ≠ w.root ++ Manifest.names → w.IsUntracked m place →
        t'.bytesAt place = t.bytesAt place := by
  obtain ⟨hnone, -⟩ | ⟨m', plan, e, found, hload', hplan, he, hfailures, hdelete⟩ :=
    clean_ok hclean
  · cases hload.symm.trans hnone
  cases hload.symm.trans hload'
  have hend := execute_inClean hw hm ht hplan
  rw [he] at hend
  have hchange := Manifest.delete_changesAt hend.partly.wellFormed hw.root hdelete
  refine ⟨Manifest.bytesAt_of_delete hend.partly.wellFormed hw.root hdelete, ?_, ?_⟩
  · intro entry hentry names hleads
    have hne : w.root ++ names ≠ w.root ++ Manifest.names := by
      rw [← hleads.join_eq]
      exact (hm.isUntracked entry hentry).symm
    rw [hchange.elsewhere hne]
    obtain ⟨a, ha, -⟩ | hfailed | hclears := hend.settled hentry hleads
    · cases ha
    · exact absurd hfailures hfailed
    · exact hclears
  · intro place hplace huntracked
    rw [hchange.elsewhere hplace, hend.partly.untracked huntracked]

/-- A clean that returns has removed what the manifest lists, and the manifest. One that fails has
left the manifest, and each file either as it was or as it should be. -/
theorem clean_settles_every_entry (ht : t.WellFormed)
    (hload : Manifest.load t w.root = .ok (some m)) :
    (∀ removed t', w.clean t = .ok (removed, t') →
      t'.bytesAt (w.root ++ Manifest.names) = none ∧
      (∀ e ∈ m.files, ∀ names, Path.Leads e.path names →
        e.Clears (t.bytesAt (w.root ++ names)) (t'.bytesAt (w.root ++ names))) ∧
      ∀ place, place ≠ w.root ++ Manifest.names → w.IsUntracked m place →
        t'.bytesAt place = t.bytesAt place) ∧
    ∀ halt, w.clean t = .error halt →
      halt.tree.bytesAt (w.root ++ Manifest.names) = t.bytesAt (w.root ++ Manifest.names) ∧
      (∀ e ∈ m.files, ∀ names, Path.Leads e.path names →
        halt.tree.bytesAt (w.root ++ names) = t.bytesAt (w.root ++ names) ∨
          e.Clears (t.bytesAt (w.root ++ names)) (halt.tree.bytesAt (w.root ++ names))) ∧
      ∀ place, w.IsUntracked m place → halt.tree.bytesAt place = t.bytesAt place := by
  refine ⟨fun removed t' hclean => clean_clears hw hm ht hload hclean, ?_⟩
  intro halt hclean
  suffices hpartly : w.PartlyCleared m t halt.tree from
    ⟨hpartly.untracked hm.isUntracked, fun e he names hleads => hpartly.tracked he hleads,
      fun place => hpartly.untracked⟩
  obtain hsame | ⟨plan, hplan, hexecuted⟩ := clean_error hload hclean
  · rw [hsame]
    exact ⟨ht, fun _ => rfl, fun _ _ => Or.inl rfl⟩
  · have hend := execute_inClean hw hm ht hplan
    obtain ⟨halt', hhalt, htree⟩ | ⟨e, he, htree⟩ := hexecuted
    · rw [hhalt] at hend
      rw [htree]
      exact hend
    · rw [he] at hend
      rw [htree]
      exact hend.partly

end Clean

/-- A project with a generated page, a shared document with one generated key, and a path that is
taken by a directory; its manifest lists the first two, and the third if it is asked to. -/
def trackedTree (all : Bool) : FileTree :=
  let third : Text := if all then ",\x7b\"path\":\"d\"\x7d" else ""
  let listing :=
    "\x7b\"files\":[\x7b\"path\":\"a\"\x7d,\x7b\"path\":\"s\",\"owned_keys\":[\"x.y\"]\x7d"
  ⟨[(["p", "a"], .file ⟨#[120]⟩),
    (["p", "s"], .ofText "\x7b\"x\":\x7b\"y\":1\x7d,\"z\":2\x7d"),
    (["p", "d"], .dir),
    (["p", ".agentrc", ".manifest.json"], .ofText (listing ++ third ++ "]\x7d")),
    (["p", ".agentrc"], .dir), (["p"], .dir)]⟩

@[inherit_doc trackedTree]
def trackedPlace : Workplace := ⟨["p"], "S"⟩

/-- The paths that the manifest of such a project lists. -/
def trackedPaths (all : Bool) : List Text :=
  if all then ["a", "s", "d"] else ["a", "s"]

private theorem exists_tracked (all : Bool) :
    ∃ m, Manifest.load (trackedTree all) trackedPlace.root = .ok (some m) ∧
      m.paths = trackedPaths all ∧ ListsApart m := by
  have hload : checks (fun found => (found.map Manifest.paths) == some (trackedPaths all))
      (Manifest.load (trackedTree all) trackedPlace.root) = true := by cases all <;> decide +kernel
  obtain ⟨found, hfound, hlisted⟩ := exists_of_checks hload
  obtain ⟨m, rfl, hpaths⟩ := Option.map_eq_some_iff.mp (eq_of_beq hlisted)
  refine ⟨m, hfound, hpaths, by rw [hpaths]; cases all <;> decide, fun e he => ?_⟩
  have hmem : e.path ∈ trackedPaths all := hpaths ▸ mem_map_of_mem he
  have hplain : ∀ path ∈ trackedPaths all, (!List.isEmpty [path] && [path].all Path.isPlain &&
      path == relative [path]) = true ∧ [path] ≠ Manifest.names := by
    cases all <;> decide +kernel
  obtain ⟨hplain, hne⟩ := hplain e.path hmem
  exact ⟨[e.path], leads_of_isPlain hplain, hne⟩

/-- The clean of such a project returns if the directory is not listed, and fails over it if it
is. -/
theorem clean_settles_every_entry_of_tracked :
    (∃ m removed t', Manifest.load (trackedTree false) trackedPlace.root = .ok (some m) ∧
      m.paths = trackedPaths false ∧
      trackedPlace.clean (trackedTree false) = .ok (removed, t') ∧
      t'.bytesAt (trackedPlace.root ++ Manifest.names) = none ∧
      ∀ e ∈ m.files, ∀ names, Path.Leads e.path names →
        e.Clears ((trackedTree false).bytesAt (trackedPlace.root ++ names))
          (t'.bytesAt (trackedPlace.root ++ names))) ∧
    ∃ m halt, Manifest.load (trackedTree true) trackedPlace.root = .ok (some m) ∧
      m.paths = trackedPaths true ∧ trackedPlace.clean (trackedTree true) = .error halt ∧
      halt.failure.isReported = true ∧
      halt.tree.bytesAt (trackedPlace.root ++ Manifest.names) =
        (trackedTree true).bytesAt (trackedPlace.root ++ Manifest.names) := by
  have hw : trackedPlace.IsProper := isProper_of_isPlain (by decide +kernel)
  have ht (all : Bool) : (trackedTree all).WellFormed := by
    apply FileTree.wellFormed_of_isPlain
    cases all <;> decide +kernel
  constructor
  · obtain ⟨m, hload, hpaths, hm⟩ := exists_tracked false
    have hreturns :
        Outcome.checks (fun _ => true) (trackedPlace.clean (trackedTree false)) = true := by
      decide +kernel
    obtain ⟨⟨removed, t'⟩, hclean, -⟩ := Outcome.exists_of_checks hreturns
    obtain ⟨hgone, hclears, -⟩ :=
      (clean_settles_every_entry hw hm (ht false) hload).1 removed t' hclean
    exact ⟨m, removed, t', hload, hpaths, hclean, hgone, hclears⟩
  · obtain ⟨m, hload, hpaths, hm⟩ := exists_tracked true
    have hfails : Outcome.fails (·.failure.isReported)
        (trackedPlace.clean (trackedTree true)) = true := by decide +kernel
    obtain ⟨halt, hclean, hreported⟩ := Outcome.exists_of_fails hfails
    obtain ⟨hstays, -, -⟩ := (clean_settles_every_entry hw hm (ht true) hload).2 halt hclean
    exact ⟨m, halt, hload, hpaths, hclean, hreported, hstays⟩

end Workplace

end AgentConfig
