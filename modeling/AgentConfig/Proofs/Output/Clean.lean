import AgentConfig.Proofs.Output.Stored

namespace AgentConfig

open List Outcome FileTree

variable {found : Bool} {e : ManifestEntry} {removed : Option (List Text)}

namespace ManifestEntry

/-- The action takes away what the entry lists. -/
structure Removes (e : ManifestEntry) (a : Action) : Prop where
  path_eq : a.path = e.path
  backup_eq : a.backup = false
  kind_eq : a.kind = if e.ownedKeys = none then .removeFile else .removeKeys

theorem planRemoval_inv {t : FileTree} {root : List Text} {action : Option Action}
    (h : e.planRemoval t root = .ok action) :
    (action = none ∧ t.exists? (Path.join root e.path) = .ok false) ∨
      ∃ a, action = some a ∧ e.Removes a := by
  obtain ⟨found, hfound, h⟩ := bind_eq_ok.mp h
  have hexists := mapError_eq_ok.mp hfound
  cases found with
  | false =>
    cases h
    exact .inl ⟨rfl, hexists⟩
  | true =>
    refine .inr ?_
    simp only [Bool.not_true, Bool.false_eq_true, if_false] at h
    split at h
    · rename_i hkeys
      cases h
      exact ⟨_, rfl, rfl, rfl, by simp [hkeys]⟩
    rename_i keys hkeys
    split at h
    · cases h
    · cases h
      exact ⟨_, rfl, rfl, rfl, by simp [hkeys]⟩

end ManifestEntry

namespace Manifest

variable {t t' : FileTree} {root : List Text}

theorem delete_changesAt (ht : t.WellFormed) (hroot : Path.AreProper root)
    (h : delete t root = .ok (found, t')) : t.ChangesAt t' (root ++ names) := by
  unfold delete at h
  rw [location_eq] at h
  obtain ⟨there, -, h⟩ := bind_eq_ok.mp h
  cases there with
  | false =>
    cases h
    exact (SameFiles.refl ht).changesAt _
  | true =>
    obtain ⟨u, hunlink, h⟩ := bind_eq_ok.mp h
    cases h
    exact (unlink_inv ht (hroot.append areProper_names)
      (mapError_eq_ok.mp (mapError_eq_ok.mp hunlink))).1

theorem delete_eq (ht : t.WellFormed) (hshort : ¬ IsTooLong (root ++ names)) {bytes : ByteArray}
    (hbytes : t.bytesAt (root ++ names) = some bytes) :
    delete t root = .ok (true, t.erase (root ++ names)) := by
  have hthere := ht.exists?_eq_true hshort (bytesAt_eq_some_iff.mp hbytes)
  simp [delete, location_eq, hthere, ht.unlink_eq hshort hbytes, Failure.orHalt, Failure.atPath,
    Except.mapError, bind, Except.bind, pure, Except.pure]

end Manifest

namespace Workplace

variable {w : Workplace} {t t' : FileTree} {a : Action} {names : List Text}

section Perform

variable (hw : w.IsProper) (ht : t.WellFormed) (hpath : Path.Leads a.path names)
include hw ht hpath

theorem removeKeysFrom_changesAt (bytes : ByteArray) :
    t.ChangesAt (w.removeKeysFrom t a bytes).tree (w.root ++ names) := by
  have hsame : t.ChangesAt t (w.root ++ names) := (SameFiles.refl ht).changesAt _
  unfold removeKeysFrom
  dsimp only
  split
  · exact hsame
  split
  · split
    · exact hsame
    · exact hsame
  · split
    · rw [Performed.tree_ofChange]
      exact removeAt_changesAt hw ht hpath
    split
    · rw [Performed.tree_ofChange, w.location_eq hpath]
      exact write_changesAt ht (hw.areProper hpath) _
    · exact hsame
  · exact hsame

theorem performKeyRemoval_changesAt :
    t.ChangesAt (w.performKeyRemoval t a).tree (w.root ++ names) := by
  have hsame : t.ChangesAt t (w.root ++ names) := (SameFiles.refl ht).changesAt _
  unfold performKeyRemoval
  split
  · exact hsame
  · exact hsame
  · split
    · exact hsame
    · exact removeKeysFrom_changesAt hw ht hpath _

theorem performRemoval_changesAt (hbackup : a.backup = false) :
    t.ChangesAt (w.performRemoval t a).tree (w.root ++ names) := by
  have hsame : t.ChangesAt t (w.root ++ names) := (SameFiles.refl ht).changesAt _
  rcases performRemoval_cases hw ht hpath with ⟨_, _, h⟩ | ⟨_, h⟩ | h <;> rw [h]
  · exact hsame
  · exact hsame
  · simp only [changing, hbackup, Bool.false_eq_true, if_false, Performed.tree_ofChange]
    exact removeAt_changesAt hw ht hpath

theorem perform_changesAt (h : e.Removes a) :
    t.ChangesAt (w.perform t a).tree (w.root ++ names) := by
  have hkind := h.kind_eq
  split at hkind
  · rw [perform_of_removeFile hkind]
    exact performRemoval_changesAt hw ht hpath h.backup_eq
  · rw [perform, hkind]
    exact performKeyRemoval_changesAt hw ht hpath

end Perform

/-- A clean that returns has found no manifest, or carried out the removal of all that it lists. -/
theorem clean_ok (hclean : w.clean t = .ok (removed, t')) :
    (Manifest.load t w.root = .ok none ∧ t' = t) ∨
      ∃ m plan e found, Manifest.load t w.root = .ok (some m) ∧
        m.planRemoval t w.root = .ok plan ∧ w.execute t plan.actions = .ok e ∧ e.failures = [] ∧
        Manifest.delete e.tree w.root = .ok (found, t') := by
  obtain ⟨manifest, hload, hclean⟩ := bind_eq_ok.mp hclean
  have hload := mapError_eq_ok.mp hload
  cases manifest with
  | none =>
    cases hclean
    exact .inl ⟨hload, rfl⟩
  | some m =>
    obtain ⟨plan, hplan, hclean⟩ := bind_eq_ok.mp hclean
    obtain ⟨e, he, hclean⟩ := bind_eq_ok.mp hclean
    split at hclean
    · rename_i hempty
      obtain ⟨⟨found, u⟩, hdelete, hclean⟩ := bind_eq_ok.mp hclean
      cases hclean
      exact .inr ⟨m, plan, e, found, hload, mapError_eq_ok.mp hplan, he,
        isEmpty_iff.mp hempty, hdelete⟩
    · cases hclean

end Workplace

end AgentConfig
