import AgentConfig.Output.Execute
import AgentConfig.Proofs.FileTree.Change

namespace AgentConfig

open List FileTree AgentConfig.Path Performed

@[simp]
theorem Performed.tree_ofChange (made : Bool) (change : TreeChange) :
    (ofChange made change).tree = change.tree := by
  cases change <;> rfl

theorem Action.persists_or_removeFile {a : Action} (hkind : a.kind ≠ .removeKeys) :
    a.kind.persists = true ∨ a.kind = .removeFile := by
  cases h : a.kind <;> simp_all [ActionKind.persists]

namespace Workplace

variable {w : Workplace} {backup : Bool} {t t' u : FileTree} {names others place : List Text}

def backupNames : List Text := [Source.directory, ".backup"]

theorem areProper_backupNames : AreProper backupNames :=
  areProper_of_isPlain (by decide +kernel)

/-- A place of work that is named by proper names. -/
structure IsProper (w : Workplace) : Prop where
  root : AreProper w.root
  stamp : Path.IsProper w.stamp

theorem isProper_of_isPlain (h : (w.stamp :: w.root).all Path.isPlain = true) : w.IsProper := by
  have hnames := areProper_of_isPlain h
  exact ⟨hnames.of_subset (subset_cons_self _ _), hnames w.stamp mem_cons_self⟩

def copyRoot (w : Workplace) : List Text := w.root ++ backupNames ++ [w.stamp]

/-- Where the copy of a file may be: at its own path in the directory of copies or, when a directory
stands there, in that under the name of the file. -/
def IsCopyPlace (w : Workplace) (names place : List Text) : Prop :=
  place = w.copyRoot ++ names ∨
    ∃ name, names.getLast? = some name ∧ place = w.copyRoot ++ names ++ [name]

/-- Names that do not lead into the source directory. -/
def IsOutside (names : List Text) : Prop := names.head? ≠ some Source.directory

instance : DecidablePred IsOutside := fun names =>
  inferInstanceAs (Decidable (names.head? ≠ some Source.directory))

theorem location_eq (w : Workplace) {path : Text} (hpath : Leads path names) :
    w.location path = w.root ++ names :=
  hpath.join_eq w.root

namespace IsProper

variable (hw : w.IsProper) {path : Text}
include hw

theorem areProper (hpath : Leads path names) : AreProper (w.root ++ names) :=
  hw.root.append hpath.proper

theorem areProper_copyRoot : AreProper w.copyRoot :=
  (hw.root.append areProper_backupNames).append (AreProper.singleton hw.stamp)

theorem backupLocation_eq (hpath : Leads path names) :
    w.backupLocation path = w.copyRoot ++ names := by
  have hstamp : Leads w.stamp [w.stamp] :=
    ⟨by simp, AreProper.singleton hw.stamp, by
      simp [relative, Text.intercalate, List.intercalate]⟩
  unfold backupLocation
  rw [hpath.join_eq, hstamp.join_eq]
  simp [copyRoot, backupNames, child]

end IsProper

theorem IsOutside.ne_copyPlace (hout : IsOutside names)
    (hplace : w.IsCopyPlace others place) : w.root ++ names ≠ place := by
  have hhead {rest : List Text} (h : w.root ++ names = w.copyRoot ++ rest) : False := by
    simp only [copyRoot, backupNames, append_assoc, append_cancel_left_eq] at h
    exact hout (by simp [h])
  rintro rfl
  rcases hplace with h | ⟨name, _, h⟩
  · exact hhead h
  · exact hhead (by rw [h, append_assoc])

/-- Names that lead below the directory of copies. -/
def IsBelowCopies (names : List Text) : Prop := backupNames <+: names ∧ names ≠ backupNames

instance : DecidablePred IsBelowCopies := fun names =>
  inferInstanceAs (Decidable (backupNames <+: names ∧ names ≠ backupNames))

theorem IsOutside.not_isBelowCopies (h : IsOutside names) : ¬ IsBelowCopies names := by
  rintro ⟨⟨rest, rfl⟩, -⟩
  exact h rfl

theorem IsCopyPlace.isBelowCopies (hplace : w.IsCopyPlace names (w.root ++ others)) :
    IsBelowCopies others := by
  have hbelow {rest : List Text} (h : w.root ++ others = w.copyRoot ++ rest) :
      IsBelowCopies others := by
    simp only [copyRoot, append_assoc, append_cancel_left_eq] at h
    exact ⟨⟨_, h.symm⟩, by simp [h]⟩
  rcases hplace with h | ⟨name, _, h⟩
  · exact hbelow h
  · exact hbelow (h.trans (append_assoc _ _ _))

/-- A tree before and after the file of `names` was copied away, if it was to be. -/
structure Secures (w : Workplace) (names : List Text) (backup : Bool) (t t' : FileTree) : Prop where
  wellFormed : t'.WellFormed
  elsewhere : ∀ {place}, ¬ w.IsCopyPlace names place → t'.bytesAt place = t.bytesAt place
  copies : ∀ {place}, w.IsCopyPlace names place → t'.bytesAt place = t.bytesAt place ∨
    (backup = true ∧ ∃ bytes, t.bytesAt (w.root ++ names) = some bytes ∧
      t'.bytesAt place = some bytes)
  copied : backup = true → ∀ {bytes}, t.bytesAt (w.root ++ names) = some bytes →
    ∃ place, w.IsCopyPlace names place ∧ t'.bytesAt place = some bytes

/-- What an action may do to the files of a tree: change the file of `names`, and copy it away
beforehand. -/
structure Effect (w : Workplace) (names : List Text) (backup : Bool) (t t' : FileTree) : Prop where
  wellFormed : t'.WellFormed
  elsewhere : ∀ {place}, place ≠ w.root ++ names → ¬ w.IsCopyPlace names place →
    t'.bytesAt place = t.bytesAt place
  copies : ∀ {place}, w.IsCopyPlace names place → t'.bytesAt place = t.bytesAt place ∨
    (backup = true ∧ ∃ bytes, t.bytesAt (w.root ++ names) = some bytes ∧
      t'.bytesAt place = some bytes)
  kept : backup = true → ∀ {bytes}, t.bytesAt (w.root ++ names) = some bytes →
    t'.bytesAt (w.root ++ names) = some bytes ∨
      ∃ place, w.IsCopyPlace names place ∧ t'.bytesAt place = some bytes

theorem Effect.of_sameFiles (h : t.SameFiles t') : w.Effect names backup t t' := by
  refine ⟨h.wellFormed, fun _ _ => h.bytesAt_eq _, fun _ => .inl (h.bytesAt_eq _), ?_⟩
  intro _ bytes hbytes
  exact .inl (by rw [h.bytesAt_eq, hbytes])

section

variable (h : w.Effect names backup t t')
include h

theorem Effect.bytesAt_spared (hcopies : ¬ IsBelowCopies others) (hne : others ≠ names) :
    t'.bytesAt (w.root ++ others) = t.bytesAt (w.root ++ others) :=
  h.elsewhere (fun heq => hne (append_cancel_left heq)) fun hplace =>
    hcopies hplace.isBelowCopies

theorem Effect.bytesAt_other (hout : IsOutside others) (hne : others ≠ names) :
    t'.bytesAt (w.root ++ others) = t.bytesAt (w.root ++ others) :=
  h.bytesAt_spared hout.not_isBelowCopies hne

theorem Effect.bytesAt_inside (hout : IsOutside names) (hin : ¬ IsOutside others)
    (hcopies : ¬ IsBelowCopies others) :
    t'.bytesAt (w.root ++ others) = t.bytesAt (w.root ++ others) :=
  h.bytesAt_spared hcopies fun heq => hin (heq ▸ hout)

theorem Effect.bytesAt_root (hne : names ≠ []) : t'.bytesAt w.root = t.bytesAt w.root := by
  have hother : t'.bytesAt (w.root ++ []) = t.bytesAt (w.root ++ []) :=
    h.bytesAt_other (by simp [IsOutside]) hne.symm
  rwa [append_nil] at hother

end

theorem Secures.of_not_backup (ht : t.WellFormed)
    (hnone : backup = true → t.bytesAt (w.root ++ names) = none) :
    w.Secures names backup t t := by
  refine ⟨ht, fun _ => rfl, fun _ => .inl rfl, ?_⟩
  intro hbackup bytes hbytes
  rw [hnone hbackup] at hbytes
  cases hbytes

theorem Secures.effect (h : w.Secures names backup t u) (hout : IsOutside names)
    (hchange : u.ChangesAt t' (w.root ++ names)) : w.Effect names backup t t' := by
  have hcopies {place : List Text} (hplace : w.IsCopyPlace names place) :
      t'.bytesAt place = u.bytesAt place := hchange.elsewhere (hout.ne_copyPlace hplace).symm
  refine ⟨hchange.wellFormed, ?_, ?_, ?_⟩
  · intro place hne hno
    rw [hchange.elsewhere hne, h.elsewhere hno]
  · intro place hplace
    rw [hcopies hplace]
    exact h.copies hplace
  · intro hbackup bytes hbytes
    obtain ⟨place, hplace, hcopied⟩ := h.copied hbackup hbytes
    exact .inr ⟨place, hplace, by rw [hcopies hplace, hcopied]⟩

theorem Secures.bytesAt_eq (h : w.Secures names backup t u) (hout : IsOutside names) :
    u.bytesAt (w.root ++ names) = t.bytesAt (w.root ++ names) :=
  h.elsewhere fun hplace => hout.ne_copyPlace hplace rfl

section Actions

variable (hw : w.IsProper) (ht : t.WellFormed) {a : Action} (hpath : Path.Leads a.path names)
  (hout : IsOutside names) {change : FileTree → TreeChange} {changed : Bool} {fault : ActionFault}
  {bytes : ByteArray}
include hw ht hpath

/-- A copy that fails has touched no file. One that is made has the bytes of the file. -/
theorem backUp_inv :
    match w.backUp t a.path with
    | .error (_, t') => t.SameFiles t'
    | .ok (_, t') => w.Secures names true t t' := by
  have hproper := hw.areProper hpath
  have htarget : AreProper (w.copyRoot ++ names) :=
    hw.areProper_copyRoot.append hpath.proper
  have hne : w.root ++ names ≠ [] := by simp [hpath.ne_nil]
  have hdirs := makeDirs_growsTo ht (htarget.of_subset (dropLast_subset (w.copyRoot ++ names)))
  simp only [backUp, w.location_eq hpath, hw.backupLocation_eq hpath]
  cases hexists : t.exists? (w.root ++ names) with
  | error fault => exact SameFiles.refl ht
  | ok there =>
    cases there with
    | false =>
      exact Secures.of_not_backup ht fun _ => ht.bytesAt_of_not_exists hproper hexists
    | true =>
      cases hmake : t.makeDirs (w.copyRoot ++ names).dropLast with
      | error e =>
        rw [hmake] at hdirs
        exact hdirs.sameFiles
      | ok u =>
        rw [hmake] at hdirs
        cases hcopy : u.copy (w.root ++ names) (w.copyRoot ++ names) with
        | error fault =>
          simp only [Except.mapError, bind, Except.bind, if_true, hcopy, FileTree.step]
          exact hdirs.sameFiles
        | ok v =>
          simp only [Except.mapError, bind, Except.bind, if_true, hcopy, FileTree.step]
          obtain ⟨bytes, place, hbytes, hplace, hchange, hcopied⟩ :=
            copy_inv hdirs.wellFormed hproper hne htarget hcopy
          have hcopyPlace : w.IsCopyPlace names place := by
            rcases hplace with rfl | rfl
            · exact .inl rfl
            · refine .inr ⟨names.getLast hpath.ne_nil, ?_, ?_⟩
              · exact getLast?_eq_getLast_of_ne_nil hpath.ne_nil
              · rw [getLast_append_of_ne_nil _ hpath.ne_nil]
          have hbefore : t.bytesAt (w.root ++ names) = some bytes := by
            rw [← hdirs.bytesAt_eq, hbytes]
          refine ⟨hchange.wellFormed, ?_, ?_, ?_⟩
          · intro other hno
            have hother : other ≠ place := by
              rintro rfl
              exact hno hcopyPlace
            rw [hchange.elsewhere hother, hdirs.bytesAt_eq]
          · intro other _
            by_cases heq : other = place
            · exact .inr ⟨rfl, bytes, hbefore, by rw [heq, hcopied]⟩
            · exact .inl (by rw [hchange.elsewhere heq, hdirs.bytesAt_eq])
          · intro _ bytes' hbytes'
            rw [hbefore] at hbytes'
            exact ⟨place, hcopyPlace, by rw [hcopied, hbytes']⟩

theorem changing_cases (change : FileTree → TreeChange) :
    (∃ fault u, a.backup = true ∧ t.SameFiles u ∧
      w.changing t a change = ofChange false (.error (fault, u))) ∨
    ∃ made u, w.Secures names a.backup t u ∧ w.changing t a change = ofChange made (change u) := by
  unfold changing
  cases hbackup : a.backup with
  | false => exact .inr ⟨false, t, Secures.of_not_backup ht (by simp), rfl⟩
  | true =>
    have hcopy := backUp_inv hw ht hpath
    cases hback : w.backUp t a.path with
    | error e =>
      rw [hback] at hcopy
      exact .inl ⟨e.1, e.2, rfl, hcopy, rfl⟩
    | ok made =>
      rw [hback] at hcopy
      exact .inr ⟨made.1, made.2, hcopy, rfl⟩

theorem removeAt_changesAt : t.ChangesAt (w.removeAt a.path t).tree (w.root ++ names) := by
  have hproper := hw.areProper hpath
  unfold removeAt
  simp only [w.location_eq hpath, FileTree.step]
  cases hunlink : t.unlink (w.root ++ names) with
  | error fault => exact (SameFiles.refl ht).changesAt _
  | ok u =>
    have hu := (unlink_inv ht hproper hunlink).1
    exact hu.trans ((prune_sameFiles hu.wellFormed w.root _).changesAt _)

theorem removeAt_completed (hremove : w.removeAt a.path t = .ok t') :
    t'.bytesAt (w.root ++ names) = none := by
  have hproper := hw.areProper hpath
  simp only [removeAt, w.location_eq hpath, FileTree.step] at hremove
  cases hunlink : t.unlink (w.root ++ names) with
  | error fault =>
    rw [hunlink] at hremove
    cases hremove
  | ok u =>
    have hu := unlink_inv ht hproper hunlink
    have hpruned := prune_sameFiles hu.1.wellFormed w.root (w.root ++ names).dropLast
    rw [hunlink] at hremove
    rw [← Except.ok.inj hremove, hpruned.bytesAt_eq, hu.2]

omit hw ht hpath in
theorem removeAt_failed {fault : FileFault}
    (hremove : w.removeAt a.path t = .error (fault, t')) : t' = t := by
  unfold removeAt FileTree.step at hremove
  cases hunlink : t.unlink (w.location a.path) with
  | error fault =>
    rw [hunlink] at hremove
    cases hremove
    rfl
  | ok u =>
    rw [hunlink] at hremove
    cases hremove

include hout in
theorem changing_effect
    (hchange : ∀ {u : FileTree}, u.WellFormed → u.ChangesAt (change u).tree (w.root ++ names)) :
    w.Effect names a.backup t (w.changing t a change).tree := by
  rcases changing_cases hw ht hpath change with ⟨fault, u, _, hsame, heq⟩ | ⟨made, u, hu, heq⟩
  · rw [heq, tree_ofChange]
    exact Effect.of_sameFiles hsame
  · rw [heq, tree_ofChange]
    exact hu.effect hout (hchange hu.wellFormed)

theorem changing_completed (hdone : (w.changing t a change).result = .ok changed) :
    ∃ u, w.Secures names a.backup t u ∧ change u = .ok (w.changing t a change).tree := by
  rcases changing_cases hw ht hpath change with ⟨fault, u, _, _, heq⟩ | ⟨made, u, hu, heq⟩
  · rw [heq] at hdone
    cases hdone
  refine ⟨u, hu, ?_⟩
  rw [heq] at hdone ⊢
  cases hchange : change u with
  | ok t' => rfl
  | error e =>
    rw [hchange] at hdone
    cases hdone

include hout in
theorem changing_copied
    (hchange : ∀ {u : FileTree}, u.WellFormed → u.ChangesAt (change u).tree (w.root ++ names))
    (hbackup : a.backup = true) (hdone : (w.changing t a change).result = .ok changed)
    (hbytes : t.bytesAt (w.root ++ names) = some bytes) :
    ∃ place, w.IsCopyPlace names place ∧
      (w.changing t a change).tree.bytesAt place = some bytes := by
  obtain ⟨u, hu, hok⟩ := changing_completed hw ht hpath hdone
  obtain ⟨place, hplace, hcopied⟩ := hu.copied hbackup hbytes
  have hafter : u.ChangesAt (w.changing t a change).tree (w.root ++ names) := by
    simpa [hok, TreeChange.tree] using hchange hu.wellFormed
  refine ⟨place, hplace, ?_⟩
  rw [hafter.elsewhere (hout.ne_copyPlace hplace).symm, hcopied]

omit hw ht hpath in
theorem changing_error (hfailed : (w.changing t a change).result = .error fault) :
    ∃ f, fault = .file f := by
  have hofChange {made : Bool} {r : TreeChange}
      (h : (ofChange made r).result = .error fault) : ∃ f, fault = .file f := by
    cases r with
    | ok t' => cases h
    | error e => exact ⟨e.1, (Except.error.inj h).symm⟩
  unfold changing at hfailed
  split at hfailed
  · split at hfailed <;> exact hofChange hfailed
  · exact hofChange hfailed

include hout in
theorem changing_failed {fault : FileFault}
    (hchange : ∀ {u u' : FileTree}, u.WellFormed → change u = .error (fault, u') →
      u'.bytesAt (w.root ++ names) = u.bytesAt (w.root ++ names))
    (hfailed : (w.changing t a change).result = .error (.file fault)) :
    (w.changing t a change).tree.bytesAt (w.root ++ names) = t.bytesAt (w.root ++ names) := by
  rcases changing_cases hw ht hpath change with ⟨fault, u, _, hsame, heq⟩ | ⟨made, u, hu, heq⟩
  · rw [heq]
    exact hsame.bytesAt_eq _
  rw [heq] at hfailed ⊢
  cases hu' : change u with
  | ok t' =>
    rw [hu'] at hfailed
    cases hfailed
  | error e =>
    rw [hu'] at hfailed
    cases hfailed
    rw [← hu.bytesAt_eq hout]
    exact hchange hu.wellFormed hu'

omit hw ht in
theorem performWrite_cases : (a.status = .noop ∧ w.performWrite t a = .unchanged t) ∨
    (a.payload = none ∧ ∃ message, w.performWrite t a = .refused t message) ∨
    (a.status ≠ .noop ∧ ∃ text, a.payload = some text ∧
      w.performWrite t a = w.changing t a fun t => t.write (w.root ++ names) text) := by
  unfold performWrite
  rw [w.location_eq hpath]
  split
  · exact .inl ⟨‹_›, rfl⟩
  rename_i hstatus
  cases hpayload : a.payload with
  | none => exact .inr (.inl ⟨rfl, _, rfl⟩)
  | some text => exact .inr (.inr ⟨hstatus, text, rfl, rfl⟩)

theorem performRemoval_cases : (∃ fault, t.exists? (w.root ++ names) = .error fault ∧
      w.performRemoval t a = .ofChange false (.error (fault, t))) ∨
    (t.bytesAt (w.root ++ names) = none ∧ w.performRemoval t a = .unchanged t) ∨
    w.performRemoval t a = w.changing t a (w.removeAt a.path) := by
  unfold performRemoval
  rw [w.location_eq hpath]
  cases hexists : t.exists? (w.root ++ names) with
  | error fault => exact .inl ⟨fault, rfl, rfl⟩
  | ok there =>
    cases there with
    | false =>
      exact .inr (.inl ⟨ht.bytesAt_of_not_exists (hw.areProper hpath) hexists, rfl⟩)
    | true => exact .inr (.inr rfl)

omit hw ht hpath in
theorem perform_of_removeFile (hkind : a.kind = .removeFile) :
    w.perform t a = w.performRemoval t a := by
  simp [perform, hkind]

omit hw ht hpath in
theorem perform_of_persists (hkind : a.kind.persists = true) :
    w.perform t a = w.performWrite t a := by
  cases h : a.kind <;> simp_all [perform, ActionKind.persists]

theorem perform_cases (hkind : a.kind ≠ .removeKeys) :
    ((w.perform t a).tree = t ∧ ∀ changed, (w.perform t a).result = .ok changed →
      a.status = .noop ∨ t.bytesAt (w.root ++ names) = none) ∨
    ∃ change, (∀ {u : FileTree}, u.WellFormed → u.ChangesAt (change u).tree (w.root ++ names)) ∧
      w.perform t a = w.changing t a change := by
  rcases Action.persists_or_removeFile hkind with hpersists | hremove
  · rw [perform_of_persists hpersists]
    rcases performWrite_cases hpath with ⟨hnoop, h⟩ | ⟨_, _, h⟩ | ⟨_, text, _, h⟩ <;> rw [h]
    · exact .inl ⟨rfl, fun _ _ => .inl hnoop⟩
    · exact .inl ⟨rfl, nofun⟩
    · exact .inr ⟨_, fun hu => write_changesAt hu (hw.areProper hpath) text, rfl⟩
  · rw [perform_of_removeFile hremove]
    rcases performRemoval_cases hw ht hpath with ⟨_, _, h⟩ | ⟨hnone, h⟩ | h <;> rw [h]
    · exact .inl ⟨rfl, nofun⟩
    · exact .inl ⟨rfl, fun _ _ => .inr hnone⟩
    · exact .inr ⟨_, fun hu => removeAt_changesAt hw hu hpath, rfl⟩

include hout in
/-- Whatever becomes of a write or a removal, it touches its own file and the copy of that, which
has the bytes that the file had. -/
theorem perform_effect (hkind : a.kind ≠ .removeKeys) :
    w.Effect names a.backup t (w.perform t a).tree := by
  rcases perform_cases hw ht hpath hkind with ⟨htree, -⟩ | ⟨change, hchange, h⟩
  · rw [htree]
    exact .of_sameFiles (.refl ht)
  · rw [h]
    exact changing_effect hw ht hpath hout hchange

/-- Wherever its file lies, a write or a removal touches only that file and the copy of it. -/
theorem perform_elsewhere (hkind : a.kind ≠ .removeKeys) : (w.perform t a).tree.WellFormed ∧
      ∀ {place}, place ≠ w.root ++ names → ¬ w.IsCopyPlace names place →
        (w.perform t a).tree.bytesAt place = t.bytesAt place := by
  rcases perform_cases hw ht hpath hkind with ⟨htree, -⟩ | ⟨change, hchange, h⟩
  · rw [htree]
    exact ⟨ht, fun _ _ => rfl⟩
  rw [h]
  rcases changing_cases hw ht hpath change with ⟨fault, u, _, hsame, heq⟩ | ⟨made, u, hu, heq⟩
  · rw [heq, tree_ofChange]
    exact ⟨hsame.wellFormed, fun _ _ => hsame.bytesAt_eq _⟩
  rw [heq, tree_ofChange]
  have hchanged := hchange hu.wellFormed
  refine ⟨hchanged.wellFormed, fun hne hcopy => ?_⟩
  rw [hchanged.elsewhere hne, hu.elsewhere hcopy]

theorem performWrite_completed (hdone : (w.performWrite t a).result = .ok changed) :
    (a.status = .noop ∧ (w.performWrite t a).tree = t) ∨
    (a.status ≠ .noop ∧ ∃ text bytes, a.payload = some text ∧ Text.bytes? text = some bytes ∧
      (w.performWrite t a).tree.bytesAt (w.root ++ names) = some bytes) := by
  rcases performWrite_cases hpath with ⟨hstatus, h⟩ | ⟨_, _, h⟩ | ⟨hstatus, text, hpayload, h⟩ <;>
    rw [h] at hdone ⊢
  · exact .inl ⟨hstatus, rfl⟩
  · cases hdone
  · obtain ⟨u, hu, hwrite⟩ := changing_completed hw ht hpath hdone
    obtain ⟨bytes, hbytes, hat⟩ := write_inv hu.wellFormed (hw.areProper hpath) hwrite
    exact .inr ⟨hstatus, text, bytes, hpayload, hbytes, hat⟩

theorem performWrite_not_isTooLong (hstatus : a.status ≠ .noop)
    (hdone : (w.performWrite t a).result = .ok changed) :
    ¬ IsTooLong (w.root ++ names) := by
  rcases performWrite_cases hpath with ⟨hnoop, -⟩ | ⟨-, _, h⟩ | ⟨-, text, -, h⟩
  · exact absurd hnoop hstatus
  · rw [h] at hdone
    cases hdone
  · rw [h] at hdone
    obtain ⟨u, -, hwrite⟩ := changing_completed hw ht hpath hdone
    exact write_not_isTooLong (hw.areProper hpath) hwrite

theorem performRemoval_completed (hdone : (w.performRemoval t a).result = .ok changed) :
    (w.performRemoval t a).tree.bytesAt (w.root ++ names) = none := by
  rcases performRemoval_cases hw ht hpath with ⟨_, _, h⟩ | ⟨hnone, h⟩ | h <;> rw [h] at hdone ⊢
  · cases hdone
  · exact hnone
  · obtain ⟨u, hu, hremove⟩ := changing_completed hw ht hpath hdone
    exact removeAt_completed hw hu.wellFormed hpath hremove

include hout in
theorem performWrite_failed (hfailed : (w.performWrite t a).result = .error fault)
    (hsystem : ∀ f, fault = .file f → f.isSystem = true) :
    (w.performWrite t a).tree.bytesAt (w.root ++ names) = t.bytesAt (w.root ++ names) := by
  rcases performWrite_cases hpath with ⟨_, h⟩ | ⟨_, _, h⟩ | ⟨_, text, _, h⟩ <;>
    rw [h] at hfailed ⊢
  · rfl
  · rfl
  · obtain ⟨f, rfl⟩ := changing_error hfailed
    refine changing_failed hw ht hpath hout (fun hu hwrite => ?_) hfailed
    exact (write_failed hu (hw.areProper hpath) hwrite (.inl (hsystem f rfl))).bytesAt_eq _

include hout in
theorem performRemoval_failed (hfailed : (w.performRemoval t a).result = .error fault) :
    (w.performRemoval t a).tree.bytesAt (w.root ++ names) = t.bytesAt (w.root ++ names) := by
  rcases performRemoval_cases hw ht hpath with ⟨_, _, h⟩ | ⟨_, h⟩ | h <;> rw [h] at hfailed ⊢
  · rfl
  · rfl
  · obtain ⟨f, rfl⟩ := changing_error hfailed
    refine changing_failed hw ht hpath hout (fun _ hremove => ?_) hfailed
    rw [removeAt_failed hremove]

theorem performRemoval_refused (hfile : t.bytesAt (w.root ++ names) = some bytes)
    (hfailed : (w.performRemoval t a).result = .error fault) :
    (∃ f, fault = .file f) ∧ (a.backup = true ∨ IsTooLong (w.root ++ names)) := by
  have hget := bytesAt_eq_some_iff.mp hfile
  rcases performRemoval_cases hw ht hpath with ⟨f, hexists, h⟩ | ⟨hnone, _⟩ | h
  · rw [h] at hfailed
    refine ⟨⟨f, (Except.error.inj hfailed).symm⟩, .inr ?_⟩
    rcases ht.locate_of_get? hget with hlocate | ⟨-, hlong⟩
    · simp [FileTree.exists?, FileTree.entry?, hlocate, Except.map] at hexists
    · exact hlong
  · rw [hfile] at hnone
    cases hnone
  · rw [h] at hfailed
    refine ⟨changing_error hfailed, ?_⟩
    by_cases hbackup : a.backup = true
    · exact .inl hbackup
    refine .inr ?_
    rcases ht.locate_of_get? hget with hlocate | ⟨-, hlong⟩
    · simp only [changing, hbackup, Bool.false_eq_true, if_false, removeAt, w.location_eq hpath,
        unlink_of_get? hget hlocate] at hfailed
      cases hfailed
    · exact hlong

include hout in
theorem perform_failed (hkind : a.kind ≠ .removeKeys)
    (hfailed : (w.perform t a).result = .error fault)
    (hsystem : ∀ f, fault = .file f → f.isSystem = true) :
    (w.perform t a).tree.bytesAt (w.root ++ names) = t.bytesAt (w.root ++ names) := by
  unfold perform at hfailed ⊢
  split at hfailed
  · exact performWrite_failed hw ht hpath hout hfailed hsystem
  · exact performWrite_failed hw ht hpath hout hfailed hsystem
  · exact performRemoval_failed hw ht hpath hout hfailed
  · contradiction

include hout in
theorem performRemoval_shrinks
    (hafter : (w.performRemoval t a).tree.bytesAt (w.root ++ names) = some bytes) :
    t.bytesAt (w.root ++ names) = some bytes := by
  cases hresult : (w.performRemoval t a).result with
  | ok changed =>
    rw [performRemoval_completed hw ht hpath hresult] at hafter
    cases hafter
  | error fault => rw [← performRemoval_failed hw ht hpath hout hresult, hafter]

include hout in
theorem perform_copied (hkind : a.kind ≠ .removeKeys) (hstatus : a.status ≠ .noop)
    (hbackup : a.backup = true) (hdone : (w.perform t a).result = .ok changed)
    (hbytes : t.bytesAt (w.root ++ names) = some bytes) :
    ∃ place, w.IsCopyPlace names place ∧ (w.perform t a).tree.bytesAt place = some bytes := by
  rcases perform_cases hw ht hpath hkind with ⟨-, hidle⟩ | ⟨change, hchange, h⟩
  · rcases hidle _ hdone with hnoop | hnone
    · contradiction
    · cases hbytes.symm.trans hnone
  · rw [h] at hdone ⊢
    exact changing_copied hw ht hpath hout hchange hbackup hdone hbytes

end Actions

end Workplace

end AgentConfig
