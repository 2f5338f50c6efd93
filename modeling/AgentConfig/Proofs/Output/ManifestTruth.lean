import AgentConfig.Proofs.Output.Presence
import AgentConfig.Proofs.Text.Order

namespace AgentConfig

open List Outcome AgentConfig.Action Manifest AgentConfig.Path

variable {a : Action} {p : Progress} {path : Text}

namespace Manifest

variable {files more kept old : List ManifestEntry} {e other : ManifestEntry}
  {root names : List Text}

theorem mem_sorted : e ∈ sorted files ↔ e ∈ files := mem_mergeSort

theorem pairwise_path_sorted (files : List ManifestEntry) :
    (sorted files).Pairwise fun a b => Text.le a.path b.path = true := by
  apply pairwise_mergeSort
  · exact fun _ _ _ => Text.le_trans
  · exact fun _ _ => Text.le_total _ _

theorem pairwise_sorted (h : (files.map (·.path)).Nodup) :
    (sorted files).Pairwise fun a b => Text.le a.path b.path = true ∧ a.path ≠ b.path := by
  have hdistinct : ((sorted files).map (·.path)).Nodup :=
    ((mergeSort_perm files _).map _).nodup_iff.mpr h
  rw [Nodup, pairwise_map] at hdistinct
  exact (pairwise_path_sorted files).and hdistinct

theorem putEntry_of_not_mem (h : e.path ∉ files.map (·.path)) :
    putEntry e files = files ++ [e] := by
  induction files with
  | nil => rfl
  | cons first rest ih =>
    simp only [map_cons, mem_cons, not_or] at h
    rw [putEntry, if_neg (Ne.symm h.1), ih h.2, cons_append]

theorem foldl_putEntry (h : ((files ++ more).map (·.path)).Nodup) :
    more.foldl (fun files e => putEntry e files) files = files ++ more := by
  induction more generalizing files with
  | nil => simp
  | cons e rest ih =>
    have hnew : e.path ∉ files.map (·.path) := by
      rw [map_append, map_cons, nodup_append] at h
      exact fun hmem => h.2.2 _ hmem _ mem_cons_self rfl
    rw [foldl_cons, putEntry_of_not_mem hnew, ih (by simpa using h), append_assoc, singleton_append]

theorem mem_of_mem_putEntry (h : other ∈ putEntry e files) : other = e ∨ other ∈ files := by
  induction files with
  | nil => exact .inl (mem_singleton.mp h)
  | cons first rest ih =>
    rw [putEntry] at h
    split at h
    · rcases mem_cons.mp h with rfl | h
      · exact .inl rfl
      · exact .inr (mem_cons_of_mem _ h)
    · rcases mem_cons.mp h with rfl | h
      · exact .inr mem_cons_self
      · exact (ih h).imp_right (mem_cons_of_mem _)

theorem mem_of_mem_foldl_putEntry (h : other ∈ more.foldl (fun files e => putEntry e files) files) :
    other ∈ files ∨ other ∈ more := by
  induction more generalizing files with
  | nil => exact .inl h
  | cons e rest ih =>
    rcases ih h with h | h
    · rcases mem_of_mem_putEntry h with rfl | h
      · exact .inr mem_cons_self
      · exact .inl h
    · exact .inr (mem_cons_of_mem _ h)

theorem nodup_putEntry (h : (files.map (·.path)).Nodup) :
    ((putEntry e files).map (·.path)).Nodup := by
  induction files with
  | nil => simp [putEntry]
  | cons first rest ih =>
    rw [map_cons, nodup_cons] at h
    rw [putEntry]
    split
    · rename_i hpath
      rwa [map_cons, nodup_cons, ← hpath]
    · rename_i hne
      rw [map_cons, nodup_cons]
      refine ⟨fun hmem => ?_, ih h.2⟩
      obtain ⟨other, hother, hpath⟩ := mem_map.mp hmem
      rcases mem_of_mem_putEntry hother with rfl | hother
      · exact hne hpath.symm
      · exact h.1 (hpath ▸ mem_map_of_mem hother)

theorem nodup_foldl_putEntry (h : (files.map (·.path)).Nodup) :
    ((more.foldl (fun files e => putEntry e files) files).map (·.path)).Nodup := by
  induction more generalizing files with
  | nil => exact h
  | cons e rest ih => exact ih (nodup_putEntry h)

/-- The old entries that are kept are those of paths that the run did not touch and that lead
somewhere. -/
theorem kept_inv (h : Manifest.kept root p old = .ok kept) :
    kept.Sublist old ∧
      (∀ e, e ∈ kept ↔ e ∈ old ∧ e.path ∉ p.removed ∧ p.persisted.lookup e.path = none ∧
        p.tree.exists? (join root e.path) = .ok true) ∧
      ∀ e ∈ old, e.path ∉ p.removed → p.persisted.lookup e.path = none →
        ∃ found, p.tree.exists? (join root e.path) = .ok found := by
  obtain ⟨hsub, hmem, htold⟩ := filterM_eq_ok h
  refine ⟨hsub, fun e => (hmem e).trans (and_congr_right fun _ => ?_), ?_⟩
  · split
    · rename_i htouched
      constructor
      · nofun
      · rintro ⟨hremoved, hlookup, -⟩
        exact absurd htouched (by simp [hremoved, hlookup])
    · rename_i htouched
      simp only [Bool.or_eq_true, contains_iff_mem, not_or, Option.isSome_iff_ne_none, ne_eq,
        not_not] at htouched
      simp only [htouched, not_false_eq_true, true_and]
      exact mapError_eq_ok
  · intro e he hremoved hlookup
    obtain ⟨found, hfound⟩ := htold e he
    rw [if_neg (by simp [hremoved, hlookup])] at hfound
    exact ⟨found, mapError_eq_ok.mp hfound⟩

theorem written?_inv {t : FileTree} (ht : t.WellFormed) (hroot : Path.AreProper root)
    (hleads : Path.Leads path names) {bytes : ByteArray}
    (hbytes : t.bytesAt (root ++ names) = some bytes) {entry : Option ManifestEntry}
    (h : Manifest.written? root t path a = .ok entry) :
    entry = some ⟨path, Digest.sha256 bytes, a.ownedKeys.map (·.map Json.str)⟩ := by
  obtain ⟨found, hfound, h⟩ := bind_eq_ok.mp h
  have hfile := mapError_eq_ok.mp hfound
  rw [hleads.join_eq] at hfile
  unfold FileTree.file? at hfile
  cases hentry : t.entry? (root ++ names) with
  | error fault =>
    rw [hentry] at hfile
    cases hfile
  | ok there =>
    have hget := ht.entry?_eq (hroot.append hleads.proper) hentry
    rw [FileTree.bytesAt_eq_some_iff.mp hbytes] at hget
    rw [hentry, hget] at hfile
    cases hfile
    exact (Except.ok.inj h).symm

end Manifest

theorem mem_iff_lookup {α : Type} {noted : List (Text × α)} (h : (noted.map (·.1)).Nodup)
    {a : α} : (path, a) ∈ noted ↔ noted.lookup path = some a := by
  rw [lookup_eq_some_iff]
  constructor
  · intro hmem
    obtain ⟨before, after, hsplit⟩ := append_of_mem hmem
    refine ⟨before, after, hsplit, fun e he => ?_⟩
    rw [hsplit, map_append, map_cons, nodup_append] at h
    have hne : e.1 ≠ path := h.2.2 e.1 (mem_map_of_mem he) path (by simp)
    simpa using hne.symm
  · rintro ⟨before, after, hsplit, -⟩
    simp [hsplit]

theorem Progress.Tallies.mem_persisted_iff {actions : List Action} (h : p.Tallies actions) :
    (path, a) ∈ p.persisted ↔ lastWrite? actions path = some a := by
  rw [mem_iff_lookup h.nodup, h.persisted]

namespace Workplace

variable {w : Workplace} {t₀ t t' : FileTree} {p : Progress} {previous : Option Manifest}
  {manifest old : Manifest} {a : Action} {e e' : ManifestEntry} {new : List (Option ManifestEntry)}

/-- The entry for a path that was last written by an action, in the tree at the end. -/
def IsEntryOf (w : Workplace) (t : FileTree) (a : Action) (e : ManifestEntry) : Prop :=
  ∃ names bytes, Path.Leads e.path names ∧ IsOutside names ∧
    t.bytesAt (w.root ++ names) = some bytes ∧ e.checksum = Digest.sha256 bytes ∧
    e.ownedKeys = a.ownedKeys.map (·.map Json.str)

theorem IsEntryOf.unique (h : w.IsEntryOf t a e) (h' : w.IsEntryOf t a e')
    (hpath : e.path = e'.path) : e = e' := by
  obtain ⟨path, checksum, keys⟩ := e
  obtain ⟨path', checksum', keys'⟩ := e'
  obtain ⟨names, bytes, hleads, -, hbytes, rfl, rfl⟩ := h
  obtain ⟨names', bytes', hleads', -, hbytes', rfl, rfl⟩ := h'
  cases hpath
  obtain rfl : names = names' := by rw [← hleads.names_eq, hleads'.names_eq]
  rw [Option.some.inj (hbytes.symm.trans hbytes')]

theorem Holds.exists_entry (hholds : w.Holds t₀ p.tree p.completed)
    (hlast : lastWrite? p.completed path = some a) :
    ∃ e, e.path = path ∧ w.IsEntryOf p.tree a e := by
  obtain ⟨ha, hpersists, rfl⟩ := lastWrite?_eq_some hlast
  obtain ⟨names, bytes, hleads, hout, hbytes⟩ := hholds.present ⟨a, ha, hpersists, rfl⟩
  exact ⟨⟨a.path, Digest.sha256 bytes, a.ownedKeys.map (·.map Json.str)⟩, rfl, names, bytes, hleads,
    hout, hbytes, rfl, rfl⟩

private theorem Holds.written_inv (hw : w.IsProper) (hholds : w.Holds t₀ p.tree p.completed)
    (htallies : p.Tallies p.completed)
    (hnew : p.persisted.mapM (fun (path, a) => Manifest.written? w.root p.tree path a) = .ok new) :
    Forall₂ (fun (noted : Text × Action) (entry : Option ManifestEntry) =>
      ∃ e, entry = some e ∧ e.path = noted.1 ∧ w.IsEntryOf p.tree noted.2 e) p.persisted new := by
  refine forall₂_imp_of_mem (mapM_eq_ok.mp hnew) ?_
  rintro ⟨path, a⟩ hmem entry hentry
  have hwrote : Wrote p.completed path := by
    rw [← isSome_lastWrite?, htallies.mem_persisted_iff.mp hmem]
    rfl
  obtain ⟨names, bytes, hleads, hout, hbytes⟩ := hholds.present hwrote
  exact ⟨_, written?_inv hholds.wellFormed hw.root hleads hbytes hentry, rfl,
    names, bytes, hleads, hout, hbytes, rfl, rfl⟩

private theorem map_path_filterMap {r : Text × Action → ManifestEntry → Prop}
    {noted : List (Text × Action)}
    (h : Forall₂ (fun n entry => ∃ e, entry = some e ∧ e.path = n.1 ∧ r n e) noted new) :
    (new.filterMap id).map (·.path) = noted.map (·.1) := by
  induction h with
  | nil => rfl
  | cons hfirst _ ih =>
    obtain ⟨e, rfl, hpath, -⟩ := hfirst
    exact congrArg₂ List.cons hpath ih

theorem Holds.foldl_putEntry_eq (hw : w.IsProper) (hholds : w.Holds t₀ p.tree p.completed)
    (htallies : p.Tallies p.completed) {before old : List ManifestEntry}
    (hold : Manifest.kept w.root p before = .ok old)
    (hnew : p.persisted.mapM (fun (path, a) => Manifest.written? w.root p.tree path a) = .ok new) :
    let files := (old ++ new.filterMap id).foldl (fun files e => putEntry e files) []
    files = old.foldl (fun files e => putEntry e files) [] ++ new.filterMap id ∧
      (files.map (·.path)).Nodup := by
  have hnodup : ((old.foldl (fun files e => putEntry e files) [] ++
      new.filterMap id).map (·.path)).Nodup := by
    rw [map_append, map_path_filterMap (hholds.written_inv hw htallies hnew), nodup_append]
    refine ⟨nodup_foldl_putEntry (by simp), htallies.nodup, ?_⟩
    rintro path hpath _ hother rfl
    obtain ⟨e, he, rfl⟩ := mem_map.mp hpath
    obtain ⟨⟨_, a⟩, hnoted, rfl⟩ := mem_map.mp hother
    have he := (mem_of_mem_foldl_putEntry he).resolve_left not_mem_nil
    have hlast := htallies.mem_persisted_iff.mp hnoted
    rw [← htallies.persisted, (((kept_inv hold).2.1 e).mp he).2.2.1] at hlast
    cases hlast
  have hfiles := foldl_putEntry hnodup
  rw [← foldl_append] at hfiles
  exact ⟨hfiles, hfiles ▸ hnodup⟩

theorem Holds.mem_manifest (hw : w.IsProper) (hholds : w.Holds t₀ p.tree p.completed)
    (htallies : p.Tallies p.completed) (hmanifest : p.manifest w.root previous = .ok manifest)
    (he : e ∈ manifest.files) :
    e ∈ (previous.getD {}).files ∨
      ∃ a, lastWrite? p.completed e.path = some a ∧ w.IsEntryOf p.tree a e := by
  obtain ⟨old, hold, hmanifest⟩ := bind_eq_ok.mp hmanifest
  obtain ⟨new, hnew, hmanifest⟩ := bind_eq_ok.mp hmanifest
  rw [← Except.ok.inj hmanifest] at he
  rcases (mem_of_mem_foldl_putEntry he).resolve_left (not_mem_nil) |> mem_append.mp with he | he
  · have hprevious : (previous.map (·.files)).getD [] = (previous.getD {}).files := by
      cases previous <;> rfl
    rw [hprevious] at hold
    exact .inl ((kept_inv hold).1.subset he)
  · simp only [mem_filterMap, id_eq, exists_eq_right] at he
    obtain ⟨⟨path, a⟩, hnoted, e', heq, hpath, hentry⟩ :=
      exists_of_forall₂ (hholds.written_inv hw htallies hnew) he
    cases heq
    exact .inr ⟨a, by rw [hpath]; exact htallies.mem_persisted_iff.mp hnoted, hentry⟩

/-- The manifest of a run lists the entries that were kept and those of what the run has written.
Each path is listed once. -/
theorem Holds.manifest_inv (hw : w.IsProper) (hholds : w.Holds t₀ p.tree p.completed)
    (htallies : p.Tallies p.completed) (hdistinct : (previous.getD {}).paths.Nodup)
    (hmanifest : p.manifest w.root previous = .ok manifest) :
    (manifest.files.map (·.path)).Nodup ∧ (∀ e, e ∈ manifest.files ↔
        (e ∈ (previous.getD {}).files ∧ e.path ∉ removedBy p.completed ∧
          lastWrite? p.completed e.path = none ∧
          p.tree.exists? (join w.root e.path) = .ok true) ∨
        ∃ a, lastWrite? p.completed e.path = some a ∧ w.IsEntryOf p.tree a e) ∧
      ∀ e ∈ (previous.getD {}).files, e.path ∉ removedBy p.completed →
        lastWrite? p.completed e.path = none →
        ∃ found, p.tree.exists? (join w.root e.path) = .ok found := by
  obtain ⟨old, hold, hmanifest⟩ := bind_eq_ok.mp hmanifest
  obtain ⟨new, hnew, hmanifest⟩ := bind_eq_ok.mp hmanifest
  have hprevious : (previous.map (·.files)).getD [] = (previous.getD {}).files := by
    cases previous <;> rfl
  rw [hprevious] at hold
  obtain ⟨hsub, hkept, htold⟩ := kept_inv hold
  have hwritten := hholds.written_inv hw htallies hnew
  have hmem (e : ManifestEntry) : e ∈ new.filterMap id ↔
      ∃ a, lastWrite? p.completed e.path = some a ∧ w.IsEntryOf p.tree a e := by
    simp only [mem_filterMap, id_eq, exists_eq_right]
    constructor
    · intro he
      obtain ⟨⟨path, a⟩, hnoted, e', heq, hpath, hentry⟩ := exists_of_forall₂ hwritten he
      cases heq
      exact ⟨a, by rw [hpath]; exact htallies.mem_persisted_iff.mp hnoted, hentry⟩
    · rintro ⟨a, hlast, hentry⟩
      obtain ⟨_, he, e', rfl, hpath, hentry'⟩ :=
        exists_of_forall₂_left hwritten (htallies.mem_persisted_iff.mpr hlast)
      rwa [hentry.unique hentry' hpath.symm]
  obtain ⟨hfiles, hnodup⟩ := hholds.foldl_putEntry_eq hw htallies hold hnew
  have hlisted : old.foldl (fun files e => putEntry e files) [] = old :=
    foldl_putEntry ((hsub.map _).nodup hdistinct)
  rw [hlisted] at hfiles
  cases hmanifest
  refine ⟨hnodup, fun e => ?_, fun e he hremoved hlast => ?_⟩
  · rw [hfiles, mem_append, hmem, hkept, htallies.removed, htallies.persisted]
  · exact htold e he (htallies.removed ▸ hremoved) ((htallies.persisted _).trans hlast)

theorem IsEntryOf.of_changesAt
    (h : w.IsEntryOf t a e) (hchange : t.ChangesAt t' (w.root ++ Manifest.names)) :
    w.IsEntryOf t' a e := by
  obtain ⟨names, bytes, hleads, hout, hbytes, hrest⟩ := h
  refine ⟨names, bytes, hleads, hout, ?_, hrest⟩
  rw [hchange.elsewhere (hout.ne_manifest w.root), hbytes]

theorem Holds.save_sameShape (hw : w.IsProper) (ht : t₀.WellFormed)
    (hholds : w.Holds t₀ p.tree p.completed) (hload : Manifest.load t₀ w.root = .ok (some old))
    (hsave : manifest.save p.tree w.root = .ok t') : p.tree.SameShape t' := by
  obtain ⟨bytes, hbytes⟩ := exists_of_load ht hw.root hload
  rw [← hholds.bytesAt_manifest, FileTree.bytesAt_eq_some_iff] at hbytes
  have hwrite := mapError_eq_ok.mp hsave
  rw [Manifest.location_eq] at hwrite
  exact FileTree.write_sameShape hholds.wellFormed (hw.root.append areProper_names) hbytes hwrite

/-- A list of entries that is true of a tree after the completed actions of a run: each path is
listed once and in order. One that the run wrote is listed with the digest of its file and the keys
of the last action on it; any other one is listed as before, if it was, unless the run removed it or
it leads nowhere. -/
structure TellsTruth (w : Workplace) (old : List ManifestEntry) (completed : List Action)
    (t : FileTree) (listed : List ManifestEntry) : Prop where
  ordered : listed.Pairwise fun a b => Text.le a.path b.path = true ∧ a.path ≠ b.path
  written : ∀ path a, lastWrite? completed path = some a →
    (a.kind = .writeText → a.ownedKeys = none) ∧ ∃ e ∈ listed, e.path = path ∧ w.IsEntryOf t a e
  others : ∀ e, ¬ Wrote completed e.path → (e ∈ listed ↔ e ∈ old ∧ e.path ∉ removedBy completed ∧
      t.exists? (join w.root e.path) = .ok true)

/-- A build that returns has saved a manifest that tells the truth about the tree it leaves: of
every file that the build has written, and of those that it kept from the last one. -/
theorem saved_manifest_tells_truth {reports : List TargetReport} {managed : ManagedDirs}
    {t' : FileTree} {build : BuildReport} (h : Setting w reports managed) (ht : t₀.WellFormed)
    (hroot : t₀.bytesAt w.root = none) (hload : Manifest.load t₀ w.root = .ok previous)
    (hdistinct : (previous.getD {}).paths.Nodup)
    (hwrite : w.write t₀ reports managed = .ok (build, t')) :
    ∃ (p : Progress) (saved : Manifest), w.run previous t₀ reports managed = .ok p ∧
      saved.save p.tree w.root = .ok t' ∧
      w.TellsTruth (previous.getD {}).files p.completed t' (Manifest.sorted saved.files) := by
  obtain ⟨_, p, saved, hload', hrun, hmanifest, hsave, -⟩ := write_ok hwrite
  cases hload.symm.trans hload'
  obtain ⟨htallies, hholds⟩ := holds_of_run h ht hroot hrun
  obtain ⟨hnodup, hmem, -⟩ := hholds.manifest_inv h.proper htallies hdistinct hmanifest
  have hchange : p.tree.ChangesAt t' (w.root ++ Manifest.names) := by
    have hsaved := h.proper.save_changesAt hholds.wellFormed saved
    rwa [hsave] at hsaved
  refine ⟨p, saved, hrun, hsave, Manifest.pairwise_sorted hnodup, ?_, ?_⟩
  · intro path a hlast
    obtain ⟨e, rfl, hentry⟩ := hholds.exists_entry hlast
    refine ⟨hholds.plain a (Action.lastWrite?_eq_some hlast).1, e, ?_, rfl,
      hentry.of_changesAt hchange⟩
    exact Manifest.mem_sorted.mpr ((hmem _).mpr (Or.inr ⟨a, hlast, hentry⟩))
  · intro e hwrote
    rw [← Action.lastWrite?_eq_none_iff] at hwrote
    rw [Manifest.mem_sorted, hmem]
    simp only [hwrote, true_and, reduceCtorEq, false_and, exists_false, or_false]
    cases previous with
    | none => simp
    | some old => rw [(hholds.save_sameShape h.proper ht hload hsave).exists?_eq]

/-- A project with a manifest of one file that is gone, and a target with one file. -/
def listedTree : FileTree :=
  ⟨[(["p", ".agentrc", ".manifest.json"], .ofText "\x7b\"files\":[\x7b\"path\":\"a.md\"\x7d]\x7d"),
    (["p", ".agentrc"], .dir), (["p"], .dir)]⟩

@[inherit_doc listedTree]
def listedReports : List TargetReport :=
  [{ target := "t", result := some { files := [⟨"c", "x", .unmarked⟩] } }]

theorem saved_manifest_tells_truth_of_listed :
    ∃ previous build t', Manifest.load listedTree ["p"] = .ok previous ∧
      Workplace.write ⟨["p"], "S"⟩ listedTree listedReports [] = .ok (build, t') ∧
      ∃ (p : Progress) (saved : Manifest),
        Workplace.run ⟨["p"], "S"⟩ previous listedTree listedReports [] = .ok p ∧
        saved.save p.tree ["p"] = .ok t' ∧
        TellsTruth ⟨["p"], "S"⟩ (previous.getD {}).files p.completed t'
          (Manifest.sorted saved.files) := by
  have hproper : IsProper ⟨["p"], "S"⟩ := isProper_of_isPlain (by decide +kernel)
  have houtputs : ∀ report ∈ listedReports, report.StaysOutside := by
    intro report hreport
    obtain rfl := List.mem_singleton.mp hreport
    apply TargetReport.staysOutside_of_forall
    intro f hf
    obtain rfl := List.mem_singleton.mp hf
    exact ⟨["c"], Path.leads_of_isPlain (by decide +kernel), by decide +kernel⟩
  have hload : Outcome.checks (fun m => decide (m.getD {}).paths.Nodup)
      (Manifest.load listedTree ["p"]) = true := by decide +kernel
  have hwrite : Outcome.checks (fun _ => true)
      (Workplace.write ⟨["p"], "S"⟩ listedTree listedReports []) = true := by decide +kernel
  obtain ⟨previous, hprevious, hdistinct⟩ := Outcome.exists_of_checks hload
  obtain ⟨⟨build, t'⟩, hreturned, -⟩ := Outcome.exists_of_checks hwrite
  exact ⟨previous, build, t', hprevious, hreturned, saved_manifest_tells_truth
    ⟨hproper, houtputs, ManagedDirs.spares_of_forall (by simp)⟩
    (FileTree.wellFormed_of_isPlain (by decide +kernel))
    (FileTree.bytesAt_of_dir (by decide +kernel)) hprevious
    (of_decide_eq_true hdistinct) hreturned⟩

/-- A generated file in one of two directories, and a target that finds it up to date. -/
def upToDateTree : FileTree :=
  ⟨[(["p", "b", "x.md"], .ofText (OutputFile.desired ⟨"b/x.md", "", .full⟩)),
    (["p", "a"], .dir), (["p", "b"], .dir), (["p"], .dir)]⟩

@[inherit_doc upToDateTree]
def upToDateReports : List TargetReport :=
  [{ target := "t", result := some { files := [⟨"b/x.md", "", .full⟩] } }]

/-- A managed directory spelled with a double dot shows the file under a second path, by which it is
removed after it was found up to date: a path with a completed write is not listed. -/
theorem aliased_file_not_listed :
    ∃ (p : Progress) (saved : Manifest) (t' : FileTree),
      Workplace.run ⟨["p"], "S"⟩ none upToDateTree upToDateReports [("t", ["a/../b"])] = .ok p ∧
      p.manifest ["p"] none = .ok saved ∧ saved.save p.tree ["p"] = .ok t' ∧
      Action.Wrote p.completed "b/x.md" ∧ saved.files = [] := by
  have hrun : Outcome.checks (fun p : Progress => (Action.lastWrite? p.completed "b/x.md").isSome &&
      Outcome.checks (fun m : Manifest => m.files.isEmpty &&
        Outcome.checks (fun _ => true) (m.save p.tree ["p"])) (p.manifest ["p"] none))
      (Workplace.run ⟨["p"], "S"⟩ none upToDateTree upToDateReports [("t", ["a/../b"])]) =
      true := by
    decide +kernel
  obtain ⟨p, hp, hpassed⟩ := Outcome.exists_of_checks hrun
  rw [Bool.and_eq_true, Action.isSome_lastWrite?] at hpassed
  obtain ⟨saved, hsaved, hmore⟩ := Outcome.exists_of_checks hpassed.2
  rw [Bool.and_eq_true, List.isEmpty_iff] at hmore
  obtain ⟨t', ht', -⟩ := Outcome.exists_of_checks hmore.2
  exact ⟨p, saved, t', hp, hsaved, ht', hpassed.1, hmore.1⟩

end Workplace

end AgentConfig
