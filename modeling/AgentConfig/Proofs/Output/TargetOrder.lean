import AgentConfig.Proofs.Output.History
import AgentConfig.Proofs.Output.Merge
import AgentConfig.Proofs.Output.Preview
import AgentConfig.Proofs.Output.Returns

namespace AgentConfig

open List Outcome Progress AgentConfig.Action AgentConfig.Path

namespace FileTree

theorem entry?_of_get? {t u : FileTree} (h : ∀ location, u.get? location = t.get? location)
    (path : List Text) : u.entry? path = t.entry? path := by
  have hlocate : u.locate path = t.locate path := by
    have hshape : t.SameShape u := fun location => .inl (h location)
    simp only [locate, hshape.walk_eq]
  simp only [hlocate, h, FileTree.entry?]

end FileTree

namespace Manifest

theorem sorted_eq_of_perm {files others : List ManifestEntry} (hperm : files.Perm others)
    (h : (files.map (·.path)).Nodup) : sorted files = sorted others := by
  refine ((mergeSort_perm _ _).trans (hperm.trans (mergeSort_perm _ _).symm)).eq_of_pairwise ?_
    (pairwise_sorted h) (pairwise_sorted ((hperm.map _).nodup_iff.mp h))
  rintro a b - - ⟨hle, hne⟩ ⟨hle', -⟩
  exact absurd (Text.le_antisymm hle hle') hne

end Manifest

namespace Workplace

variable {w : Workplace} {t : FileTree} {p p' : Progress} {previous : Option Manifest}

theorem Holds.manifest_alike (hw : w.IsProper) (hholds : w.Holds t p.tree p.completed)
    (htallies : p.Tallies p.completed) (hholds' : w.Holds t p'.tree p'.completed)
    (htallies' : p'.Tallies p'.completed)
    (hget : ∀ location, p'.tree.get? location = p.tree.get? location)
    (hwrites : ∀ path, lastWrite? p'.completed path = lastWrite? p.completed path)
    (hremoved : ∀ path, path ∈ removedBy p'.completed ↔ path ∈ removedBy p.completed) :
    Both (fun m m' : Manifest => m'.toJson = m.toJson) (p.manifest w.root previous)
      (p'.manifest w.root previous) := by
  have hentry := FileTree.entry?_of_get? hget
  have hpersisted (path : Text) : p'.persisted.lookup path = p.persisted.lookup path := by
    rw [htallies.persisted, htallies'.persisted, hwrites]
  have hkept : Manifest.kept w.root p' = Manifest.kept w.root p := by
    have hcontains (path : Text) : p'.removed.contains path = p.removed.contains path := by
      rw [Bool.eq_iff_iff, contains_iff_mem, contains_iff_mem, htallies.removed, htallies'.removed,
        hremoved]
    unfold Manifest.kept FileTree.exists?
    simp only [hentry, hpersisted, hcontains]
  have hperm : p.persisted.Perm p'.persisted := by
    refine (perm_ext_iff_of_nodup (.of_map _ htallies.nodup) (.of_map _ htallies'.nodup)).mpr ?_
    rintro ⟨path, a⟩
    rw [htallies.mem_persisted_iff, htallies'.mem_persisted_iff, hwrites]
  have hwritten : (fun (path, a) => Manifest.written? w.root p'.tree path a) =
      fun (path, a) => Manifest.written? w.root p.tree path a := by
    simp only [Manifest.written?, FileTree.file?, hentry]
  unfold Progress.manifest
  rw [hkept, hwritten]
  refine (Both.refl _).bind fun old _ hold _ heq => ?_
  subst heq
  refine (Both.of_perm hperm).bind fun new new' hnew hnew' hnewPerm => ?_
  rw [← hwritten] at hnew'
  obtain ⟨hfiles, hnodup⟩ := hholds.foldl_putEntry_eq hw htallies hold hnew
  obtain ⟨hfiles', -⟩ := hholds'.foldl_putEntry_eq hw htallies' (hkept ▸ hold) hnew'
  show Manifest.toJson _ = Manifest.toJson _
  unfold Manifest.toJson
  dsimp only
  rw [← Manifest.sorted_eq_of_perm ?_ hnodup]
  rw [hfiles, hfiles']
  exact (hnewPerm.filterMap id).append_left _

theorem write_congr {reports : List TargetReport} {managed managed' : ManagedDirs}
    (h : ∀ target, managed'.of target = managed.of target) :
    w.write t reports managed' = w.write t reports managed := by
  have hstep (manifest : Manifest) :
      writeTarget w manifest managed' = writeTarget w manifest managed := by
    funext p report
    unfold writeTarget
    simp only [h]
  unfold Workplace.write run
  simp only [hstep]

section Order

variable {reports reports' : List TargetReport} {managed : ManagedDirs}
  (h : Setting w reports managed) (hdirs : managed.StayOutside) (ht : t.WellFormed)
  (hroot : t.get? w.root = some .dir) (hapart : reports.Pairwise (TargetReport.Apart managed))
  (hperm : reports.Perm reports')
include h hdirs ht hroot hapart hperm

/-- The order of the targets does not show in what a run leaves and notes, since each target does
what it would do alone. -/
theorem run_alike (previous : Option Manifest) :
    Both (fun p p' => (∀ location, p'.tree.get? location = p.tree.get? location) ∧
        (∀ path, lastWrite? p'.completed path = lastWrite? p.completed path) ∧
        ∀ path, path ∈ removedBy p'.completed ↔ path ∈ removedBy p.completed)
      (w.run previous t reports managed) (w.run previous t reports' managed) := by
  have hapart' : reports'.Pairwise (TargetReport.Apart managed) :=
    (hperm.pairwise_iff fun hab first hb ha => hab first ha hb).mp hapart
  have hend := run_merges h hdirs ht hroot hapart previous
  have hend' := run_merges (h.mono hperm.symm.subset) hdirs ht hroot hapart' previous
  cases hrun : w.run previous t reports managed <;>
  cases hrun' : w.run previous t reports' managed <;>
  rw [hrun] at hend <;> rw [hrun'] at hend'
  · trivial
  · obtain ⟨r, hr, halt, hhalt⟩ := hend
    obtain ⟨q, hq⟩ := hend'.2 r (hperm.mem_iff.mp hr)
    cases hhalt.symm.trans hq
  · obtain ⟨r, hr, halt, hhalt⟩ := hend'
    obtain ⟨q, hq⟩ := hend.2 r (hperm.mem_iff.mpr hr)
    cases hhalt.symm.trans hq
  · have hmerges' := hend'.1.of_mem_iff fun r => hperm.mem_iff.symm
    refine ⟨hend.1.get?_eq hmerges' hend.2, fun path => ?_, fun path => ?_⟩
    · ext a
      rw [hend.1.writes, hmerges'.writes]
    · rw [hend.1.removals, hmerges'.removals]

theorem write_alike :
    Both (fun done done' => ∀ location, done'.2.get? location = done.2.get? location)
      (w.write t reports managed) (w.write t reports' managed) := by
  have hfree := FileTree.bytesAt_of_dir hroot
  unfold Workplace.write
  refine (Both.refl _).bind fun previous _ _ _ heq => ?_
  subst heq
  refine (run_alike h hdirs ht hroot hapart hperm previous).bind ?_
  rintro p p' hrun hrun' ⟨hget, hwrites, hremoved⟩
  obtain ⟨htallies, hholds⟩ := holds_of_run h ht hfree hrun
  obtain ⟨htallies', hholds'⟩ := holds_of_run (h.mono hperm.symm.subset) ht hfree hrun'
  have hmanifest : Both _ (p.manifest w.root previous) (p'.manifest w.root previous) :=
    hholds.manifest_alike h.proper htallies hholds' htallies' hget hwrites hremoved
  refine (hmanifest.mapError _ _).bind fun m m' _ _ hjson => ?_
  refine Both.bind (r := fun u u' : FileTree => ∀ location, u'.get? location = u.get? location) ?_
    fun _ _ _ _ hsame => hsame
  unfold Manifest.save
  rw [hjson, Manifest.location_eq]
  have hsame : FileTree.Mirrors (fun _ => True) (fun _ => False) p.tree p.tree p'.tree :=
    ⟨hholds.wellFormed, hholds'.wellFormed, fun _ => hget _, nofun, nofun,
      fun hno => (hno trivial).elim⟩
  obtain ⟨htree, hrefusal⟩ := hsame.write (h.proper.root.append Manifest.areProper_names)
    (fun _ _ => .inl trivial) trivial id (Json.write m.toJson)
  cases hu : p.tree.write (w.root ++ Manifest.names) (Json.write m.toJson) <;>
  cases hu' : p'.tree.write (w.root ++ Manifest.names) (Json.write m.toJson) <;>
  rw [hu, hu'] at htree hrefusal
  · trivial
  · cases hrefusal
  · cases hrefusal
  · exact fun location => htree.alike_eq trivial

end Order

end Workplace

def Platform.sharesPage (platform : Platform) : Bool :=
  (["codex", "generic-markdown", "amp", "roo"] : List Text).contains platform.name

namespace Profile

theorem sharesPage_of_mem_pages {p q : Profile} (hp : p ∈ defaults) (hq : q ∈ defaults)
    (hne : p.name ≠ q.name) {page : Text} (hpage : page ∈ p.pages) (hother : page ∈ q.pages) :
    p.toPlatform.sharesPage = true := by
  have hall : (defaults.all fun p => defaults.all fun q => p.name == q.name ||
      p.toPlatform.sharesPage || p.pages.all fun page => !q.pages.contains page) = true := by
    decide +kernel
  have hpair := all_eq_true.mp (all_eq_true.mp hall p hp) q hq
  rw [Bool.or_eq_true, Bool.or_eq_true, beq_iff_eq, or_assoc] at hpair
  refine (hpair.resolve_left hne).resolve_right fun hnone => ?_
  simpa [hother] using all_eq_true.mp hnone page hpage

end Profile

namespace Targets

open Profile

variable {targets targets' : Targets}

theorem exists_uses {platform : Platform} (h : platform ∈ targets.platforms) {first : Text}
    (huses : (Project.generate targets.source.guidance platform).Uses targets.managed first) :
    ∃ p ∈ Profile.defaults, p.name = platform.name ∧
      (first ∈ p.zone ∨ ∃ page ∈ p.pages, top page = first) := by
  obtain ⟨p, hp, rfl⟩ := targets.exists_default h
  rcases huses with ⟨f, hf, rfl⟩ | ⟨directory, hdirectory, rfl⟩
  · refine ⟨p, hp, rfl, ?_⟩
    exact (top_mem_zone_of_generate (isPlaced_of_mem_defaults hp) hf).imp_right
      fun hpage => ⟨f.path, hpage.1, rfl⟩
  · obtain ⟨p, hp, hname, hmem⟩ := targets.exists_managed hdirectory
    exact ⟨p, hp, hname, .inl (top_mem_zone_of_managed hmem)⟩

theorem pairwise_apart (hshared : (targets.platforms.filter (·.sharesPage)).length ≤ 1) :
    targets.reports.Pairwise (TargetReport.Apart targets.managed) := by
  have hpairs : (targets.platforms.filter (·.sharesPage)).Pairwise fun _ _ => False := by
    generalize targets.platforms.filter (·.sharesPage) = sharing at hshared
    match sharing, hshared with
    | [], _ => exact .nil
    | [_], _ => exact pairwise_singleton _ _
    | _ :: _ :: _, hmany => simp at hmany
  refine pairwise_map.mpr
    ((targets.pairwise_name_ne.and (pairwise_filter.mp hpairs)).imp_of_mem ?_)
  rintro a b ha hb ⟨hne, hshared⟩ first hfirst hfirst'
  obtain ⟨p, hp, hpname, hfirst⟩ := exists_uses ha hfirst
  obtain ⟨q, hq, hqname, hfirst'⟩ := exists_uses hb hfirst'
  rw [← hpname, ← hqname] at hne
  have hpq := isClosedTo_of_mem_defaults hp hq hne
  have hqp := isClosedTo_of_mem_defaults hq hp hne.symm
  rcases hfirst with hzone | ⟨page, hpage, rfl⟩ <;>
  rcases hfirst' with hzone' | ⟨other, hother, htop⟩
  · exact not_mem_zone_of_mem_zone hpq hzone hzone'
  · exact not_mem_pages_of_mem_zone hpq hzone hother htop.symm
  · exact not_mem_pages_of_mem_zone hqp hzone' hpage rfl
  · obtain rfl := (page_eq_or_top_ne hpq hpage hother).resolve_right (not_not.mpr htop.symm)
    have hp := sharesPage_of_mem_pages hp hq hne hpage hother
    have hq := sharesPage_of_mem_pages hq ‹p ∈ Profile.defaults› hne.symm hother hpage
    unfold Platform.sharesPage at hp hq hshared
    exact hshared (hpname ▸ hp) (hqname ▸ hq)

theorem managed_of_perm (hperm : targets.platforms.Perm targets'.platforms) (name : Text) :
    targets'.managed.of name = targets.managed.of name := by
  have hnodup (targets : Targets) : (targets.managed.map (·.1)).Nodup := by
    rw [managed, map_map, Nodup, pairwise_map]
    exact targets.pairwise_name_ne
  unfold ManagedDirs.of
  congr 1
  ext dirs
  rw [← mem_iff_lookup (hnodup targets'), ← mem_iff_lookup (hnodup targets)]
  exact (hperm.map _).mem_iff.symm

end Targets

namespace Workplace

variable {w : Workplace} {t : FileTree}

/-- The order of targets of which at most one writes the shared page does not show in the tree that
a build leaves, nor in whether it returns. -/
theorem order_of_targets_leaves_no_trace (hw : w.IsProper) (ht : t.WellFormed)
    (hroot : t.get? w.root = some .dir) (targets targets' : Targets)
    (hsource : targets'.source = targets.source)
    (hperm : targets.platforms.Perm targets'.platforms)
    (hshared : (targets.platforms.filter (·.sharesPage)).length ≤ 1) :
    Both (fun done done' => ∀ location, done'.2.get? location = done.2.get? location)
        (w.write t targets.reports targets.managed) (w.write t targets'.reports targets'.managed) ∧
      ∀ previous, w.IsViable t targets.reports targets.managed previous →
        ((∃ done, w.write t targets'.reports targets'.managed = .ok done) ↔
          ¬ w.MeetsTooDeep previous t targets.reports targets.managed) := by
  have hreports : targets.reports.Perm targets'.reports := by
    rw [Targets.reports, Targets.reports, hsource]
    exact hperm.map _
  have hmanaged : w.write t targets'.reports targets'.managed = _ :=
    write_congr (Targets.managed_of_perm hperm)
  have hboth := write_alike (targets.setting hw) targets.managed_stayOutside ht hroot
    (Targets.pairwise_apart hshared) hreports
  rw [← hmanaged] at hboth
  exact ⟨hboth, fun previous hviable => hboth.exists_ok_iff.symm.trans hviable.exists_write_iff⟩

def pair (a b : Profile) (hne : a.name ≠ b.name)
    (hresolve : Registry.default.resolve [a.name, b.name] = .ok [a.toPlatform, b.toPlatform])
    {s : Source} (loaded : ∃ t root, t.WellFormed ∧ Source.load t root = .ok s) : Targets :=
  ⟨s, [a.toPlatform, b.toPlatform], loaded, [a.name, b.name], by simp [hne], hresolve⟩

/-- The tree that a run for two platforms leaves, if it comes to its end. -/
def pairRun (t : FileTree) (a b : Profile) (s : Source) : Except Halt Progress :=
  run ⟨["p"], "S"⟩ none t ([a, b].map fun p => Project.generate s.guidance p.toPlatform)
    ([a, b].map fun p => (p.name, p.managedDirs))

/-- For two platforms, one of which copies away the page of the user and the other one removes a
file of an earlier build, a build comes to the same in both orders. -/
theorem order_of_targets_leaves_no_trace_of_page :
    ∃ (targets targets' : Targets) (done done' : BuildReport × FileTree),
      targets.platforms.map (·.name) = ["codex", "cline"] ∧
      targets'.platforms.map (·.name) = ["cline", "codex"] ∧
      Workplace.write ⟨["p"], "S"⟩ sharedPageTree targets.reports targets.managed = .ok done ∧
      Workplace.write ⟨["p"], "S"⟩ sharedPageTree targets'.reports targets'.managed = .ok done' ∧
      ∀ location, done'.2.get? location = done.2.get? location := by
  have hchecked : checks (fun s => checks (fun _ => true)
      (pairRun sharedPageTree Profile.codex Profile.cline s))
      (Source.load sharedPageTree ["p"]) = true := by
    decide +kernel
  obtain ⟨s, hsource, hchecked⟩ := exists_of_checks hchecked
  obtain ⟨p, hrun, -⟩ := exists_of_checks hchecked
  have ht : sharedPageTree.WellFormed := FileTree.wellFormed_of_isPlain (by decide +kernel)
  have hloaded : ∃ t root, FileTree.WellFormed t ∧ Source.load t root = .ok s :=
    ⟨sharedPageTree, ["p"], ht, hsource⟩
  let targets := pair Profile.codex Profile.cline (by decide) rfl hloaded
  let targets' := pair Profile.cline Profile.codex (by decide) rfl hloaded
  have hw : IsProper ⟨["p"], "S"⟩ := isProper_of_isPlain (by decide +kernel)
  have hroot : sharedPageTree.get? ["p"] = some .dir := by decide +kernel
  obtain ⟨build, t', -, hwrite, -⟩ := (targets.setting hw).exists_write_of_run
    ⟨ht, hroot, by decide +kernel, by decide +kernel⟩ (by rfl) (by simp) (by decide +kernel) hrun
  have hshared : ([Profile.codex.toPlatform, Profile.cline.toPlatform].filter
      (·.sharesPage)).length ≤ 1 := by decide +kernel
  have hboth := (order_of_targets_leaves_no_trace hw ht hroot targets targets' rfl (.swap _ _ _)
    hshared).1
  obtain ⟨done', hwrite'⟩ := hboth.exists_ok_iff.mp ⟨_, hwrite⟩
  rw [hwrite, hwrite'] at hboth
  exact ⟨targets, targets', _, done', rfl, rfl, hwrite, hwrite', hboth⟩

open History (hookTree)

/-- A build that does not return leaves what was done for the targets before the one that ends it,
so the order of the targets shows in the tree. -/
theorem order_shows_where_a_build_ends_early :
    ∃ targets targets' : Targets, targets'.source = targets.source ∧
      targets.platforms.Perm targets'.platforms ∧
      (targets.platforms.filter (·.sharesPage)).length ≤ 1 ∧
      (treeAfter ⟨["p"], "S"⟩ hookTree targets.reports targets.managed).get?
        ["p", ".claude"] = none ∧
      (treeAfter ⟨["p"], "S"⟩ hookTree targets'.reports targets'.managed).get?
        ["p", ".claude"] = some .dir := by
  have hchecked : checks (fun s =>
      fails (fun halt => halt.tree.get? ["p", ".claude"] == none)
        (pairRun hookTree Profile.cline Profile.claude s) &&
      fails (fun halt => halt.tree.get? ["p", ".claude"] == some .dir)
        (pairRun hookTree Profile.claude Profile.cline s))
      (Source.load hookTree ["p"]) = true := by
    decide +kernel
  obtain ⟨s, hsource, hchecked⟩ := exists_of_checks hchecked
  obtain ⟨hfirst, hlast⟩ := Bool.and_eq_true_iff.mp hchecked
  have hloaded : ∃ t root, FileTree.WellFormed t ∧ Source.load t root = .ok s :=
    ⟨hookTree, ["p"], FileTree.wellFormed_of_isPlain (by decide +kernel), hsource⟩
  have hafter {a b : Profile} {halt : Halt} (hrun : pairRun hookTree a b s = .error halt)
      {found : Option FileEntry} (hfound : (halt.tree.get? ["p", ".claude"] == found) = true) :
      (treeAfter ⟨["p"], "S"⟩ hookTree
        ([a, b].map fun p => Project.generate s.guidance p.toPlatform)
        ([a, b].map fun p => (p.name, p.managedDirs))).get? ["p", ".claude"] = found := by
    have hwrite : Workplace.write ⟨["p"], "S"⟩ hookTree _ _ = .error halt :=
      bind_eq_error.mpr (.inr ⟨none, by rfl, bind_eq_error.mpr (.inl hrun)⟩)
    unfold treeAfter
    rw [hwrite]
    exact eq_of_beq hfound
  have hshared : ([Profile.cline.toPlatform, Profile.claude.toPlatform].filter
      (·.sharesPage)).length ≤ 1 := by decide +kernel
  obtain ⟨halt, hrun, hnone⟩ := exists_of_fails hfirst
  obtain ⟨halt', hrun', hsome⟩ := exists_of_fails hlast
  exact ⟨pair Profile.cline Profile.claude (by decide) rfl hloaded,
    pair Profile.claude Profile.cline (by decide) rfl hloaded, rfl, .swap _ _ _, hshared,
    hafter hrun hnone, hafter hrun' hsome⟩

end Workplace

end AgentConfig
