import AgentConfig.Proofs.Output.Run
import Mathlib.Data.List.Nodup

namespace AgentConfig

open List AgentConfig.Path
open Workplace (IsOutside)

variable {c : PlanContext} {f : OutputFile} {names root desired dirs : List Text} {a : Action}
  {report : TargetReport} {managed : ManagedDirs} {target directory path : Text}
  {after before files : List OutputFile}

/-- The generated files have paths in normal form that keep out of the source directory. -/
def TargetReport.StaysOutside (report : TargetReport) : Prop :=
  ∀ result, report.result = some result →
    ∀ f ∈ result.files, ∃ names, Leads f.path names ∧ IsOutside names

theorem TargetReport.staysOutside_of_forall (h : ∀ f ∈ (report.result.map (·.files)).getD [],
      ∃ names, Leads f.path names ∧ IsOutside names) : report.StaysOutside := by
  intro result hresult
  rw [hresult] at h
  exact h

/-- No path is generated twice for the target. -/
def TargetReport.HasDistinctPaths (report : TargetReport) : Prop :=
  ∀ result, report.result = some result → (result.files.map (·.path)).Nodup

/-- A check for both by the letters of the paths. -/
def TargetReport.isOrderly (report : TargetReport) : Bool :=
  let paths := ((report.result.map (·.files)).getD []).map (·.path)
  decide paths.Nodup && paths.all fun path =>
    let names := Path.names path
    (!names.isEmpty && names.all isPlain && path == relative names) &&
      decide (IsOutside names)

theorem TargetReport.of_isOrderly {reports : List TargetReport}
    (h : reports.all (·.isOrderly) = true) :
    ∀ report ∈ reports, report.StaysOutside ∧ report.HasDistinctPaths := by
  intro report hreport
  have hpaths := all_eq_true.mp h report hreport
  simp only [isOrderly, Bool.and_eq_true, decide_eq_true_eq, all_eq_true] at hpaths
  constructor
  · intro result hresult f hf
    rw [hresult] at hpaths
    obtain ⟨hplain, hout⟩ := hpaths.2 f.path (mem_map_of_mem hf)
    exact ⟨_, leads_of_isPlain (by simpa using hplain), hout⟩
  · intro result hresult
    rw [hresult] at hpaths
    exact hpaths.1

theorem TargetReport.HasDistinctPaths.alone {result : Generated} (h : report.HasDistinctPaths)
    (hresult : report.result = some result) (hfiles : result.files = before ++ f :: after) :
    ∀ g ∈ before ++ after, g.path ≠ f.path := by
  have hdistinct := h result hresult
  rw [hfiles, map_append, map_cons, nodup_middle, ← map_append] at hdistinct
  exact fun g hg heq => (nodup_cons.mp hdistinct).1 (heq ▸ mem_map_of_mem hg)

/-- The managed directories have proper names; none lies in the source directory or contains it. -/
def ManagedDirs.Spares (managed : ManagedDirs) (root : List Text) : Prop :=
  ∀ target, ∀ directory ∈ managed.of target, AreProper (Path.names directory) ∧
    ¬ join root directory <+: root ++ [Source.directory] ∧
    ¬ root ++ [Source.directory] <+: join root directory

theorem ManagedDirs.spares_of_forall
    (h : ∀ e ∈ managed, ∀ directory ∈ e.2, AreProper (Path.names directory) ∧
      ¬ join root directory <+: root ++ [Source.directory] ∧
      ¬ root ++ [Source.directory] <+: join root directory) : managed.Spares root := by
  intro target directory hmem
  unfold ManagedDirs.of at hmem
  cases hlookup : managed.lookup target with
  | none => simp [hlookup] at hmem
  | some dirs =>
    rw [hlookup] at hmem
    obtain ⟨before, after, hmanaged, -⟩ := lookup_eq_some_iff.mp hlookup
    exact h (target, dirs) (by simp [hmanaged]) directory hmem

theorem ManagedDirs.Spares.isOutside (h : managed.Spares root)
    (hmem : directory ∈ managed.of target)
    (hlies : PlanContext.LiesIn root directory names) : IsOutside names := by
  obtain ⟨-, habove, hbelow⟩ := h target directory hmem
  obtain ⟨rest, -, heq⟩ := hlies
  intro hhead
  obtain ⟨more, rfl⟩ : ∃ more, names = Source.directory :: more :=
    head?_eq_some_iff.mp hhead
  have hsource : root ++ [Source.directory] <+: join root directory ++ rest :=
    ⟨more, by simpa using heq⟩
  have hdirectory := prefix_append (join root directory) rest
  rcases prefix_or_prefix_of_prefix hdirectory hsource with h | h
  · exact habove h
  · exact hbelow h

/-- An action of a plan writes one of the files, or removes a stale one. -/
inductive PlanContext.Plans (c : PlanContext) (target : Text) (files : List OutputFile)
    (dirs : List Text) (a : Action) (names : List Text) : Prop
  | write {f : OutputFile} (hmem : f ∈ files) (hleads : Leads a.path names)
    (hplan : c.PlansWrite f a)
  | removal {bytes : ByteArray}
    (hplan : c.PlansRemoval target (files.map (·.path)) dirs a names bytes)

theorem PlanContext.PlansRemoval.kind_eq {bytes : ByteArray}
    (h : c.PlansRemoval target desired dirs a names bytes) : a.kind = .removeFile := by
  rw [h.action_eq]
  rfl

theorem PlanContext.PlansWrite.persists (h : c.PlansWrite f a) : a.kind.persists = true := by
  rw [h.kind_eq]
  split <;> rfl

theorem PlanContext.PlansWrite.respects (h : c.PlansWrite f a) (htree : c.tree.WellFormed)
    (hroot : AreProper c.root) (hleads : Leads a.path names)
    (hfresh : c.ledger.hasPath a.path = false) :
    match c.tree.get? (c.root ++ names) with
    | none => a.status ≠ .noop
    | some entry => c.Respects a entry := by
  obtain ⟨found, hfound, hmatch⟩ := h.fresh (h.path_eq ▸ hfresh)
  rw [← h.path_eq] at hfound
  have hentry := Outcome.mapError_eq_ok.mp hfound
  rw [PlanContext.location, hleads.join_eq] at hentry
  rw [← htree.entry?_eq (hroot.append hleads.proper) hentry]
  exact hmatch

theorem PlanContext.map_path_eq {writes : List Action} (h : Forall₂ c.PlansWrite files writes) :
    writes.map (·.path) = files.map (·.path) := by
  induction h with
  | nil => rfl
  | cons hfirst _ ih => simp [hfirst.path_eq, ih]

namespace PlanContext.Plans

variable {files : List OutputFile} {dirs : List Text} (h : c.Plans target files dirs a names)
include h

theorem leads : Leads a.path names := by
  cases h with
  | write _ hleads _ => exact hleads
  | removal hplan => exact hplan.leads

theorem kind_ne : a.kind ≠ .removeKeys := by
  cases h with
  | write _ _ hplan =>
    rw [hplan.kind_eq]
    split <;> simp
  | removal hplan => simp [hplan.kind_eq]

end PlanContext.Plans

namespace Workplace

variable {w : Workplace} {previous : Option Manifest} {t : FileTree}
  {reports others : List TargetReport} {p : Progress} {plan : Plan} {actions : List Action}

/-- A run in a sound setting: its outputs and managed directories keep out of the source
directory. -/
structure Setting (w : Workplace) (reports : List TargetReport) (managed : ManagedDirs) : Prop where
  proper : w.IsProper
  outputs : ∀ report ∈ reports, report.StaysOutside
  managed : managed.Spares w.root

theorem Setting.mono (h : Setting w reports managed)
    (hsub : others ⊆ reports) : Setting w others managed :=
  ⟨h.proper, fun r hr => h.outputs r (hsub hr), h.managed⟩

theorem Planned.mem (hplanned : w.Planned previous t reports managed report p plan) :
    report ∈ reports := by
  obtain ⟨before, after, h, -⟩ := hplanned.reached
  simp [h]

theorem Setting.isSound (h : Setting w reports managed) (htree : p.tree.WellFormed)
    (hroot : p.tree.bytesAt w.root = none) : (p.context w m).IsSound (managed.of target) :=
  ⟨htree, h.proper.root, hroot, fun directory hmem => (h.managed _ directory hmem).1⟩

/-- Each action of a plan is for a file outside the source directory. Those that write come first,
one for each file, and no removal is of a file that the same plan writes. -/
theorem Setting.plan_inv (h : Setting w reports managed)
    (hplanned : w.Planned previous t reports managed report p plan) (htree : p.tree.WellFormed)
    (hroot : p.tree.bytesAt w.root = none) :
    ∃ result writes removals, report.result = some result ∧ plan.actions = writes ++ removals ∧
      Forall₂ (p.context w (previous.getD {})).PlansWrite result.files writes ∧
      (∀ a, a ∈ removals ↔ ∃ names bytes, (p.context w (previous.getD {})).PlansRemoval
        report.target (result.files.map (·.path)) (managed.of report.target) a names bytes) ∧
      ∀ a ∈ plan.actions, ∃ names, IsOutside names ∧
        (p.context w (previous.getD {})).Plans report.target result.files
          (managed.of report.target) a names := by
  obtain ⟨result, hresult, hplan⟩ := hplanned.plans
  obtain ⟨writes, removals, hactions, hwrites, hremovals⟩ :=
    PlanContext.plan_inv (h.isSound htree hroot) hplan
  refine ⟨result, writes, removals, hresult, hactions, hwrites, hremovals, ?_⟩
  intro a ha
  rw [hactions] at ha
  rcases mem_append.mp ha with ha | ha
  · obtain ⟨f, hf, hwrite⟩ := Outcome.exists_of_forall₂ hwrites ha
    obtain ⟨names, hleads, hout⟩ := h.outputs report hplanned.mem result hresult f hf
    exact ⟨names, hout, .write hf (hwrite.path_eq ▸ hleads) hwrite⟩
  · obtain ⟨names, bytes, hremoval⟩ := (hremovals a).mp ha
    obtain ⟨directory, hmem, hlies⟩ := hremoval.liesIn
    exact ⟨names, h.managed.isOutside hmem hlies, .removal hremoval⟩

theorem hasPath_eq_false_iff (htallies : p.Tallies actions) (path : Text) :
    p.ledger.hasPath path = false ↔ ¬ Action.Wrote actions path := by
  rw [htallies.ledger, ← Action.isSome_lastWrite?, Bool.not_eq_true]

theorem wrote_of_get? (htallies : p.Tallies actions) {e : LedgerEntry}
    (h : p.ledger.get? path = some e) : Action.Wrote actions path := by
  by_contra hnot
  have hfresh := (hasPath_eq_false_iff htallies path).mpr hnot
  simp [Ledger.hasPath, h] at hfresh

theorem Setting.plan_pairwise (h : Setting w reports managed)
    (hplanned : w.Planned previous t reports managed report p plan) (htree : p.tree.WellFormed)
    (hroot : p.tree.bytesAt w.root = none) (hdistinct : report.HasDistinctPaths) :
    plan.actions.Pairwise fun a b => a.kind.persists = true → a.path ≠ b.path := by
  obtain ⟨result, writes, removals, hresult, hactions, hwrites, hremovals, -⟩ :=
    h.plan_inv hplanned htree hroot
  have hpaths := PlanContext.map_path_eq hwrites
  have hnodup := hdistinct result hresult
  rw [← hpaths, Nodup, pairwise_map] at hnodup
  rw [hactions, pairwise_append]
  refine ⟨?_, ?_, ?_⟩
  · refine List.Pairwise.imp ?_ hnodup
    exact fun hne _ => hne
  · refine pairwise_of_forall_mem_list ?_
    intro a ha b _ hpersists
    obtain ⟨names, bytes, hremoval⟩ := (hremovals a).mp ha
    simp [hremoval.kind_eq, ActionKind.persists] at hpersists
  · intro a ha b hb _ heq
    obtain ⟨names, bytes, hremoval⟩ := (hremovals b).mp hb
    exact hremoval.not_desired (hpaths ▸ heq ▸ mem_map_of_mem ha)

end Workplace

end AgentConfig

namespace AgentConfig

open Outcome FileTree

namespace Manifest

variable {t : FileTree} {root : List Text} {m : Manifest}

def names : List Text := [Source.directory, ".manifest.json"]

theorem location_eq (root : List Text) : location root = root ++ names := by
  simp [location, Path.child, names]

theorem areProper_names : Path.AreProper names := Path.areProper_of_isPlain (by decide +kernel)

theorem entry?_of_load (hload : load t root = .ok (some m)) :
    ∃ bytes, t.entry? (root ++ names) = .ok (some (.file bytes)) := by
  unfold load storedJson at hload
  rw [location_eq] at hload
  obtain ⟨stored, hstored, hload⟩ := bind_eq_ok.mp hload
  obtain ⟨found, hfound, hstored⟩ := bind_eq_ok.mp hstored
  cases found with
  | none =>
    cases hstored
    cases hload
  | some entry =>
    cases entry with
    | file bytes => exact ⟨bytes, mapError_eq_ok.mp hfound⟩
    | dir =>
      cases hstored
      cases hload

theorem exists_of_load (ht : t.WellFormed)
    (hroot : Path.AreProper root) (hload : load t root = .ok (some m)) :
    ∃ bytes, t.bytesAt (root ++ names) = some bytes := by
  obtain ⟨bytes, hentry⟩ := entry?_of_load hload
  have hget := ht.entry?_eq (hroot.append areProper_names) hentry
  exact ⟨bytes, bytesAt_eq_some_iff.mpr hget.symm⟩

end Manifest

namespace Workplace

theorem IsOutside.ne_manifest {names : List Text} (h : IsOutside names) (root : List Text) :
    root ++ names ≠ root ++ Manifest.names := by
  intro heq
  exact absurd (List.append_cancel_left heq ▸ h) (by decide +kernel)

variable {w : Workplace} {t t' : FileTree} {reports : List TargetReport} {managed : ManagedDirs}

/-- The tree that a build leaves, whether or not it comes to its end. -/
def treeAfter (w : Workplace) (t : FileTree) (reports : List TargetReport)
    (managed : ManagedDirs) : FileTree :=
  match w.write t reports managed with
  | .ok (_, t') => t'
  | .error halt => halt.tree

theorem write_ok {build : BuildReport} (hwrite : w.write t reports managed = .ok (build, t')) :
    ∃ previous p manifest, Manifest.load t w.root = .ok previous ∧
      w.run previous t reports managed = .ok p ∧
      p.manifest w.root previous = .ok manifest ∧ manifest.save p.tree w.root = .ok t' ∧
      build.targets = p.done := by
  obtain ⟨previous, hload, hwrite⟩ := bind_eq_ok.mp hwrite
  obtain ⟨p, hrun, hwrite⟩ := bind_eq_ok.mp hwrite
  obtain ⟨manifest, hmanifest, hwrite⟩ := bind_eq_ok.mp hwrite
  obtain ⟨u, hsave, hwrite⟩ := bind_eq_ok.mp hwrite
  cases hwrite
  exact ⟨previous, p, manifest, mapError_eq_ok.mp hload, hrun,
    mapError_eq_ok.mp hmanifest, hsave, rfl⟩

theorem write_error {halt : Halt} (hwrite : w.write t reports managed = .error halt) :
    halt.tree = t ∨ ∃ previous, Manifest.load t w.root = .ok previous ∧
      (w.run previous t reports managed = .error halt ∨
        ∃ p, w.run previous t reports managed = .ok p ∧ (halt.tree = p.tree ∨
            ∃ manifest, p.manifest w.root previous = .ok manifest ∧
              manifest.save p.tree w.root = .error halt)) := by
  have htree {α : Type} {u : FileTree} {r : Except Failure α}
      (h : Failure.orHalt u r = .error halt) : halt.tree = u := by
    obtain ⟨failure, -, rfl⟩ := mapError_eq_error.mp h
    rfl
  rcases bind_eq_error.mp hwrite with hload | ⟨previous, hload, hwrite⟩
  · exact .inl (htree hload)
  refine .inr ⟨previous, mapError_eq_ok.mp hload, ?_⟩
  rcases bind_eq_error.mp hwrite with hrun | ⟨p, hrun, hwrite⟩
  · exact .inl hrun
  refine .inr ⟨p, hrun, ?_⟩
  rcases bind_eq_error.mp hwrite with hmanifest | ⟨manifest, hmanifest, hwrite⟩
  · exact .inl (htree hmanifest)
  rcases bind_eq_error.mp hwrite with hsave | ⟨u, -, hwrite⟩
  · exact .inr ⟨manifest, mapError_eq_ok.mp hmanifest, hsave⟩
  · cases hwrite

theorem IsProper.save_changesAt (hw : w.IsProper) (ht : t.WellFormed) (manifest : Manifest) :
    Yields (fun t' => t.ChangesAt t' (w.root ++ Manifest.names))
      (fun halt => t.ChangesAt halt.tree (w.root ++ Manifest.names))
      (manifest.save t w.root) := by
  have hchange := write_changesAt ht (hw.root.append Manifest.areProper_names)
    (Json.write manifest.toJson)
  unfold Manifest.save Halt.atPath
  rw [Manifest.location_eq]
  cases hwrite : t.write (w.root ++ Manifest.names) (Json.write manifest.toJson) with
  | _ =>
    rw [hwrite] at hchange
    exact hchange

theorem IsProper.treeAfter_cases (hw : w.IsProper) : w.treeAfter t reports managed = t ∨
    ∃ previous, Manifest.load t w.root = .ok previous ∧ Yields (fun p => p.tree.WellFormed →
          p.tree.ChangesAt (w.treeAfter t reports managed) (w.root ++ Manifest.names))
        (fun halt => w.treeAfter t reports managed = halt.tree)
        (w.run previous t reports managed) := by
  unfold treeAfter
  cases hwrite : w.write t reports managed with
  | ok result =>
    obtain ⟨previous, p, manifest, hload, hrun, -, hsave, -⟩ := write_ok hwrite
    refine .inr ⟨previous, hload, ?_⟩
    rw [hrun]
    intro htree
    have hchange := hw.save_changesAt htree manifest
    rw [hsave] at hchange
    exact hchange
  | error halt =>
    rcases write_error hwrite with htree | ⟨previous, hload, hrun | ⟨p, hrun, hcase⟩⟩
    · exact .inl htree
    · refine .inr ⟨previous, hload, ?_⟩
      rw [hrun]
      rfl
    · refine .inr ⟨previous, hload, ?_⟩
      rw [hrun]
      intro htree
      rcases hcase with heq | ⟨manifest, -, hsave⟩
      · show p.tree.ChangesAt halt.tree _
        rw [heq]
        exact (SameFiles.refl htree).changesAt _
      · have hchange := hw.save_changesAt htree manifest
        rw [hsave] at hchange
        exact hchange

end Workplace

end AgentConfig
