import AgentConfig.Proofs.Platform.Zones

namespace AgentConfig.Workplace

open Outcome Text

variable {w : Workplace} {t : FileTree} {previous : Option Manifest} {p : Progress}

/-- If nothing fails in a run, the preview returns the same plan for every target. It carries out
none of them, though a run makes a plan only after it has carried out those before it. -/
theorem preview_shows_every_plan (hw : w.IsProper) (ht : t.WellFormed)
    (hroot : t.bytesAt w.root = none) (targets : Targets)
    (hload : Manifest.load t w.root = .ok previous)
    (hrun : w.run previous t targets.reports targets.managed = .ok p)
    (hok : ∀ r ∈ p.done, r.ok = true) :
    ∃ build, preview w.root t targets.reports targets.managed = .ok build ∧
      build.targets.map TargetReport.planned = p.done.map TargetReport.planned ∧
      List.Forall₂ (fun report done => done.target = report.target ∧ done.plan.isSome = true)
        targets.reports build.targets ∧
      ∀ written t', w.write t targets.reports targets.managed = .ok (written, t') →
        written.targets = p.done := by
  obtain ⟨done, hpreview, hdone⟩ := preview_of_run (targets.setting hw) targets.managed_stayOutside
    ht hroot targets.pairwise_spares hrun hok
  refine ⟨{ targets := done, dryRun := true }, ?_, hdone, ?_, ?_⟩
  · unfold preview
    rw [hload]
    exact Outcome.bind_eq_ok.mpr ⟨_, rfl, Outcome.bind_eq_ok.mpr ⟨_, hpreview, rfl⟩⟩
  · have hrel : List.Forall₂ (fun report planned => planned.1 = report.target ∧
        planned.2.isSome = true) targets.reports (done.map TargetReport.planned) := by
      rw [hdone, List.forall₂_map_right_iff]
      apply Outcome.forall₂_imp_of_mem (done_of_run hrun hok)
      intro report hreport done hplanned
      obtain ⟨platform, hplatform, rfl⟩ := List.mem_map.mp hreport
      obtain ⟨profile, -, rfl⟩ := targets.exists_default hplatform
      exact ⟨hplanned.1, hplanned.2 rfl⟩
    exact List.forall₂_map_right_iff.mp hrel
  · intro written t' hwrite
    obtain ⟨previous', p', -, hload', hrun', -, -, hreport⟩ := write_ok hwrite
    cases hload.symm.trans hload'
    cases hrun.symm.trans hrun'
    exact hreport

/-- A project with a rule, with the user's own page where two platforms put theirs, and with a file
that an earlier build has left in a directory of a third. -/
def sharedPageTree : FileTree :=
  ⟨[(["p", ".agentrc", "rules", "a.md"], .ofText "x"),
    (["p", ".agentrc", "rules"], .dir),
    (["p", ".agentrc", "config.yaml"], .ofText "version: \"1\"\n"),
    (["p", ".agentrc"], .dir), (["p", "AGENTS.md"], .ofText "mine"),
    (["p", ".clinerules", "old.md"], .ofText (Marker.add "old.md" "y")),
    (["p", ".clinerules"], .dir), (["p"], .dir)]⟩

@[inherit_doc sharedPageTree]
def sharedPageNames : List Text := ["codex", "cline", "amp"]

/-- What is done for the platforms: the page is copied away for the first of them and left by the
last, and the old file is removed for the one in between. -/
def sharedPageSteps : List (List (Text × ActionStatus × Bool)) :=
  [[("AGENTS.md", .update, true)],
    [(".clinerules/01-a.md", .create, false), (".clinerules/old.md", .remove, true)],
    [("AGENTS.md", .noop, false)]]

def stepsOf (planned : Text × Option Plan) : List (Text × ActionStatus × Bool) :=
  ((planned.2.map (·.actions)).getD []).map fun a => (a.path, a.status, a.backup)

/-- Whether a run for the platforms succeeds with these steps. -/
def isSharedPageRun (s : Source) (platforms : List Platform) : Bool :=
  checks (fun p => p.done.all (·.ok) &&
      (p.done.map TargetReport.planned).map stepsOf == sharedPageSteps)
    (run ⟨["p"], "S"⟩ none sharedPageTree (platforms.map (Project.generate s.guidance))
      (platforms.map fun platform => (platform.name, platform.managedDirs)))

private theorem exists_sharedPageRun :
    ∃ s platforms, Source.load sharedPageTree ["p"] = .ok s ∧
      Registry.default.resolve sharedPageNames = .ok platforms ∧
      isSharedPageRun s platforms = true := by
  have h : checks (fun s => checks (isSharedPageRun s)
      (Registry.default.resolve sharedPageNames)) (Source.load sharedPageTree ["p"]) = true := by
    decide +kernel
  obtain ⟨s, hload, h⟩ := exists_of_checks h
  obtain ⟨platforms, hresolve, h⟩ := exists_of_checks h
  exact ⟨s, platforms, hload, hresolve, h⟩

/-- The preview shows that the page is copied away once, and for which of the targets. -/
theorem preview_shows_every_plan_of_shared_page :
    ∃ (targets : Targets) (build : BuildReport),
      preview ["p"] sharedPageTree targets.reports targets.managed = .ok build ∧
      (build.targets.map TargetReport.planned).map stepsOf = sharedPageSteps := by
  obtain ⟨s, platforms, hload, hresolve, h⟩ := exists_sharedPageRun
  obtain ⟨p, hrun, h⟩ := Outcome.exists_of_checks h
  obtain ⟨hok, hactions⟩ := Bool.and_eq_true_iff.mp h
  have htree : sharedPageTree.WellFormed := FileTree.wellFormed_of_isPlain (by decide +kernel)
  let targets : Targets := ⟨s, platforms, ⟨sharedPageTree, ["p"], htree, hload⟩,
    sharedPageNames, by decide, hresolve⟩
  have hran : run ⟨["p"], "S"⟩ none sharedPageTree targets.reports targets.managed = .ok p := hrun
  obtain ⟨build, hpreview, hplans, -⟩ := preview_shows_every_plan
    (isProper_of_isPlain (by decide +kernel)) htree (FileTree.bytesAt_of_dir (by decide +kernel))
    targets (by rfl) hran (List.all_eq_true.mp hok)
  refine ⟨targets, build, hpreview, ?_⟩
  rw [hplans]
  exact eq_of_beq hactions

end AgentConfig.Workplace
