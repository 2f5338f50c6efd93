import AgentConfig.Proofs.FileTree.Success
import AgentConfig.Proofs.Output.Sound

namespace AgentConfig

open List Outcome FileTree

namespace Workplace

variable {w : Workplace} {t t' : FileTree} {a : Action} {path : Text} {fault : FileFault}
  {actions : List Action} {e e' : Execution}

theorem bytesAt_of_backUp_refused (h : w.backUp t path = .error (fault, t')) (place : List Text) :
    t'.bytesAt place = t.bytesAt place := by
  rcases bind_eq_error.mp h with h | ⟨found, -, h⟩
  · obtain ⟨_, -, heq⟩ := mapError_eq_error.mp h
    rw [← (Prod.mk.inj heq).2]
  split at h
  · have hmade := bytesAt_makeDirs t (w.backupLocation path).dropLast place
    rcases bind_eq_error.mp h with h | ⟨u, hmake, h⟩
    · rw [h] at hmade
      exact hmade
    rw [hmake] at hmade
    rcases bind_eq_error.mp h with h | ⟨v, -, h⟩
    · obtain ⟨_, -, heq⟩ := mapError_eq_error.mp h
      rw [← (Prod.mk.inj heq).2]
      exact hmade
    · cases h
  · cases h

theorem backUp_cases {made : Bool} (h : w.backUp t path = .ok (made, t')) :
    (made = false ∧ t' = t) ∨ ∃ location bytes,
      t'.locate (w.location path) = .ok location ∧ t'.get? location = some (.file bytes) := by
  obtain ⟨found, -, h⟩ := bind_eq_ok.mp h
  split at h
  · obtain ⟨u, -, h⟩ := bind_eq_ok.mp h
    obtain ⟨v, hcopy, h⟩ := bind_eq_ok.mp h
    cases h
    exact .inr (locate_of_copy (mapError_eq_ok.mp hcopy))
  · cases h
    exact .inl ⟨rfl, rfl⟩

/-- A change that touches no file when it is refused, and that is not refused where a file is found,
touches no file when it is refused after a copy either. -/
theorem changing_refused {change : FileTree → TreeChange} {fault : ActionFault}
    (hkeeps : ∀ {u fault u'}, change u = .error (fault, u') → fault.isSystem = true →
      ∀ place, u'.bytesAt place = u.bytesAt place)
    (hfound : ∀ {u location bytes fault u'}, u.locate (w.location a.path) = .ok location →
      u.get? location = some (.file bytes) → change u = .error (fault, u') →
      fault.isSystem = false)
    (hresult : (w.changing t a change).result = .error fault)
    (hsystem : ∀ f, fault = .file f → f.isSystem = true) (place : List Text) :
    (w.changing t a change).tree.bytesAt place = t.bytesAt place := by
  have hchange {u : FileTree} {made : Bool}
      (hresult : (Performed.ofChange made (change u)).result = .error fault) :
      ∃ f u', change u = .error (f, u') ∧ f.isSystem = true := by
    cases hchanged : change u with
    | ok u' =>
      rw [hchanged] at hresult
      cases hresult
    | error e =>
      rw [hchanged] at hresult
      exact ⟨e.1, e.2, rfl, hsystem _ (Except.error.inj hresult).symm⟩
  unfold changing at hresult ⊢
  split at hresult
  · rename_i hbackup
    rw [if_pos hbackup]
    split at hresult
    · rename_i made u hcopy
      obtain ⟨f, u', hrefused, hf⟩ := hchange hresult
      rw [hrefused]
      rcases backUp_cases hcopy with ⟨-, rfl⟩ | ⟨location, bytes, hlocate, hget⟩
      · exact hkeeps hrefused hf place
      · rw [hfound hlocate hget hrefused] at hf
        cases hf
    · rename_i f u hcopy
      exact bytesAt_of_backUp_refused hcopy place
  · rename_i hbackup
    rw [if_neg hbackup]
    obtain ⟨f, u', hrefused, hf⟩ := hchange hresult
    rw [hrefused]
    exact hkeeps hrefused hf place

private theorem removeAt_refused (h : w.removeAt path t = .error (fault, t')) :
    t' = t ∧ t.unlink (w.location path) = .error fault := by
  unfold removeAt at h
  cases hunlink : t.unlink (w.location path) with
  | ok u =>
    rw [hunlink] at h
    cases h
  | error f =>
    rw [hunlink] at h
    cases h
    exact ⟨rfl, rfl⟩

theorem perform_refused (hkind : a.kind ≠ .removeKeys) {fault : ActionFault}
    (hresult : (w.perform t a).result = .error fault)
    (hsystem : ∀ f, fault = .file f → f.isSystem = true) (place : List Text) :
    (w.perform t a).tree.bytesAt place = t.bytesAt place := by
  rcases Action.persists_or_removeFile hkind with hpersists | hremove
  · rw [perform_of_persists hpersists] at hresult ⊢
    unfold performWrite at hresult ⊢
    split at hresult
    · cases hresult
    rename_i hstatus
    rw [if_neg hstatus]
    split at hresult
    · rfl
    · exact changing_refused bytesAt_of_write_refused write_of_locate hresult hsystem place
  · rw [perform_of_removeFile hremove] at hresult ⊢
    unfold performRemoval at hresult ⊢
    split at hresult
    · rfl
    · cases hresult
    refine changing_refused (fun h _ place => by rw [(removeAt_refused h).1]) ?_ hresult hsystem
      place
    intro u location bytes f u' hlocate hget h
    have hunlink := (removeAt_refused h).2
    rw [unlink_of_locate hlocate hget] at hunlink
    cases hunlink

/-- The actions of a plan, each with the tree on which it is tried. -/
def tried (w : Workplace) : FileTree → List Action → List (Action × FileTree)
  | _, [] => []
  | t, a :: rest => (a, t) :: w.tried (w.perform t a).tree rest

/-- What is said of an action that fails. -/
def faultOf? (w : Workplace) (attempt : Action × FileTree) : Option Text :=
  match (w.perform attempt.2 attempt.1).result with
  | .ok _ => none
  | .error fault => some (w.faultText attempt.1 fault)

theorem map_tried (w : Workplace) (t : FileTree) (actions : List Action) :
    (w.tried t actions).map (·.1) = actions := by
  induction actions generalizing t with
  | nil => rfl
  | cons a rest ih => rw [tried, map_cons, ih]

/-- A plan that was carried out: every action was tried, and either it is noted as completed or its
failure is told. One that failed has touched no file. -/
structure Accounts (w : Workplace) (t : FileTree) (actions : List Action) (e : Execution) :
    Prop where
  completed_eq : e.completed =
    ((w.tried t actions).filter fun attempt => (w.faultOf? attempt).isNone).map (·.1)
  failures_eq : e.failures = (w.tried t actions).filterMap w.faultOf?
  count : e.completed.length + e.failed = actions.length
  spares : ∀ attempt ∈ w.tried t actions, w.faultOf? attempt ≠ none →
    ∀ place, (w.perform attempt.2 attempt.1).tree.bytesAt place = attempt.2.bytesAt place

private theorem length_filter_add {α β : Type} (f : α → Option β) (xs : List α) :
    (xs.filter fun x => (f x).isNone).length + (xs.filterMap f).length = xs.length := by
  induction xs with
  | nil => rfl
  | cons x rest ih =>
    cases h : f x <;> simp [h] <;> omega

private theorem foldlM_step (hkinds : ∀ a ∈ actions, a.kind ≠ .removeKeys)
    (h : actions.foldlM (Execution.step w) e = .ok e') :
    e'.completed = e.completed ++
        ((w.tried e.tree actions).filter fun attempt => (w.faultOf? attempt).isNone).map (·.1) ∧
      e'.failures = e.failures ++ (w.tried e.tree actions).filterMap w.faultOf? ∧
      ∀ attempt ∈ w.tried e.tree actions, w.faultOf? attempt ≠ none →
        ∀ place, (w.perform attempt.2 attempt.1).tree.bytesAt place = attempt.2.bytesAt place := by
  induction actions generalizing e with
  | nil =>
    cases h
    simp [tried]
  | cons a rest ih =>
    obtain ⟨e₁, hstep, h⟩ := bind_eq_ok.mp h
    obtain ⟨hcompleted, hfailures, hspares⟩ :=
      ih (fun b hb => hkinds b (mem_cons_of_mem _ hb)) h
    obtain ⟨htree, ⟨changed, hresult, hdone, hnone⟩ | ⟨fault, hresult, hsystem, hdone, htold⟩⟩ :=
      Execution.step_ok hstep
    · have hfault : w.faultOf? (a, e.tree) = none := by simp [faultOf?, hresult]
      rw [htree] at hcompleted hfailures hspares
      refine ⟨?_, ?_, ?_⟩
      · simp [tried, hcompleted, hdone, hfault]
      · simp [tried, hfailures, hnone, hfault]
      · exact forall_mem_cons.mpr ⟨fun hfailed => absurd hfault hfailed, hspares⟩
    · have hfault : w.faultOf? (a, e.tree) = some (w.faultText a fault) := by
        simp [faultOf?, hresult]
      rw [htree] at hcompleted hfailures hspares
      refine ⟨?_, ?_, ?_⟩
      · simp [tried, hcompleted, hdone, hfault]
      · simp [tried, hfailures, htold, hfault]
      · exact forall_mem_cons.mpr
          ⟨fun _ => perform_refused (hkinds a mem_cons_self) hresult hsystem, hspares⟩

theorem accounts_of_execute (hkinds : ∀ a ∈ actions, a.kind ≠ .removeKeys)
    (he : w.execute t actions = .ok e) : w.Accounts t actions e := by
  obtain ⟨hcompleted, hfailures, hspares⟩ := foldlM_step hkinds he
  rw [nil_append] at hcompleted hfailures
  refine ⟨hcompleted, hfailures, ?_, hspares⟩
  rw [Execution.failed, hcompleted, hfailures, length_map, length_filter_add,
    ← length_map, map_tried]

end Workplace

def unmarked {α : Type} (xs : List α) (marks : List Bool) : List α :=
  (xs.zip marks).filterMap fun x => if x.2 then none else some x.1

namespace Progress

variable {w : Workplace} {manifest : Manifest} {managed : ManagedDirs} {p : Progress}
  {report : TargetReport}

/-- Whether a target is passed over: nothing was generated for it, or it cannot be planned for a
reason that spares the other targets. -/
def passesOver (w : Workplace) (manifest : Manifest) (managed : ManagedDirs) (p : Progress)
    (report : TargetReport) : Bool :=
  match report.result with
  | none => true
  | some result =>
    match (p.context w manifest).plan report.target result.files (managed.of report.target) with
    | .error failure => (planningError? w.root failure).isSome
    | .ok _ => false

/-- Marks the targets that are passed over, one after the other. -/
def passed (w : Workplace) (manifest : Manifest) (managed : ManagedDirs) (p : Progress) :
    List TargetReport → List Bool
  | [] => []
  | report :: rest =>
    p.passesOver w manifest managed report ::
      match p.writeTarget w manifest managed report with
      | .ok p => passed w manifest managed p rest
      | .error _ => rest.map fun _ => false

/-- What becomes of a target that is passed over: if something was generated for it, it gets an
error, and in no case a plan. -/
def IsPassedOver (report done : TargetReport) : Prop :=
  (report.result = none ∧ done = report) ∨
    ∃ error, report.result ≠ none ∧ done = { report with error := some error }

/-- What becomes of a target by its mark. -/
def Becomes (marked : TargetReport × Bool) (done : TargetReport) : Prop :=
  if marked.2 then IsPassedOver marked.1 done
  else done.target = marked.1.target ∧ done.error = marked.1.error ∧ done.plan ≠ none

theorem foldl_note_done (more : List Action) (p : Progress) (done : List TargetReport) :
    more.foldl note { p with done } = { more.foldl note p with done } := by
  induction more generalizing p with
  | nil => rfl
  | cons a rest ih =>
    have hnote : note { p with done } a = { p.note a with done } := by
      unfold note
      split
      · rfl
      · split <;> rfl
    rw [foldl_cons, hnote, ih, foldl_cons]

theorem writeTarget_of_passesOver (h : p.passesOver w manifest managed report = true) :
    ∃ done, IsPassedOver report done ∧
      p.writeTarget w manifest managed report = .ok { p with done := p.done ++ [done] } := by
  unfold passesOver at h
  unfold writeTarget
  cases hresult : report.result with
  | none => exact ⟨report, .inl ⟨hresult, rfl⟩, rfl⟩
  | some result =>
    rw [hresult] at h
    dsimp only [context] at h ⊢
    cases hplan : PlanContext.plan ⟨w.root, p.tree, manifest, p.ledger⟩ report.target result.files
        (managed.of report.target) with
    | error failure =>
      rw [hplan] at h
      obtain ⟨error, herror⟩ := Option.isSome_iff_exists.mp h
      dsimp only
      rw [herror]
      exact ⟨_, .inr ⟨error, by simp [hresult], rfl⟩, by rw [hresult]⟩
    | ok plan =>
      rw [hplan] at h
      cases h

/-- What is done for a target that is not passed over has nothing to do with what has become of the
others. -/
theorem writeTarget_of_not_passesOver (h : p.passesOver w manifest managed report = false)
    (others : List TargetReport) :
    match p.writeTarget w manifest managed report with
    | .error halt =>
      writeTarget w manifest managed { p with done := others } report = .error halt
    | .ok p' => ∃ done, Becomes (report, false) done ∧ p'.done = p.done ++ [done] ∧
        writeTarget w manifest managed { p with done := others } report =
          .ok { p' with done := others ++ [done] } := by
  unfold passesOver at h
  unfold writeTarget
  cases hresult : report.result with
  | none =>
    rw [hresult] at h
    cases h
  | some result =>
    rw [hresult] at h
    dsimp only [context] at h ⊢
    cases hplan : PlanContext.plan ⟨w.root, p.tree, manifest, p.ledger⟩ report.target result.files
        (managed.of report.target) with
    | error failure =>
      rw [hplan] at h
      have hnone : planningError? w.root failure = none := by simpa using h
      dsimp only
      rw [hnone]
    | ok plan =>
      dsimp only
      cases w.execute p.tree plan.actions with
      | error halt => rfl
      | ok e =>
        let done : TargetReport := { report with
          result := some result
          plan := some plan
          applied := e.applied
          failed := e.failed
          failures := e.failures
          backups := e.backups }
        refine ⟨done, ⟨rfl, rfl, by simp [done]⟩, ?_, ?_⟩
        · exact (foldl_note_unchanged _ _).2.2
        exact congrArg Except.ok (foldl_note_done e.completed { p with
            tree := e.tree
            completed := p.completed ++ e.completed
            done := p.done ++ [done] } (others ++ [done]))

/-- Leaving out the targets that are passed over changes nothing but the list of what has become of
the targets. -/
theorem foldlM_unmarked (w : Workplace) (manifest : Manifest) (managed : ManagedDirs)
    (reports : List TargetReport) (p : Progress) (others : List TargetReport) :
    match reports.foldlM (writeTarget w manifest managed) p with
    | .error halt =>
      (unmarked reports (passed w manifest managed p reports)).foldlM
        (writeTarget w manifest managed) { p with done := others } = .error halt
    | .ok p' => ∃ done, p'.done = p.done ++ done ∧
        Forall₂ Becomes (reports.zip (passed w manifest managed p reports)) done ∧
        (unmarked reports (passed w manifest managed p reports)).foldlM
          (writeTarget w manifest managed) { p with done := others } =
          .ok { p' with
            done := others ++ unmarked done (passed w manifest managed p reports) } := by
  induction reports generalizing p others with
  | nil => exact ⟨[], (append_nil _).symm, .nil, by simp [unmarked, pure, Except.pure]⟩
  | cons report rest ih =>
    rw [passed, foldlM_cons]
    cases hover : p.passesOver w manifest managed report with
    | true =>
      obtain ⟨first, hfirst, hnext⟩ := writeTarget_of_passesOver hover
      have hrest := ih { p with done := p.done ++ [first] } others
      simp only [hnext, bind, Except.bind]
      cases hrun : rest.foldlM (writeTarget w manifest managed)
          { p with done := p.done ++ [first] } with
      | error halt =>
        rw [hrun] at hrest
        exact hrest
      | ok p' =>
        rw [hrun] at hrest
        obtain ⟨done, hdone, hbecomes, hothers⟩ := hrest
        refine ⟨first :: done, by simp [hdone],
          .cons (by simpa [Becomes] using hfirst) hbecomes, ?_⟩
        exact hothers
    | false =>
      have hnext := writeTarget_of_not_passesOver hover others
      cases hstep : p.writeTarget w manifest managed report with
      | error halt =>
        rw [hstep] at hnext
        rw [unmarked, zip_cons_cons, filterMap_cons]
        simp [bind, Except.bind, hnext]
      | ok p₁ =>
        rw [hstep] at hnext
        obtain ⟨first, hfirst, hdone₁, hothers₁⟩ := hnext
        have hrest := ih p₁ (others ++ [first])
        have hcons {α : Type} (x : α) (xs : List α) (marks : List Bool) :
            unmarked (x :: xs) (false :: marks) = x :: unmarked xs marks := rfl
        simp only [bind, Except.bind, hcons, foldlM_cons, hothers₁]
        cases hrun : rest.foldlM (writeTarget w manifest managed) p₁ with
        | error halt =>
          rw [hrun] at hrest
          exact hrest
        | ok p' =>
          rw [hrun] at hrest
          obtain ⟨done, hdone, hbecomes, hothers⟩ := hrest
          refine ⟨first :: done, by simp [hdone, hdone₁], .cons hfirst hbecomes, ?_⟩
          simpa [hcons] using hothers

end Progress

namespace Workplace

variable {w : Workplace} {t : FileTree} {reports : List TargetReport} {managed : ManagedDirs}

/-- Marks the targets that a build passes over. -/
def passedOver (w : Workplace) (t : FileTree) (reports : List TargetReport)
    (managed : ManagedDirs) : List Bool :=
  match Manifest.load t w.root with
  | .ok previous => Progress.passed w (previous.getD {}) managed { tree := t } reports
  | .error _ => reports.map fun _ => false

/-- A build does the same without the targets that it passes over, and counts the same. Only their
reports are missing. -/
theorem write_unmarked (w : Workplace) (t : FileTree) (reports : List TargetReport)
    (managed : ManagedDirs) :
    match w.write t reports managed with
    | .error halt =>
      w.write t (unmarked reports (w.passedOver t reports managed)) managed = .error halt
    | .ok (build, t') =>
      Forall₂ Progress.Becomes (reports.zip (w.passedOver t reports managed)) build.targets ∧
      ∃ others,
        w.write t (unmarked reports (w.passedOver t reports managed)) managed = .ok (others, t') ∧
        others.targets = unmarked build.targets (w.passedOver t reports managed) ∧
        others.written = build.written ∧ others.merged = build.merged ∧
        others.removed = build.removed := by
  unfold write passedOver
  cases hload : Manifest.load t w.root with
  | error failure => rfl
  | ok previous =>
    have hruns := Progress.foldlM_unmarked w (previous.getD {}) managed reports { tree := t } []
    dsimp only [Failure.orHalt, Except.mapError, bind, Except.bind, run]
    split at hruns
    · rename_i halt hhalt
      rw [hhalt, hruns]
    rename_i p hp
    obtain ⟨done, hdone, hbecomes, hothers⟩ := hruns
    obtain rfl : p.done = done := hdone
    rw [nil_append] at hothers
    generalize hrest : unmarked p.done _ = others at hothers
    have hmanifest : Progress.manifest { p with done := others } w.root previous =
        p.manifest w.root previous := rfl
    rw [hp, hothers]
    dsimp only
    rw [hmanifest]
    cases p.manifest w.root previous with
    | error failure => rfl
    | ok manifest =>
      dsimp only
      cases manifest.save p.tree w.root with
      | error halt => rfl
      | ok t' => exact ⟨hbecomes, _, rfl, hrest.symm, rfl, rfl, rfl⟩

end Workplace

end AgentConfig
