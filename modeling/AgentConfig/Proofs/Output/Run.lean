import AgentConfig.Output.Write
import AgentConfig.Proofs.Output.Plan

namespace AgentConfig

open List Outcome

variable {w : Workplace} {t : FileTree}

namespace Execution

variable {e e' : Execution} {a : Action}

theorem step_ok (hstep : Execution.step w e a = .ok e') : e'.tree = (w.perform e.tree a).tree ∧
      ((∃ changed, (w.perform e.tree a).result = .ok changed ∧
          e'.completed = e.completed ++ [a] ∧ e'.failures = e.failures) ∨
        ∃ fault, (w.perform e.tree a).result = .error fault ∧
          (∀ f, fault = .file f → f.isSystem = true) ∧
          e'.completed = e.completed ∧ e'.failures = e.failures ++ [w.faultText a fault]) := by
  unfold step at hstep
  dsimp only at hstep
  split at hstep
  · rename_i changed hresult
    cases hstep
    exact ⟨rfl, .inl ⟨changed, hresult, rfl, rfl⟩⟩
  · rename_i fault hresult
    split at hstep
    · rename_i hsystem
      cases hstep
      refine ⟨rfl, .inr ⟨_, hresult, ?_, rfl, rfl⟩⟩
      rintro f ⟨⟩
      exact hsystem
    · cases hstep
  · rename_i message hresult
    cases hstep
    exact ⟨rfl, .inr ⟨_, hresult, nofun, rfl, rfl⟩⟩
  · cases hstep

theorem step_error {halt : Halt} (hstep : Execution.step w e a = .error halt) :
    halt.tree = (w.perform e.tree a).tree ∧
      ∃ fault, (w.perform e.tree a).result = .error fault := by
  unfold step at hstep
  dsimp only at hstep
  split at hstep
  · cases hstep
  · rename_i fault hresult
    split at hstep
    · cases hstep
    · cases hstep
      exact ⟨rfl, _, hresult⟩
  · cases hstep
  · rename_i hresult
    cases hstep
    exact ⟨rfl, _, hresult⟩

end Execution

/-- What each action keeps, whatever becomes of it, holds when all have been tried. The three
parts of a step are an action that goes through, one that the file system refuses, and one that
ends the run. -/
theorem Workplace.execute_induct (keeps : Execution → List Action → Prop) (stops : FileTree → Prop)
    (hdone : ∀ {e a rest changed} {e' : Execution}, keeps e (a :: rest) →
      (w.perform e.tree a).result = .ok changed → e'.tree = (w.perform e.tree a).tree →
      e'.completed = e.completed ++ [a] → e'.failures = e.failures → keeps e' rest)
    (hrefused : ∀ {e a rest fault} {e' : Execution}, keeps e (a :: rest) →
      (w.perform e.tree a).result = .error fault → (∀ f, fault = .file f → f.isSystem = true) →
      e'.tree = (w.perform e.tree a).tree → e'.completed = e.completed →
      e'.failures = e.failures ++ [w.faultText a fault] → keeps e' rest)
    (hstop : ∀ {e a rest}, keeps e (a :: rest) → stops (w.perform e.tree a).tree)
    {actions : List Action} (hstart : keeps { tree := t } actions) :
    Yields (keeps · []) (fun halt => stops halt.tree) (w.execute t actions) := by
  refine foldlM_induct (Execution.step w) keeps (fun halt : Halt => stops halt.tree) ?_ hstart
  intro e a rest hkeeps
  cases hstep : Execution.step w e a with
  | ok e' =>
    obtain ⟨htree, ⟨changed, hresult, hcompleted, hfailures⟩ | ⟨fault, hresult, hsystem, hrest⟩⟩ :=
      Execution.step_ok hstep
    · exact hdone hkeeps hresult htree hcompleted hfailures
    · exact hrefused hkeeps hresult hsystem htree hrest.1 hrest.2
  | error halt =>
    show stops halt.tree
    rw [(Execution.step_error hstep).1]
    exact hstop hkeeps

theorem Workplace.execute_singleton {a : Action} {changed : Bool}
    (hresult : (w.perform t a).result = .ok changed) :
    ∃ e, w.execute t [a] = .ok e ∧ e.tree = (w.perform t a).tree ∧ e.failures = [] := by
  have hstep : ∃ e, Execution.step w { tree := t } a = .ok e ∧
      e.tree = (w.perform t a).tree ∧ e.failures = [] := by
    simp [Execution.step, hresult]
  obtain ⟨e, hstep, htree, hfailures⟩ := hstep
  exact ⟨e, bind_eq_ok.mpr ⟨e, hstep, rfl⟩, htree, hfailures⟩

section Keeps

variable {actions : List Action} {e : Execution}

/-- What each action of a plan keeps, of the tree and of the list of completed actions, holds when
the plan was carried out. -/
theorem Workplace.execute_keeps (keeps : FileTree → List Action → Prop) (hstart : keeps t [])
    (hdone : ∀ {u before a changed}, a ∈ actions → keeps u before →
      (w.perform u a).result = .ok changed → keeps (w.perform u a).tree (before ++ [a]))
    (hrefused : ∀ {u before a fault}, a ∈ actions → keeps u before →
      (w.perform u a).result = .error fault → (∀ f, fault = .file f → f.isSystem = true) →
      keeps (w.perform u a).tree before)
    (he : w.execute t actions = .ok e) : keeps e.tree e.completed := by
  have hend := execute_induct (w := w)
    (fun e pending => pending ⊆ actions ∧ keeps e.tree e.completed) (fun _ => True) ?_ ?_
    (fun _ => trivial) (t := t) ⟨Subset.refl actions, hstart⟩
  · rw [he] at hend
    exact hend.2
  · rintro e a rest changed e' ⟨hpending, hkept⟩ hresult htree hcompleted -
    rw [htree, hcompleted]
    exact ⟨subset_of_cons_subset hpending, hdone (hpending mem_cons_self) hkept hresult⟩
  · rintro e a rest fault e' ⟨hpending, hkept⟩ hresult hsystem htree hcompleted -
    rw [htree, hcompleted]
    exact ⟨subset_of_cons_subset hpending, hrefused (hpending mem_cons_self) hkept hresult hsystem⟩

theorem Workplace.execute_keeps_tree (keeps : FileTree → Prop) (hstart : keeps t)
    (hstep : ∀ {u a}, a ∈ actions → keeps u → keeps (w.perform u a).tree)
    (he : w.execute t actions = .ok e) : keeps e.tree :=
  execute_keeps (fun u _ => keeps u) hstart (fun ha hkept _ => hstep ha hkept)
    (fun ha hkept _ _ => hstep ha hkept) he

theorem Workplace.execute_completed (h : w.execute t actions = .ok e) :
    ∀ a ∈ e.completed, a ∈ actions := by
  refine execute_keeps (fun _ completed => ∀ a ∈ completed, a ∈ actions) nofun ?_
    (fun _ hall _ _ => hall) h
  intro u before a changed ha hall _ b hb
  rcases mem_append.mp hb with hb | hb
  · exact hall b hb
  · exact mem_singleton.mp hb ▸ ha

end Keeps

open AgentConfig.Action

variable {actions more : List Action} {path : Text} {a : Action} {p : Progress}

theorem Ledger.get?_record (l : Ledger) (a : Action) (path : Text) : (l.record a).get? path =
      if path = a.path then some
          { writer := a.target.getD ""
            content := a.payload <|> (l.get? a.path).bind (·.content)
            ownedKeys := a.ownedKeys <|> (l.get? a.path).bind (·.ownedKeys) }
      else l.get? path := by
  unfold get? record
  rw [lookup_cons]
  by_cases hpath : path = a.path
  · simp [hpath, get?]
  have hlookup : (l.filter fun e => e.1 != a.path).lookup path = l.lookup path := by
    induction l with
    | nil => rfl
    | cons e rest ih =>
      rw [filter_cons, lookup_cons]
      split
      · rw [lookup_cons, ih]
      rename_i hsame
      have hne : (path == e.1) = false := by
        simp only [bne_iff_ne, ne_eq, Decidable.not_not] at hsame
        simpa [hsame] using hpath
      rw [ih, hne]
  rw [beq_eq_false_iff_ne.mpr hpath, hlookup, if_neg hpath]

theorem Ledger.hasPath_record (l : Ledger) (a : Action) (path : Text) :
    (l.record a).hasPath path = (path == a.path || l.hasPath path) := by
  unfold hasPath
  rw [get?_record]
  by_cases hpath : path = a.path <;> simp [hpath]

/-- The last action in a list that leaves a generated file at a path. -/
def Action.lastWrite? (actions : List Action) (path : Text) : Option Action :=
  actions.reverse.find? fun a => a.kind.persists && a.path == path

/-- Some action in a list leaves a generated file at a path. -/
def Action.Wrote (actions : List Action) (path : Text) : Prop :=
  ∃ a ∈ actions, a.kind.persists = true ∧ a.path = path

/-- The paths of the files that a list of actions removes, in order. -/
def Action.removedBy (actions : List Action) : List Text :=
  (actions.filter (·.kind = .removeFile)).map (·.path)

theorem Action.lastWrite?_append (before after : List Action) (path : Text) :
    lastWrite? (before ++ after) path = (lastWrite? after path).or (lastWrite? before path) := by
  simp [lastWrite?]

theorem Action.lastWrite?_append_singleton (actions : List Action) (a : Action) (path : Text) :
    lastWrite? (actions ++ [a]) path =
      if a.kind.persists && a.path == path then some a else lastWrite? actions path := by
  simp only [lastWrite?, reverse_append, reverse_singleton, singleton_append, find?_cons]
  split <;> simp_all

theorem Action.lastWrite?_eq_some (h : lastWrite? actions path = some a) :
    a ∈ actions ∧ a.kind.persists = true ∧ a.path = path := by
  have hmem := mem_of_find?_eq_some h
  have hmatch := find?_some h
  simp only [Bool.and_eq_true, beq_iff_eq] at hmatch
  exact ⟨mem_reverse.mp hmem, hmatch⟩

theorem Action.isSome_lastWrite? :
    (lastWrite? actions path).isSome = true ↔ Wrote actions path := by
  simp [lastWrite?, Wrote, find?_isSome]

theorem Action.lastWrite?_eq_none_iff : lastWrite? actions path = none ↔ ¬ Wrote actions path := by
  rw [← isSome_lastWrite?, Option.not_isSome_iff_eq_none]

theorem Action.wrote_append_singleton : Wrote (actions ++ [a]) path ↔
      Wrote actions path ∨ (a.kind.persists = true ∧ a.path = path) := by
  simp [Wrote, or_and_right, exists_or]

theorem Action.Wrote.append (h : Wrote actions path) : Wrote (actions ++ more) path := by
  obtain ⟨a, ha, h⟩ := h
  exact ⟨a, mem_append_left _ ha, h⟩

/-- The ledger tells the last writer of each path, with what it wrote there. -/
def Ledger.Tells (l : Ledger) (actions : List Action) : Prop :=
  ∀ path a, Action.lastWrite? actions path = some a →
    ∃ e, l.get? path = some e ∧ e.writer = a.target.getD "" ∧
      (∀ text, a.payload = some text → e.content = some text) ∧
      ∀ keys, a.ownedKeys = some keys → e.ownedKeys = some keys

namespace Progress

variable {p p' : Progress} {report : TargetReport} {plan : Plan} {e : Execution}

/-- What a run has noted is what follows from a list of completed actions. -/
structure Tallies (p : Progress) (actions : List Action) : Prop where
  ledger : ∀ path, p.ledger.hasPath path = (lastWrite? actions path).isSome
  persisted : ∀ path, p.persisted.lookup path = lastWrite? actions path
  nodup : (p.persisted.map (·.1)).Nodup
  removed : p.removed = removedBy actions
  tells : p.ledger.Tells actions

theorem Tallies.start (t : FileTree) : Tallies { tree := t } [] :=
  ⟨fun _ => rfl, fun _ => rfl, .nil, rfl, nofun⟩

theorem Tallies.congr (h : p.Tallies actions) (hledger : p'.ledger = p.ledger)
    (hpersisted : p'.persisted = p.persisted) (hremoved : p'.removed = p.removed) :
    p'.Tallies actions :=
  ⟨hledger ▸ h.ledger, hpersisted ▸ h.persisted, hpersisted ▸ h.nodup, hremoved ▸ h.removed,
    hledger ▸ h.tells⟩

private theorem lookup_cons_eq (first path : Text) (b : Action) (rest : List (Text × Action)) :
    ((first, b) :: rest).lookup path = if first = path then some b else rest.lookup path := by
  rw [lookup_cons]
  by_cases hpath : first = path
  · simp [hpath]
  · simp [hpath, beq_eq_false_iff_ne.mpr (Ne.symm hpath)]

theorem lookup_putAction (a : Action) (noted : List (Text × Action)) (path : Text) :
    (putAction a noted).lookup path = if a.path = path then some a else noted.lookup path := by
  induction noted with
  | nil => exact lookup_cons_eq _ _ _ _
  | cons e rest ih =>
    obtain ⟨first, b⟩ := e
    unfold putAction
    split
    · rename_i hfirst
      rw [lookup_cons_eq, lookup_cons_eq, hfirst]
      split <;> rfl
    rename_i hfirst
    rw [lookup_cons_eq, ih, lookup_cons_eq]
    by_cases hpath : first = path
    · subst hpath
      simp [Ne.symm hfirst]
    · simp [hpath]

theorem map_putAction (a : Action) (noted : List (Text × Action)) : (putAction a noted).map (·.1) =
      if a.path ∈ noted.map (·.1) then noted.map (·.1) else noted.map (·.1) ++ [a.path] := by
  induction noted with
  | nil => simp [putAction]
  | cons e rest ih =>
    unfold putAction
    split
    · rename_i hfirst
      simp [hfirst]
    rename_i hfirst
    rw [map_cons, ih]
    by_cases hmem : a.path ∈ rest.map (·.1)
    · simp [hmem]
    · simp [hmem, Ne.symm hfirst]

theorem tells_record {l : Ledger} (h : l.Tells actions) (hpersists : a.kind.persists = true) :
    (l.record a).Tells (actions ++ [a]) := by
  intro path b hlast
  simp only [lastWrite?_append_singleton, hpersists, Bool.true_and, beq_iff_eq] at hlast
  rw [Ledger.get?_record]
  split at hlast
  · rename_i hpath
    cases hlast
    exact ⟨_, if_pos hpath.symm, rfl, fun text htext => by simp [htext],
      fun keys hkeys => by simp [hkeys]⟩
  · rw [if_neg (Ne.symm ‹_›)]
    exact h path b hlast

theorem Tallies.note (h : p.Tallies actions) (a : Action) :
    (p.note a).Tallies (actions ++ [a]) := by
  unfold Progress.note
  by_cases hpersists : a.kind.persists = true
  · rw [if_pos hpersists]
    refine ⟨?_, ?_, ?_, ?_, tells_record h.tells hpersists⟩
    · intro path
      rw [Ledger.hasPath_record, h.ledger, lastWrite?_append_singleton, hpersists]
      by_cases hpath : a.path = path
      · simp [hpath]
      · simp [hpath, Ne.symm hpath]
    · intro path
      rw [lookup_putAction, h.persisted, lastWrite?_append_singleton, hpersists]
      simp
    · rw [map_putAction]
      split
      · exact h.nodup
      rename_i hnew
      exact nodup_append.mpr ⟨h.nodup, by simp, by
        rintro x hx y hy rfl
        exact hnew (mem_singleton.mp hy ▸ hx)⟩
    · have hkind : a.kind ≠ .removeFile := by
        intro hkind
        simp [hkind, ActionKind.persists] at hpersists
      simp [h.removed, removedBy, hkind]
  · rw [if_neg hpersists]
    have hlast (path : Text) :
        lastWrite? (actions ++ [a]) path = lastWrite? actions path := by
      rw [lastWrite?_append_singleton]
      simp [hpersists]
    split
    all_goals
      rename_i hkind
      refine ⟨?_, ?_, h.nodup, ?_, ?_⟩
      · exact fun path => by rw [hlast, ← h.ledger]
      · exact fun path => by rw [hlast, ← h.persisted]
      · simp [h.removed, removedBy, hkind]
      · exact fun path b hb => h.tells path b (hlast path ▸ hb)

theorem Tallies.foldl_note (h : p.Tallies actions)
    (more : List Action) : (more.foldl Progress.note p).Tallies (actions ++ more) := by
  induction more generalizing p actions with
  | nil => simpa using h
  | cons a rest ih => simpa using ih (h.note a)

theorem foldl_note_unchanged (p : Progress) (more : List Action) :
    (more.foldl Progress.note p).tree = p.tree ∧
      (more.foldl Progress.note p).completed = p.completed ∧
      (more.foldl Progress.note p).done = p.done := by
  induction more generalizing p with
  | nil => exact ⟨rfl, rfl, rfl⟩
  | cons a rest ih =>
    obtain ⟨htree, hcompleted, hdone⟩ := ih (p.note a)
    rw [foldl_cons, htree, hcompleted, hdone]
    unfold Progress.note
    split
    · exact ⟨rfl, rfl, rfl⟩
    · split <;> exact ⟨rfl, rfl, rfl⟩

/-- What the planning of the next target sees. -/
def context (w : Workplace) (manifest : Manifest) (p : Progress) : PlanContext :=
  ⟨w.root, p.tree, manifest, p.ledger⟩

/-- The plan of the next target is made, for the files that were generated for it. -/
def PlansNext (w : Workplace) (manifest : Manifest) (managed : ManagedDirs) (p : Progress)
    (report : TargetReport) (plan : Plan) : Prop :=
  ∃ result, report.result = some result ∧
    (p.context w manifest).plan report.target result.files (managed.of report.target) = .ok plan

def reportOf (report : TargetReport) (plan : Plan) (e : Execution) : TargetReport :=
  { report with
    plan := some plan
    applied := e.applied
    failed := e.failed
    failures := e.failures
    backups := e.backups }

def after (p : Progress) (report : TargetReport) (plan : Plan) (e : Execution) : Progress :=
  e.completed.foldl note { p with
      tree := e.tree
      completed := p.completed ++ e.completed
      done := p.done ++ [reportOf report plan e] }

theorem after_unchanged (p : Progress) (report : TargetReport) (plan : Plan) (e : Execution) :
    (p.after report plan e).tree = e.tree ∧
      (p.after report plan e).completed = p.completed ++ e.completed ∧
      (p.after report plan e).done = p.done ++ [reportOf report plan e] :=
  foldl_note_unchanged _ _

theorem Tallies.after (h : p.Tallies actions) :
    (p.after report plan e).Tallies (actions ++ e.completed) := by
  refine Tallies.foldl_note ?_ e.completed
  exact h.congr rfl rfl rfl

theorem writeTarget_of_plans {w : Workplace} {manifest : Manifest} {managed : ManagedDirs}
    (h : p.PlansNext w manifest managed report plan) : writeTarget w manifest managed p report =
      (w.execute p.tree plan.actions).map (p.after report plan) := by
  obtain ⟨result, hresult, hplan⟩ := h
  unfold writeTarget
  split
  · cases hresult.symm.trans ‹_›
  · cases hresult.symm.trans ‹_›
    rw [context] at hplan
    simp only [hplan]
    cases w.execute p.tree plan.actions <;> rfl

/-- One more target has its plan carried out, or the run goes on or ends without any change. -/
theorem writeTarget_cases (w : Workplace) (manifest : Manifest) (managed : ManagedDirs)
    (p : Progress) (report : TargetReport) :
    (∃ plan, p.PlansNext w manifest managed report plan ∧
      writeTarget w manifest managed p report =
        (w.execute p.tree plan.actions).map (p.after report plan)) ∨
    (∃ failure, writeTarget w manifest managed p report = .error ⟨failure, p.tree⟩) ∨
    (∃ done, writeTarget w manifest managed p report = .ok { p with done := p.done ++ [done] } ∧
      (report.result = none ∧ done = report ∨ done.ok = false) ∧
      ∀ plan, ¬ p.PlansNext w manifest managed report plan) := by
  by_cases hplans : ∃ plan, p.PlansNext w manifest managed report plan
  · obtain ⟨plan, hplan⟩ := hplans
    exact .inl ⟨plan, hplan, writeTarget_of_plans hplan⟩
  right
  unfold writeTarget
  split
  · exact .inr ⟨report, rfl, .inl ⟨‹_›, rfl⟩, not_exists.mp hplans⟩
  rename_i result hresult
  dsimp only
  split
  · split
    · exact .inr ⟨_, rfl, .inr rfl, not_exists.mp hplans⟩
    · exact .inl ⟨_, rfl⟩
  · exact absurd ⟨_, result, hresult, ‹_›⟩ hplans

end Progress

namespace Workplace

variable {w : Workplace} {previous : Option Manifest} {t : FileTree} {reports : List TargetReport}
  {managed : ManagedDirs}

/-- The run comes as far as the report with the progress `p`, and plans it. -/
structure Planned (w : Workplace) (previous : Option Manifest) (t : FileTree)
    (reports : List TargetReport) (managed : ManagedDirs) (report : TargetReport) (p : Progress)
    (plan : Plan) : Prop where
  reached : ∃ before after, reports = before ++ report :: after ∧
    w.run previous t before managed = .ok p
  plans : p.PlansNext w (previous.getD {}) managed report plan

theorem run_induct_targets (keeps : List TargetReport → Progress → Prop) (stops : FileTree → Prop)
    (hstart : keeps [] { tree := t })
    (hstep : ∀ {before report after p}, reports = before ++ report :: after →
      w.run previous t before managed = .ok p → keeps before p →
      Yields (keeps (before ++ [report])) (fun halt => stops halt.tree)
        (p.writeTarget w (previous.getD {}) managed report)) :
    Yields (keeps reports) (fun halt => stops halt.tree) (w.run previous t reports managed) := by
  have hrun := foldlM_induct (Progress.writeTarget w (previous.getD {}) managed)
    (fun p rest => ∃ before, reports = before ++ rest ∧
      w.run previous t before managed = .ok p ∧ keeps before p)
    (fun halt : Halt => stops halt.tree) ?_ ⟨[], rfl, rfl, hstart⟩
  · refine hrun.imp (fun p ⟨before, hreports, _, hkeeps⟩ => ?_) fun _ h => h
    rw [append_nil] at hreports
    rwa [hreports]
  · rintro p report rest ⟨before, hreports, hbefore, hkeeps⟩
    have hkept := hstep hreports hbefore hkeeps
    cases hnext : p.writeTarget w (previous.getD {}) managed report with
    | error halt =>
      rw [hnext] at hkept
      exact hkept
    | ok p' =>
      rw [hnext] at hkept
      refine ⟨before ++ [report], by simp [hreports], ?_, hkept⟩
      unfold run at hbefore ⊢
      rw [foldlM_append, hbefore]
      simp [bind, Except.bind, hnext, pure, Except.pure]

/-- What every planned target keeps, of the tree and of the list of completed actions, holds at the
end of a run. -/
theorem run_induct (keeps : FileTree → List Action → Prop) (stops : FileTree → Prop)
    (hstart : keeps t []) (hstop : ∀ {u actions}, keeps u actions → stops u)
    (hplan : ∀ {report p plan}, w.Planned previous t reports managed report p plan →
      p.Tallies p.completed → keeps p.tree p.completed →
      Yields (fun e => keeps e.tree (p.completed ++ e.completed))
        (fun halt => stops halt.tree) (w.execute p.tree plan.actions)) :
    Yields (fun p => p.Tallies p.completed ∧ keeps p.tree p.completed)
      (fun halt => stops halt.tree) (w.run previous t reports managed) := by
  refine run_induct_targets (fun _ p => p.Tallies p.completed ∧ keeps p.tree p.completed) stops
    ⟨.start t, hstart⟩ ?_
  rintro before report after p hreports hbefore ⟨htallies, hkeeps⟩
  rcases Progress.writeTarget_cases w (previous.getD {}) managed p report with
    ⟨plan, hplans, hcase⟩ | ⟨failure, hhalt⟩ | ⟨done, hskip, -⟩
  · have hkept := hplan ⟨⟨before, after, hreports, hbefore⟩, hplans⟩ htallies hkeeps
    rw [hcase]
    refine (hkept.imp (fun e hkept => ?_) fun _ h => h).map
    obtain ⟨htree, hcompleted, -⟩ := p.after_unchanged report plan e
    rw [htree, hcompleted]
    exact ⟨htallies.after, hkept⟩
  · rw [hhalt]
    exact hstop hkeeps
  · rw [hskip]
    exact ⟨htallies.congr rfl rfl rfl, hkeeps⟩

theorem run_keeps (keeps : FileTree → List Action → Prop) (hstart : keeps t [])
    (hplan : ∀ {report q plan e}, w.Planned previous t reports managed report q plan →
      q.Tallies q.completed → keeps q.tree q.completed →
      w.execute q.tree plan.actions = .ok e → keeps e.tree (q.completed ++ e.completed))
    (hrun : w.run previous t reports managed = .ok p) :
    p.Tallies p.completed ∧ keeps p.tree p.completed := by
  have hend : Yields (fun p => p.Tallies p.completed ∧ keeps p.tree p.completed)
      (fun _ => True) (w.run previous t reports managed) := by
    refine run_induct keeps (fun _ => True) hstart (fun _ => trivial) ?_
    intro report q plan hplanned htallies hkeeps
    cases he : w.execute q.tree plan.actions with
    | error halt => trivial
    | ok e => exact hplan hplanned htallies hkeeps he
  rw [hrun] at hend
  exact hend

theorem run_tallies (hrun : w.run previous t reports managed = .ok p) : p.Tallies p.completed :=
  (run_keeps (fun _ _ => True) trivial (fun _ _ _ _ => trivial) hrun).1

theorem run_tells (hrun : w.run previous t reports managed = .ok p) : p.ledger.Tells p.completed :=
  (run_tallies hrun).tells

end Workplace

end AgentConfig
