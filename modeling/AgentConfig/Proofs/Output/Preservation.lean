import AgentConfig.Proofs.Output.Sound

namespace AgentConfig

open List AgentConfig.Action PlanContext AgentConfig.Path

variable {bytes x y : ByteArray} {as bs place : List Text} {path text : Text} {w : Workplace}

/-- Why the bytes of a file need no copy: the manifest records them, or it does not know the file
and they bear the marker, or they are the text that is planned for the file. -/
def Manifest.Excuses (m : Manifest) (planned : Text → Text → Prop) (path : Text)
    (bytes : ByteArray) : Prop :=
  (∃ e, m.get? path = some e ∧ e.checksum = Digest.sha256 bytes) ∨
  (m.get? path = none ∧ ∃ text, Text.readText bytes = .ok text ∧ Marker.has path text = true) ∨
  ∃ text, Text.readText bytes = .ok text ∧ planned path text

namespace Workplace

/-- A copy of a file with these bytes is kept. -/
def HasCopy (w : Workplace) (names : List Text) (bytes : ByteArray) (t : FileTree) : Prop :=
  ∃ place, w.IsCopyPlace names place ∧ t.bytesAt place = some bytes

theorem IsCopyPlace.nested (ha : w.IsCopyPlace as place) (hb : w.IsCopyPlace bs place) :
    as = bs ∨ (∃ name, as = bs ++ [name]) ∨ ∃ name, bs = as ++ [name] := by
  rcases ha with rfl | ⟨name, _, rfl⟩
  · rcases hb with h | ⟨other, _, h⟩
    · exact .inl (append_cancel_left h)
    · rw [append_assoc] at h
      exact .inr (.inl ⟨other, append_cancel_left h⟩)
  · rcases hb with h | ⟨other, _, h⟩
    · rw [append_assoc] at h
      exact .inr (.inr ⟨name, (append_cancel_left h).symm⟩)
    · rw [append_assoc, append_assoc] at h
      exact .inl (append_inj_left' (append_cancel_left h) rfl)

theorem IsCopyPlace.unique {t : FileTree} (ht : t.WellFormed) (ha : w.IsCopyPlace as place)
    (hb : w.IsCopyPlace bs place) (hx : t.bytesAt (w.root ++ as) = some x)
    (hy : t.bytesAt (w.root ++ bs) = some y) : as = bs := by
  have hbelow {names : List Text} {name : Text} {bytes bytes' : ByteArray}
      (hfile : t.bytesAt (w.root ++ names) = some bytes)
      (hinner : t.bytesAt (w.root ++ (names ++ [name])) = some bytes') : False := by
    rw [FileTree.bytesAt_eq_some_iff] at hfile hinner
    rw [← append_assoc, ht.get?_below_file hfile (by simp)] at hinner
    cases hinner
  rcases ha.nested hb with h | ⟨name, rfl⟩ | ⟨name, rfl⟩
  · exact h
  · exact (hbelow hy hx).elim
  · exact (hbelow hx hy).elim

variable {w : Workplace} {excused : Text → ByteArray → Prop} {t₀ t : FileTree}
  {actions before more : List Action} {a b : Action} {names place : List Text}

/-- The files that were there at first are unchanged, excused or copied. -/
structure Survives (w : Workplace) (excused : Text → ByteArray → Prop) (t₀ t : FileTree) :
    Prop where
  wellFormed : t.WellFormed
  inside : ∀ {names}, ¬ IsOutside names → ¬ IsBelowCopies names →
    t.bytesAt (w.root ++ names) = t₀.bytesAt (w.root ++ names)
  safe : ∀ {names bytes}, IsOutside names → t₀.bytesAt (w.root ++ names) = some bytes →
    t.bytesAt (w.root ++ names) = some bytes ∨ excused (relative names) bytes ∨
      w.HasCopy names bytes t

/-- What holds between the actions of a run: besides, a file that the run has not written is one of
those that were there at first, and one that it has written is secure. -/
structure Keeps (w : Workplace) (excused : Text → ByteArray → Prop) (t₀ t : FileTree)
    (actions : List Action) : Prop extends Survives w excused t₀ t where
  root : t.bytesAt w.root = none
  own : ∀ {names bytes}, IsOutside names → t.bytesAt (w.root ++ names) = some bytes →
    Wrote actions (relative names) ∨ t₀.bytesAt (w.root ++ names) = some bytes
  settled : ∀ {names bytes}, IsOutside names → t₀.bytesAt (w.root ++ names) = some bytes →
    Wrote actions (relative names) →
    excused (relative names) bytes ∨ w.HasCopy names bytes t

/-- An action that may be taken next: it copies only what the run has not written, and where that
stands it copies it or has an excuse. -/
structure Ready (w : Workplace) (excused : Text → ByteArray → Prop) (t : FileTree)
    (actions : List Action) (a : Action) (names : List Text) : Prop where
  leads : Path.Leads a.path names
  outside : IsOutside names
  kind : a.kind ≠ .removeKeys
  fresh : a.backup = true → ¬ Wrote actions a.path
  guards : ¬ Wrote actions a.path → ∀ {bytes}, t.bytesAt (w.root ++ names) = some bytes →
    (a.status = .noop ∧ excused a.path bytes) ∨
      (a.status ≠ .noop ∧ (a.backup = true ∨ excused a.path bytes))

section Step

variable (hw : w.IsProper) (ht₀ : t₀.WellFormed) (hkeeps : Keeps w excused t₀ t actions)
  (hready : Ready w excused t actions a names) {others : List Text}
include hw hkeeps hready

theorem Keeps.effect : w.Effect names a.backup t (w.perform t a).tree :=
  perform_effect hw hkeeps.wellFormed hready.leads hready.outside hready.kind

include ht₀ in
theorem Keeps.hasCopy (hfile : t₀.bytesAt (w.root ++ others) = some bytes)
    (hcopy : w.HasCopy others bytes t) : w.HasCopy others bytes (w.perform t a).tree := by
  obtain ⟨place, hplace, hbytes⟩ := hcopy
  have heffect := hkeeps.effect hw hready
  refine ⟨place, hplace, ?_⟩
  by_cases hshared : w.IsCopyPlace names place
  · rcases heffect.copies hshared with h | ⟨hbackup, copied, hcopied, h⟩
    · rw [h, hbytes]
    have hfresh : ¬ Wrote actions (relative names) :=
      hready.leads.path_eq ▸ hready.fresh hbackup
    have hold := (hkeeps.own hready.outside hcopied).resolve_left hfresh
    obtain rfl := hplace.unique ht₀ hshared hfile hold
    rw [h, ← hold, hfile]
  · rw [heffect.elsewhere (hready.outside.ne_copyPlace hplace).symm hshared, hbytes]

include ht₀ in
theorem Keeps.survives : Survives w excused t₀ (w.perform t a).tree := by
  have heffect := hkeeps.effect hw hready
  refine ⟨heffect.wellFormed, ?_, ?_⟩
  · intro others hin hcopies
    rw [heffect.bytesAt_inside hready.outside hin hcopies, hkeeps.inside hin hcopies]
  intro others bytes hout hfile
  rcases hkeeps.safe hout hfile with hsame | hexcused | hcopy
  · by_cases hothers : others = names
    · subst hothers
      rw [← hready.leads.path_eq]
      by_cases hwrote : Wrote actions a.path
      · rcases hkeeps.settled hout hfile (hready.leads.path_eq ▸ hwrote) with h | h
        · exact .inr (.inl (hready.leads.path_eq ▸ h))
        · exact .inr (.inr (hkeeps.hasCopy hw ht₀ hready hfile h))
      · rcases hready.guards hwrote hsame with ⟨_, h⟩ | ⟨_, hbackup | h⟩
        · exact .inr (.inl h)
        · exact (heffect.kept hbackup hsame).imp_right .inr
        · exact .inr (.inl h)
    · exact .inl (by rw [heffect.bytesAt_other hout hothers, hsame])
  · exact .inr (.inl hexcused)
  · exact .inr (.inr (hkeeps.hasCopy hw ht₀ hready hfile hcopy))

include ht₀ in
theorem Keeps.refused {fault : ActionFault} (hresult : (w.perform t a).result = .error fault)
    (hsystem : ∀ f, fault = .file f → f.isSystem = true) :
    Keeps w excused t₀ (w.perform t a).tree actions := by
  have hroot := (hkeeps.effect hw hready).bytesAt_root hready.leads.ne_nil
  refine ⟨hkeeps.survives hw ht₀ hready, hroot.trans hkeeps.root, ?_, ?_⟩
  · intro others bytes hout hbytes
    have hsame : (w.perform t a).tree.bytesAt (w.root ++ others) =
        t.bytesAt (w.root ++ others) := by
      by_cases hothers : others = names
      · subst hothers
        exact perform_failed hw hkeeps.wellFormed hready.leads hout hready.kind hresult hsystem
      · exact (hkeeps.effect hw hready).bytesAt_other hout hothers
    exact hkeeps.own hout (hsame ▸ hbytes)
  · intro others bytes hout hfile hwrote
    exact (hkeeps.settled hout hfile hwrote).imp_right (hkeeps.hasCopy hw ht₀ hready hfile)

include ht₀ in
theorem Keeps.done {changed : Bool} (hresult : (w.perform t a).result = .ok changed) :
    Keeps w excused t₀ (w.perform t a).tree (actions ++ [a]) := by
  have hroot := (hkeeps.effect hw hready).bytesAt_root hready.leads.ne_nil
  refine ⟨hkeeps.survives hw ht₀ hready, hroot.trans hkeeps.root, ?_, ?_⟩
  · intro others bytes hout hbytes
    by_cases hothers : others = names
    · subst hothers
      rcases persists_or_removeFile hready.kind with hpersists | hremove
      · exact .inl ⟨a, by simp, hpersists, hready.leads.path_eq⟩
      · rw [perform_of_removeFile hremove] at hresult hbytes
        rw [performRemoval_completed hw hkeeps.wellFormed hready.leads hresult] at hbytes
        cases hbytes
    · rw [(hkeeps.effect hw hready).bytesAt_other hout hothers] at hbytes
      exact (hkeeps.own hout hbytes).imp_left Wrote.append
  · intro others bytes hout hfile hwrote
    rcases wrote_append_singleton.mp hwrote with hbefore | ⟨_, hpath⟩
    · exact (hkeeps.settled hout hfile hbefore).imp_right (hkeeps.hasCopy hw ht₀ hready hfile)
    have hproper : Path.AreProper others :=
      ht₀.areProper_below (FileTree.bytesAt_eq_some_iff.mp hfile)
    obtain rfl : others = names := Path.relative_injective hproper hready.leads.proper
      (hpath.symm.trans hready.leads.path_eq)
    rcases hkeeps.safe hout hfile with hsame | hexcused | hcopy
    · rw [← hpath]
      by_cases hbefore : Wrote actions a.path
      · exact (hkeeps.settled hout hfile (hpath ▸ hbefore)).imp (hpath ▸ ·)
          (hkeeps.hasCopy hw ht₀ hready hfile)
      rcases hready.guards hbefore hsame with ⟨_, h⟩ | ⟨hstatus, hbackup | h⟩
      · exact .inl h
      · exact .inr (perform_copied hw hkeeps.wellFormed hready.leads hout hready.kind hstatus
          hbackup hresult hsame)
      · exact .inl h
    · exact .inl hexcused
    · exact .inr (hkeeps.hasCopy hw ht₀ hready hfile hcopy)

theorem Ready.later (hlater : Ready w excused t actions b others)
    (hmore : ∀ path, Wrote more path →
      Wrote actions path ∨ (a.kind.persists = true ∧ a.path = path))
    (hless : ∀ path, Wrote actions path → Wrote more path)
    (horder : a.kind.persists = true → a.path ≠ b.path) :
    Ready w excused (w.perform t a).tree more b others := by
  have hwrote (h : Wrote more b.path) : Wrote actions b.path :=
    (hmore _ h).resolve_right fun h => horder h.1 h.2
  refine ⟨hlater.leads, hlater.outside, hlater.kind, ?_, ?_⟩
  · exact fun hbackup h => hlater.fresh hbackup (hwrote h)
  intro hfresh bytes hbytes
  refine hlater.guards (fun h => hfresh (hless _ h)) ?_
  by_cases hothers : others = names
  · subst hothers
    have hremove := (persists_or_removeFile hready.kind).resolve_left fun h =>
      horder h (hready.leads.unique hlater.leads)
    rw [perform_of_removeFile hremove] at hbytes
    exact performRemoval_shrinks hw hkeeps.wellFormed hready.leads hready.outside hbytes
  · rw [← (hkeeps.effect hw hready).bytesAt_other hlater.outside hothers, hbytes]

end Step

/-- Actions that are ready, none of them after one that writes its path, are carried out without a
loss. -/
theorem Keeps.execute (hw : w.IsProper) (ht₀ : t₀.WellFormed) (hkeeps : Keeps w excused t₀ t before)
    (hready : ∀ a ∈ actions, ∃ names, Ready w excused t before a names)
    (horder : actions.Pairwise fun a b => a.kind.persists = true → a.path ≠ b.path) :
    Outcome.Yields (fun e => Keeps w excused t₀ e.tree (before ++ e.completed))
      (fun halt => Survives w excused t₀ halt.tree) (w.execute t actions) := by
  have hrun := execute_induct (w := w)
    (fun e pending => Keeps w excused t₀ e.tree (before ++ e.completed) ∧
      (∀ a ∈ pending, ∃ names, Ready w excused e.tree (before ++ e.completed) a names) ∧
      pending.Pairwise fun a b => a.kind.persists = true → a.path ≠ b.path)
    (Survives w excused t₀) ?_ ?_ ?_ ⟨by simpa using hkeeps, by simpa using hready, horder⟩
  · exact hrun.imp (fun _ h => h.1) fun _ h => h
  · rintro e a rest changed e' ⟨hkeeps, hready, horder⟩ hresult htree hcompleted -
    obtain ⟨names, ha⟩ := hready a mem_cons_self
    rw [pairwise_cons] at horder
    rw [htree, hcompleted, ← append_assoc]
    refine ⟨hkeeps.done hw ht₀ ha hresult, ?_, horder.2⟩
    intro b hb
    obtain ⟨others, hlater⟩ := hready b (mem_cons_of_mem _ hb)
    exact ⟨others, Ready.later hw hkeeps ha hlater
      (fun _ => wrote_append_singleton.mp) (fun _ => Wrote.append) (horder.1 b hb)⟩
  · rintro e a rest fault e' ⟨hkeeps, hready, horder⟩ hresult hsystem htree hcompleted -
    obtain ⟨names, ha⟩ := hready a mem_cons_self
    rw [pairwise_cons] at horder
    rw [htree, hcompleted]
    refine ⟨hkeeps.refused hw ht₀ ha hresult hsystem, ?_, horder.2⟩
    intro b hb
    obtain ⟨others, hlater⟩ := hready b (mem_cons_of_mem _ hb)
    exact ⟨others, Ready.later hw hkeeps ha hlater (fun _ => .inl) (fun _ h => h) (horder.1 b hb)⟩
  · rintro e a rest ⟨hkeeps, hready, -⟩
    obtain ⟨names, ha⟩ := hready a mem_cons_self
    exact hkeeps.survives hw ht₀ ha

section Run

variable {previous : Option Manifest} {reports : List TargetReport} {managed : ManagedDirs}
  {report : TargetReport} {p : Progress} {plan : Plan} {bytes : ByteArray}

/-- Some target of the run plans the text as the content of the path. -/
def Wants (w : Workplace) (previous : Option Manifest) (t : FileTree)
    (reports : List TargetReport) (managed : ManagedDirs) (path text : Text) : Prop :=
  ∃ report p plan, w.Planned previous t reports managed report p plan ∧
    ∃ a ∈ plan.actions, a.path = path ∧ a.payload = some text

/-- The reasons of a run to do without a copy. -/
def Excuses (w : Workplace) (previous : Option Manifest) (t : FileTree)
    (reports : List TargetReport) (managed : ManagedDirs) : Text → ByteArray → Prop :=
  (previous.getD {}).Excuses (w.Wants previous t reports managed)

theorem Keeps.ready (h : Setting w reports managed)
    (hplanned : w.Planned previous t₀ reports managed report p plan)
    (htallies : p.Tallies p.completed)
    (hkeeps : Keeps w (w.Excuses previous t₀ reports managed) t₀ p.tree p.completed)
    (ha : a ∈ plan.actions) :
    ∃ names, Ready w (w.Excuses previous t₀ reports managed) p.tree p.completed a names := by
  obtain ⟨result, -, -, hresult, -, -, -, hall⟩ :=
    h.plan_inv hplanned hkeeps.wellFormed hkeeps.root
  obtain ⟨names, hout, hplans⟩ := hall a ha
  have hledger := hasPath_eq_false_iff htallies a.path
  refine ⟨names, hplans.leads, hout, hplans.kind_ne, ?_, ?_⟩
  · intro hbackup
    rw [← hledger]
    cases hplans with
    | write _ _ hplan => exact hplan.path_eq ▸ hplan.copies_fresh hbackup
    | removal hplan => exact hplan.not_written
  · intro hfresh bytes hbytes
    rw [FileTree.bytesAt_eq_some_iff] at hbytes
    cases hplans with
    | write hmem hleads hplan =>
      have hmatch := hplan.respects hkeeps.wellFormed h.proper.root hleads (hledger.mpr hfresh)
      simp only [Progress.context, hbytes] at hmatch
      obtain ⟨text, htext⟩ := hplan.payload
      rcases hmatch with
        ⟨hnoop, hsame⟩ | ⟨hstatus, hbackup | hrecorded | ⟨hunknown, marked, hmarked⟩⟩
      · refine .inl ⟨hnoop, .inr (.inr ⟨text, ?_, report, p, plan, hplanned, a, ha, rfl, htext⟩)⟩
        exact FileEntry.text?_eq_some_iff.mp (hsame.trans htext)
      · exact .inr ⟨hstatus, .inl hbackup⟩
      · exact .inr ⟨hstatus, .inr (.inl (isAsRecorded_iff.mp hrecorded))⟩
      · refine .inr ⟨hstatus, .inr (.inr (.inl ⟨hunknown, marked, ?_, hmarked.2⟩))⟩
        exact FileEntry.text?_eq_some_iff.mp hmarked.1
    | removal hplan =>
      obtain rfl : bytes = _ :=
        FileEntry.file.inj (Option.some.inj (hbytes.symm.trans hplan.get?_eq))
      refine .inr ⟨by rw [hplan.action_eq]; simp [planRemoval], ?_⟩
      by_cases hrecorded : (p.context w (previous.getD {})).isAsRecorded a.path (.file bytes) = true
      · exact .inr (.inl (isAsRecorded_iff.mp hrecorded))
      · exact .inl (by rw [hplan.action_eq]; simpa [planRemoval] using hrecorded)

theorem run_survives (previous : Option Manifest) (h : Setting w reports managed)
    (hdistinct : ∀ report ∈ reports, report.HasDistinctPaths) (ht₀ : t₀.WellFormed)
    (hroot : t₀.bytesAt w.root = none) :
    Outcome.Yields (fun p => Survives w (w.Excuses previous t₀ reports managed) t₀ p.tree)
      (fun halt => Survives w (w.Excuses previous t₀ reports managed) t₀ halt.tree)
      (w.run previous t₀ reports managed) := by
  refine (run_induct (Keeps w (w.Excuses previous t₀ reports managed) t₀)
    (Survives w (w.Excuses previous t₀ reports managed) t₀) ?_ ?_ ?_).imp
      (fun _ hp => hp.2.toSurvives) fun _ hhalt => hhalt
  · refine ⟨⟨ht₀, fun _ _ => rfl, fun _ => .inl⟩, hroot, fun _ => .inr, ?_⟩
    rintro names bytes - - ⟨a, ha, -⟩
    cases ha
  · exact fun hkeeps => hkeeps.toSurvives
  · intro report p plan hplanned htallies hkeeps
    exact hkeeps.execute h.proper ht₀ (fun a ha => hkeeps.ready h hplanned htallies ha)
      (h.plan_pairwise hplanned hkeeps.wellFormed hkeeps.root (hdistinct report hplanned.mem))

theorem Survives.excused_or_hasCopy (h : Survives w excused t₀ t)
    (hfile : t₀.bytesAt (w.root ++ names) = some bytes) (hcopies : ¬ IsBelowCopies names)
    (hchanged : t.bytesAt (w.root ++ names) ≠ some bytes) :
    excused (relative names) bytes ∨ w.HasCopy names bytes t := by
  by_cases hout : IsOutside names
  · exact (h.safe hout hfile).resolve_left hchanged
  · exact absurd (h.inside hout hcopies ▸ hfile) hchanged

theorem IsCopyPlace.ne_manifest (hplace : w.IsCopyPlace names place) :
    place ≠ w.root ++ Manifest.names := by
  rintro rfl
  have hbelow : ¬ IsBelowCopies Manifest.names := by decide +kernel
  exact hbelow hplace.isBelowCopies

/-- No file is lost by a build, whether or not it comes to its end: where the bytes of a file are
gone from its place, the last build had left them there, or they were the text that was planned for
the place, or a copy of them is kept. -/
theorem write_loses_no_file (h : Setting w reports managed)
    (hdistinct : ∀ report ∈ reports, report.HasDistinctPaths) (ht : t.WellFormed)
    (hne : names ≠ []) {bytes : ByteArray} (hfile : t.bytesAt (w.root ++ names) = some bytes)
    (hmanifest : names ≠ Manifest.names) (hcopies : ¬ IsBelowCopies names)
    (hchanged : (w.treeAfter t reports managed).bytesAt (w.root ++ names) ≠ some bytes) :
    ∃ previous, Manifest.load t w.root = .ok previous ∧
      (w.Excuses previous t reports managed (Path.relative names) bytes ∨
        w.HasCopy names bytes (w.treeAfter t reports managed)) := by
  have hroot : t.bytesAt w.root = none :=
    FileTree.bytesAt_of_dir (ht.get?_above hne (FileTree.bytesAt_eq_some_iff.mp hfile))
  rcases h.proper.treeAfter_cases with hsame | ⟨previous, hload, hafter⟩
  · exact absurd (hsame ▸ hfile) hchanged
  refine ⟨previous, hload, ?_⟩
  have hsurvives := run_survives previous h hdistinct ht hroot
  cases hrun : w.run previous t reports managed with
  | error halt =>
    rw [hrun] at hafter hsurvives
    rw [hafter] at hchanged ⊢
    exact Survives.excused_or_hasCopy hsurvives hfile hcopies hchanged
  | ok p =>
    rw [hrun] at hafter hsurvives
    have hsaved := hafter hsurvives.wellFormed
    rw [hsaved.elsewhere (fun heq => hmanifest (List.append_cancel_left heq))] at hchanged
    refine (Survives.excused_or_hasCopy hsurvives hfile hcopies hchanged).imp_right ?_
    rintro ⟨place, hplace, hcopied⟩
    exact ⟨place, hplace, by rw [hsaved.elsewhere hplace.ne_manifest, hcopied]⟩

/-- A project with one file of the user's own, and two targets: the first writes the path of that
file, and the second has a text that no file can hold. -/
def ownFileTree : FileTree := ⟨[(["p", "a.md"], .file ⟨#[109]⟩), (["p"], .dir)]⟩

@[inherit_doc ownFileTree]
def ownFileReports : List TargetReport :=
  [{ target := "t", result := some { files := [⟨"a.md", "x", .full⟩] } },
    { target := "u", result := some { files := [⟨"b.md", [.half 0], .unmarked⟩] } }]

/-- The run ends over the second target, after the user's file was overwritten. -/
theorem write_loses_no_file_of_halted :
    ownFileTree.bytesAt ["p", "a.md"] = some ⟨#[109]⟩ ∧
    (treeAfter ⟨["p"], "S"⟩ ownFileTree ownFileReports []).bytesAt ["p", "a.md"] ≠ some ⟨#[109]⟩ ∧
    ∃ previous, Manifest.load ownFileTree ["p"] = .ok previous ∧
      (Excuses ⟨["p"], "S"⟩ previous ownFileTree ownFileReports [] "a.md" ⟨#[109]⟩ ∨
        HasCopy ⟨["p"], "S"⟩ ["a.md"] ⟨#[109]⟩
          (treeAfter ⟨["p"], "S"⟩ ownFileTree ownFileReports [])) := by
  have hproper : IsProper ⟨["p"], "S"⟩ := isProper_of_isPlain (by decide +kernel)
  have houtputs : ∀ report ∈ ownFileReports, report.StaysOutside := by
    intro report hreport
    apply TargetReport.staysOutside_of_forall
    intro f hf
    simp only [ownFileReports, List.mem_cons, List.not_mem_nil, or_false] at hreport
    rcases hreport with rfl | rfl
    · obtain rfl := List.mem_singleton.mp hf
      exact ⟨["a.md"], Path.leads_of_isPlain (by decide +kernel), by decide +kernel⟩
    · obtain rfl := List.mem_singleton.mp hf
      exact ⟨["b.md"], Path.leads_of_isPlain (by decide +kernel), by decide +kernel⟩
  have hdistinct : ∀ report ∈ ownFileReports, report.HasDistinctPaths := by
    intro report hreport result hresult
    simp only [ownFileReports, List.mem_cons, List.not_mem_nil, or_false] at hreport
    rcases hreport with rfl | rfl <;> cases hresult <;> simp
  have hchanged : (treeAfter ⟨["p"], "S"⟩ ownFileTree ownFileReports []).bytesAt ["p", "a.md"] ≠
      some ⟨#[109]⟩ := by
    rw [Ne, FileTree.bytesAt_eq_some_iff]
    decide +kernel
  have hfile : ownFileTree.bytesAt ["p", "a.md"] = some ⟨#[109]⟩ :=
    FileTree.bytesAt_eq_some_iff.mpr (by decide +kernel)
  exact ⟨hfile, hchanged, write_loses_no_file
    ⟨hproper, houtputs, ManagedDirs.spares_of_forall (by simp)⟩ hdistinct
    (FileTree.wellFormed_of_isPlain (by decide +kernel)) (by simp) hfile (by decide +kernel)
    (by decide +kernel) hchanged⟩

theorem Wants.exists_file (h : w.Wants previous t reports managed path text) :
    ∃ report ∈ reports, ∃ f ∈ (report.result.map (·.files)).getD [],
      f.path = path ∧ (f.ownership ≠ .sharedKeys → f.desired = text) := by
  obtain ⟨report, p, plan, hplanned, a, ha, rfl, hpayload⟩ := h
  obtain ⟨result, hresult, hplan⟩ := hplanned.plans
  obtain ⟨f, hf, hwrite⟩ := plan_payload hplan ha hpayload
  refine ⟨report, hplanned.mem, f, by simpa [hresult] using hf, hwrite.path_eq.symm, ?_⟩
  intro hplain
  have hkind : a.kind = .writeText := by rw [hwrite.kind_eq, if_neg hplain]
  exact Option.some.inj ((hwrite.plain hkind).2.symm.trans hpayload)

theorem not_excuses (hread : Text.readText bytes = .ok text)
    (hmarker : Marker.has path text = false)
    (hfiles : ∀ report ∈ reports, ∀ f ∈ (report.result.map (·.files)).getD [],
      f.ownership ≠ .sharedKeys ∧ f.desired ≠ text) :
    ¬ w.Excuses none t reports managed path bytes := by
  rintro (⟨e, he, -⟩ | ⟨-, other, hother, hmarked⟩ | ⟨other, hother, hwants⟩)
  · cases he
  · cases hread.symm.trans hother
    rw [hmarker] at hmarked
    cases hmarked
  · cases hread.symm.trans hother
    obtain ⟨report, hreport, f, hf, -, hdesired⟩ := hwants.exists_file
    exact (hfiles report hreport f hf).2 (hdesired (hfiles report hreport f hf).1)

/-- A directory stands where the copy of the user's file is to go. -/
def occupiedTree : FileTree :=
  ⟨[(["p", "a.md"], .file ⟨#[109]⟩), (["p", ".agentrc", ".backup", "S", "a.md"], .dir),
    (["p", ".agentrc", ".backup", "S"], .dir), (["p", ".agentrc", ".backup"], .dir),
    (["p", ".agentrc"], .dir), (["p"], .dir)]⟩

/-- A user's file in one of two directories, and two targets of which the first writes the path of
that file. -/
def aliasTree : FileTree :=
  ⟨[(["p", "b", "x.md"], .file ⟨#[109]⟩), (["p", "a"], .dir), (["p", "b"], .dir), (["p"], .dir)]⟩

@[inherit_doc aliasTree]
def aliasReports : List TargetReport :=
  [{ target := "t", result := some { files := [⟨"b/x.md", "x", .full⟩] } },
    { target := "u", result := some {} }]

/-- A copy is not always at the path of the file in the directory of copies: a directory may stand
there. Nor is there always a copy: a managed directory spelled with a double dot shows a file under
a second path, and the copy of what the run itself has written replaces that of the user's file. -/
theorem copy_misplaced_and_copy_lost :
    (occupiedTree.bytesAt ["p", "a.md"] = some ⟨#[109]⟩ ∧
      Manifest.load occupiedTree ["p"] = .ok none ∧
      ¬ Excuses ⟨["p"], "S"⟩ none occupiedTree ownFileReports [] "a.md" ⟨#[109]⟩ ∧
      (treeAfter ⟨["p"], "S"⟩ occupiedTree ownFileReports []).bytesAt ["p", "a.md"] ≠
        some ⟨#[109]⟩ ∧
      (treeAfter ⟨["p"], "S"⟩ occupiedTree ownFileReports []).get?
        ["p", ".agentrc", ".backup", "S", "a.md"] = some .dir) ∧
    (aliasTree.bytesAt ["p", "b", "x.md"] = some ⟨#[109]⟩ ∧
      Manifest.load aliasTree ["p"] = .ok none ∧
      ¬ Excuses ⟨["p"], "S"⟩ none aliasTree aliasReports [("u", ["a/../b"])] "b/x.md" ⟨#[109]⟩ ∧
      ∀ place, (treeAfter ⟨["p"], "S"⟩ aliasTree aliasReports [("u", ["a/../b"])]).bytesAt place ≠
        some ⟨#[109]⟩) := by
  refine ⟨⟨?_, by rfl, ?_, ?_, by decide +kernel⟩, ?_, by rfl, ?_, ?_⟩
  · exact FileTree.bytesAt_eq_some_iff.mpr (by decide +kernel)
  · exact not_excuses (by rfl) (by decide +kernel) (by decide +kernel)
  · rw [Ne, FileTree.bytesAt_eq_some_iff]
    decide +kernel
  · exact FileTree.bytesAt_eq_some_iff.mpr (by decide +kernel)
  · exact not_excuses (by rfl) (by decide +kernel) (by decide +kernel)
  · exact FileTree.bytesAt_ne_of_all (by decide +kernel)

end Run

end Workplace

end AgentConfig
