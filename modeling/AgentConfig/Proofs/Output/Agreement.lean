import AgentConfig.Proofs.FileTree.Mirror
import AgentConfig.Proofs.Output.Content

namespace AgentConfig

open List Outcome FileTree AgentConfig.Path

variable {first : Text}

namespace Performed

/-- Whether an action fails, and then whether the run goes on. -/
def refusal? (p : Performed) : Option Bool :=
  match p.result with
  | .ok _ => none
  | .error (.file fault) => some fault.isSystem
  | .error (.refused _) => some true
  | .error (.tooDeep _ _) => some false

/-- Two actions go through both, or fail both for like reasons, and leave trees of a certain
kind. -/
structure Alike (r : FileTree → FileTree → Prop) (p q : Performed) : Prop where
  tree : r p.tree q.tree
  refusal : p.refusal? = q.refusal?

theorem Alike.ofChange {r : FileTree → FileTree → Prop} {c d : TreeChange} {b b' : Bool}
    (h : TreeChange.Alike r c d) : Alike r (ofChange b c) (ofChange b' d) := by
  obtain ⟨htree, hrefusal⟩ := h
  cases c <;> cases d <;> exact ⟨htree, hrefusal⟩

end Performed

namespace Workplace

/-- What stands below certain first names, and the copies of it. -/
def IsPlaceOf (w : Workplace) (tops : Text → Prop) (place : List Text) : Prop :=
  ∃ first rest, tops first ∧ (place = w.root ++ first :: rest ∨ place = w.copyRoot ++ first :: rest)

/-- Two trees agree below certain first names and in the copies of what is there. -/
abbrev Agrees (w : Workplace) (tops : Text → Prop) : (base t u : FileTree) → Prop :=
  Mirrors (fun place => place <+: w.root ∨ w.IsPlaceOf tops place) (· <+: w.copyRoot)

variable {w : Workplace} {tops : Text → Prop} {base t u : FileTree} {names place above : List Text}

section Places

variable (hout : ¬ tops Source.directory)
include hout

theorem root_not_prefix (hfirst : tops first) (rest : List Text) :
    ¬ w.root ++ first :: rest <+: w.copyRoot := by
  rw [copyRoot, append_assoc, prefix_append_right_inj, backupNames, cons_append, cons_prefix_cons]
  rintro ⟨rfl, -⟩
  exact hout hfirst

theorem IsPlaceOf.not_above (h : w.IsPlaceOf tops place) : ¬ place <+: w.copyRoot := by
  obtain ⟨first, rest, hfirst, rfl | rfl⟩ := h
  · exact root_not_prefix hout hfirst rest
  · intro hway
    have hlength := hway.length_le
    rw [length_append, length_cons] at hlength
    omega

end Places

theorem root_prefix_copyRoot (w : Workplace) : w.root <+: w.copyRoot := by
  rw [copyRoot, append_assoc]
  exact prefix_append _ _

theorem IsPlaceOf.exists_common {tops tops' : Text → Prop} (h : w.IsPlaceOf tops place)
    (h' : w.IsPlaceOf tops' place) (hout : ¬ tops Source.directory)
    (hout' : ¬ tops' Source.directory) : ∃ first, tops first ∧ tops' first := by
  have hne {tops : Text → Prop} (hout : ¬ tops Source.directory) {first other : Text}
      {rest more : List Text} (hfirst : tops first)
      (heq : w.root ++ first :: rest = w.copyRoot ++ other :: more) : False := by
    rw [copyRoot, append_assoc, append_assoc, append_cancel_left_eq, backupNames, cons_append,
      cons_eq_cons] at heq
    exact hout (heq.1 ▸ hfirst)
  obtain ⟨first, rest, hfirst, rfl | rfl⟩ := h <;>
  obtain ⟨other, more, hother, heq | heq⟩ := h'
  · rw [append_cancel_left_eq, cons_eq_cons] at heq
    exact ⟨first, hfirst, heq.1 ▸ hother⟩
  · exact (hne hout hfirst heq).elim
  · exact (hne hout' hother heq.symm).elim
  · rw [append_cancel_left_eq, cons_eq_cons] at heq
    exact ⟨first, hfirst, heq.1 ▸ hother⟩

theorem Agrees.mono {tops' : Text → Prop} (h : w.Agrees tops base t t)
    (hsub : ∀ first, tops first → tops' first) : w.Agrees tops' base t t := by
  refine ⟨h.left, h.right, fun _ => rfl, h.way_eq, h.bytes_eq,
    fun hno => h.other_eq fun hor => hno ?_⟩
  exact hor.imp_right fun ⟨first, rest, hfirst, hplace⟩ => ⟨first, rest, hsub first hfirst, hplace⟩

theorem Agrees.get?_of_other (h : w.Agrees tops base t u) (hway : ¬ place <+: w.copyRoot)
    (hplace : ¬ w.IsPlaceOf tops place) : u.get? place = base.get? place := by
  refine h.other_eq (fun hor => ?_) hway
  exact hor.elim (fun habove => hway (habove.trans (root_prefix_copyRoot w))) hplace

theorem Agrees.get?_of_apart (h : w.Agrees tops base t u) (hout : ¬ tops Source.directory)
    (hne : Source.directory ≠ first) (hfirst : ¬ tops first) (rest : List Text) :
    u.get? (w.root ++ first :: rest) = base.get? (w.root ++ first :: rest) := by
  have hplace : w.IsPlaceOf (· = first) (w.root ++ first :: rest) := ⟨first, rest, rfl, .inl rfl⟩
  refine h.get?_of_other (hplace.not_above hne) fun hother => ?_
  obtain ⟨other, hcommon, rfl⟩ := hother.exists_common hplace hout hne
  exact hfirst hcommon

theorem prefix_or_below (hnames : names.head? = some first)
    (h : place <+: above ++ names) : place <+: above ∨ ∃ rest, place = above ++ first :: rest := by
  rcases prefix_or_prefix_of_prefix h (prefix_append above names) with hway | ⟨rest, rfl⟩
  · exact .inl hway
  cases rest with
  | nil => exact .inl (by simp)
  | cons name rest =>
    rw [prefix_append_right_inj] at h
    obtain ⟨more, rfl⟩ := h
    cases hnames
    exact .inr ⟨rest, rfl⟩

section Paths

variable {path : Text} (hpath : Leads path names) (htop : tops (top path))
include hpath htop

theorem isPlaceOf_location (rest : List Text) : w.IsPlaceOf tops (w.root ++ names ++ rest) := by
  obtain ⟨more, hmore⟩ := head?_eq_some_iff.mp hpath.head?_eq
  exact ⟨top path, more ++ rest, htop, .inl (by rw [hmore, append_assoc, cons_append])⟩

theorem isPlaceOf_backupLocation (rest : List Text) :
    w.IsPlaceOf tops (w.copyRoot ++ names ++ rest) := by
  obtain ⟨more, hmore⟩ := head?_eq_some_iff.mp hpath.head?_eq
  exact ⟨top path, more ++ rest, htop, .inr (by rw [hmore, append_assoc, cons_append])⟩

theorem isPlaceOf_above (h : place <+: w.root ++ names) :
    place <+: w.root ∨ w.IsPlaceOf tops place :=
  (prefix_or_below hpath.head?_eq h).imp_right fun ⟨rest, hrest⟩ => ⟨_, rest, htop, .inl hrest⟩

theorem Agrees.same (h : w.Agrees tops base t u) :
    ∀ place, place <+: w.root ++ names → u.get? place = t.get? place := fun _ hplace =>
  h.alike_eq (isPlaceOf_above hpath htop hplace)

end Paths

section Actions

variable (hw : w.IsProper) (hout : ¬ tops Source.directory) {a : Action}
  (hpath : Leads a.path names) (htop : tops (top a.path))
include hw hout hpath htop

theorem Agrees.backUp (h : w.Agrees tops base t u) : TreeChange.Alike (w.Agrees tops base)
    ((w.backUp t a.path).map (·.2)) ((w.backUp u a.path).map (·.2)) := by
  have hsource := hw.areProper hpath
  have htarget := hw.areProper_copyRoot.append hpath.proper
  unfold Workplace.backUp exists?
  rw [w.location_eq hpath, hw.backupLocation_eq hpath, entry?_congr hsource (h.same hpath htop)]
  cases (t.entry? (w.root ++ names)).map (·.isSome) with
  | error fault => exact ⟨h, rfl⟩
  | ok there =>
    cases there with
    | false => exact ⟨h, rfl⟩
    | true =>
      have hcopied : TreeChange.Alike (w.Agrees tops base)
          (t.makeDirs (w.copyRoot ++ names).dropLast >>= fun t =>
            t.step (t.copy (w.root ++ names) (w.copyRoot ++ names)))
          (u.makeDirs (w.copyRoot ++ names).dropLast >>= fun u =>
            u.step (u.copy (w.root ++ names) (w.copyRoot ++ names))) := by
        refine (h.makeDirs htarget.dropLast fun place hplace => ?_).bind fun ht hu hmade => ?_
        · have hbegun := hplace.trans <| dropLast_prefix _
          rcases prefix_or_below hpath.head?_eq hbegun with hway | hbelow
          · exact .inr hway
          · obtain ⟨rest, hrest⟩ := hbelow
            exact .inl (.inr ⟨_, rest, htop, .inr hrest⟩)
        · have hplace (rest : List Text) := isPlaceOf_backupLocation hpath htop (w := w) rest
          refine hmade.copy hsource (by simp [hpath.ne_nil]) htarget (Agrees.same hpath htop hmade)
            (hmade.same_below ?_ ?_ ?_) (fun rest => .inr (hplace rest))
            fun rest => (hplace rest).not_above hout
          · exact makeDirs_ok h.left htarget.dropLast ht
          · exact makeDirs_ok h.right htarget.dropLast hu
          · exact .inr (append_nil (w.copyRoot ++ names) ▸ hplace [])
      have hmap (x : TreeChange) (f : FileTree → TreeChange) :
          (x >>= fun t => f t >>= fun t => pure (true, t)).map (·.2) = x >>= f := by
        cases x with
        | error e => rfl
        | ok t =>
          show ((f t) >>= _).map _ = f t
          cases f t <;> rfl
      rw [← hmap, ← hmap] at hcopied
      exact hcopied

theorem Agrees.changing (h : w.Agrees tops base t u) {change : FileTree → TreeChange}
    (hchange : ∀ {t u}, w.Agrees tops base t u →
      TreeChange.Alike (w.Agrees tops base) (change t) (change u)) :
    Performed.Alike (w.Agrees tops base) (w.changing t a change) (w.changing u a change) := by
  unfold Workplace.changing
  split
  · obtain ⟨htree, hrefusal⟩ := Agrees.backUp hw hout hpath htop h
    cases ht : w.backUp t a.path <;> cases hu : w.backUp u a.path <;>
      rw [ht, hu] at htree hrefusal
    · exact ⟨htree, hrefusal⟩
    · cases hrefusal
    · cases hrefusal
    · exact .ofChange (hchange htree)
  · exact .ofChange (hchange h)

theorem Agrees.write (h : w.Agrees tops base t u) (text : Text) :
    TreeChange.Alike (w.Agrees tops base) (t.write (w.root ++ names) text)
      (u.write (w.root ++ names) text) := by
  have hplace := append_nil (w.root ++ names) ▸ isPlaceOf_location hpath htop (w := w) []
  refine Mirrors.write h (hw.areProper hpath) (fun place hplace => .inl ?_) (.inr hplace)
    (hplace.not_above hout) text
  exact isPlaceOf_above hpath htop <| hplace.trans <| dropLast_prefix _

theorem Agrees.removeAt (h : w.Agrees tops base t u) :
    TreeChange.Alike (w.Agrees tops base) (w.removeAt a.path t) (w.removeAt a.path u) := by
  have hproper := hw.areProper hpath
  have hplace := append_nil (w.root ++ names) ▸ isPlaceOf_location hpath htop (w := w) []
  have hpruned {t u : FileTree} (h : w.Agrees tops base t u) :
      w.Agrees tops base (t.prune (w.root ++ names).dropLast w.root)
        (u.prune (w.root ++ names).dropLast w.root) := by
    have hreversed := reverse_reverse (w.root ++ names).dropLast
    refine Mirrors.pruneUp h hw.root ?_ ?_ ?_ <;> rw [hreversed]
    · exact hproper.dropLast
    · intro place hplace
      exact isPlaceOf_above hpath htop <| hplace.trans <| dropLast_prefix _
    · intro place hway hbelow hne
      have hbegun := hway.trans <| dropLast_prefix _
      rcases prefix_or_below hpath.head?_eq hbegun with habove | ⟨rest, rfl⟩
      · exact absurd (habove.eq_of_length_le hbelow.length_le) hne
      · exact ⟨fun more => .inr ⟨_, rest ++ more, htop, .inl (append_assoc _ _ _)⟩,
          root_not_prefix hout htop rest⟩
  unfold Workplace.removeAt
  rw [w.location_eq hpath]
  obtain ⟨htree, hrefusal⟩ := h.unlink hproper (h.same hpath htop) (.inr hplace)
    (hplace.not_above hout)
  cases ht : t.step (t.unlink (w.root ++ names)) <;>
  cases hu : u.step (u.unlink (w.root ++ names)) <;>
    rw [ht, hu] at htree hrefusal
  · exact ⟨htree, hrefusal⟩
  · cases hrefusal
  · cases hrefusal
  · exact ⟨hpruned htree, rfl⟩

theorem Agrees.perform (h : w.Agrees tops base t u) (hkind : a.kind ≠ .removeKeys) :
    Performed.Alike (w.Agrees tops base) (w.perform t a) (w.perform u a) := by
  rcases Action.persists_or_removeFile hkind with hpersists | hremove
  · rw [perform_of_persists hpersists, perform_of_persists hpersists]
    unfold performWrite
    rw [w.location_eq hpath]
    split
    · exact ⟨h, rfl⟩
    split
    · exact ⟨h, rfl⟩
    · exact Agrees.changing hw hout hpath htop h fun h => Agrees.write hw hout hpath htop h _
  · rw [perform_of_removeFile hremove, perform_of_removeFile hremove]
    have hexists : u.exists? (w.location a.path) = t.exists? (w.location a.path) := by
      rw [w.location_eq hpath]
      exact congrArg (Except.map _) (entry?_congr (hw.areProper hpath) (h.same hpath htop))
    unfold performRemoval
    rw [hexists]
    split
    · exact ⟨h, rfl⟩
    · exact ⟨h, rfl⟩
    · exact Agrees.changing hw hout hpath htop h fun h => Agrees.removeAt hw hout hpath htop h

end Actions

end Workplace

namespace Execution

variable {w : Workplace} {e f : Execution} {a : Action}

theorem step_cases (w : Workplace) (e : Execution) (a : Action) :
    ((w.perform e.tree a).refusal? = some false ∧ ∃ halt, Execution.step w e a = .error halt) ∨
      (w.perform e.tree a).refusal? ≠ some false ∧ ∃ e', Execution.step w e a = .ok e' ∧
        e'.tree = (w.perform e.tree a).tree ∧
        e'.completed = e.completed ++ if (w.perform e.tree a).refusal? = none then [a] else [] := by
  unfold step Performed.refusal?
  dsimp only
  cases (w.perform e.tree a).result with
  | ok changed => simp
  | error fault =>
    cases fault with
    | file fault => cases h : fault.isSystem <;> simp [h]
    | refused message => simp
    | tooDeep text error => simp

theorem step_alike {r : FileTree → FileTree → Prop} (hcompleted : f.completed = e.completed)
    (h : Performed.Alike r (w.perform e.tree a) (w.perform f.tree a)) :
    Both (fun e f => r e.tree f.tree ∧ f.completed = e.completed) (step w e a) (step w f a) := by
  obtain ⟨htree, hrefusal⟩ := h
  rcases step_cases w e a with ⟨he, halt, hstep⟩ | ⟨he, e', hstep, hetree, hecompleted⟩ <;>
  rcases step_cases w f a with ⟨hf, halt', hstep'⟩ | ⟨hf, f', hstep', hftree, hfcompleted⟩ <;>
  rw [hstep, hstep']
  · trivial
  · exact hf (hrefusal.symm.trans he)
  · exact he (hrefusal.trans hf)
  · exact ⟨by rwa [hetree, hftree], by rw [hecompleted, hfcompleted, hcompleted, hrefusal]⟩

end Execution

namespace Workplace

variable {w : Workplace} {tops : Text → Prop} {base t u : FileTree} {names : List Text}

theorem Agrees.execute (h : w.Agrees tops base t u) (hw : w.IsProper)
    (hout : ¬ tops Source.directory) {actions : List Action}
    (hactions : ∀ a ∈ actions, IsOrdinary a ∧ tops (top a.path)) :
    Both (fun e f => w.Agrees tops base e.tree f.tree ∧ f.completed = e.completed)
      (w.execute t actions) (w.execute u actions) := by
  refine Both.foldlM (fun a ha e f hkeeps => ?_) ⟨h, rfl⟩
  obtain ⟨⟨⟨names, hleads, -⟩, hkind⟩, htop⟩ := hactions a ha
  exact Execution.step_alike hkeeps.2 (Agrees.perform hw hout hleads htop hkeeps.1 hkind)

theorem IsOrdinary.top_ne {a : Action} (h : IsOrdinary a) : top a.path ≠ Source.directory := by
  obtain ⟨names, hleads, hout⟩ := h.outside
  intro heq
  exact hout (by rw [hleads.head?_eq, heq])

section Run

variable {previous : Option Manifest} {reports : List TargetReport} {managed : ManagedDirs}
  {p : Progress} (h : Setting w reports managed) (ht : t.WellFormed)
  (hroot : t.bytesAt w.root = none) (hrun : w.run previous t reports managed = .ok p)
include h ht hroot hrun

theorem isOrdinary_completed : ∀ a ∈ p.completed, IsOrdinary a := by
  intro a ha
  obtain ⟨report, q, plan, hplanned, hmem⟩ := run_completed hrun a ha
  exact h.isOrdinary ht hroot hplanned a hmem

theorem not_top_completed : ¬ ∃ a ∈ p.completed, top a.path = Source.directory := by
  rintro ⟨a, ha, htop⟩
  exact (isOrdinary_completed h ht hroot hrun a ha).top_ne htop

variable (hok : ∀ r ∈ p.done, r.ok = true)
include hok

/-- A run without failures has done nothing but what it has completed. -/
theorem run_agrees :
    w.Agrees (fun first => ∃ a ∈ p.completed, top a.path = first) t p.tree p.tree := by
  refine run_induct_succeeds (fun _ p => (∀ a ∈ p.completed, IsOrdinary a) →
    w.Agrees (fun first => ∃ a ∈ p.completed, top a.path = first) t p.tree p.tree)
    (fun _ => .refl ht) (fun _ _ hkeeps => hkeeps) ?_ hrun hok
    (isOrdinary_completed h ht hroot hrun)
  intro before report after q result plan e _ _ _ _ hsucceeds hkeeps hordinary
  obtain ⟨htree, hcompleted, -⟩ := q.after_unchanged report plan e
  rw [hcompleted, hsucceeds.completed_eq] at hordinary
  rw [htree, hcompleted, hsucceeds.completed_eq]
  have hagrees : w.Agrees (fun first => ∃ a ∈ q.completed ++ plan.actions, top a.path = first)
      t q.tree q.tree :=
    (hkeeps fun a ha => hordinary a (mem_append_left _ ha)).mono
      fun _ ⟨a, ha, htop⟩ => ⟨a, mem_append_left _ ha, htop⟩
  have hboth := hagrees.execute h.proper (fun ⟨a, ha, htop⟩ => (hordinary a ha).top_ne htop)
    fun a ha => ⟨hordinary a (mem_append_right _ ha), a, mem_append_right _ ha, rfl⟩
  rw [hsucceeds.execute_eq] at hboth
  exact hboth.1

variable {path : Text} (hleads : Leads path names) (hout : IsOutside names)
  (hapart : ∀ a ∈ p.completed, top a.path ≠ top path)
include hleads hout hapart

theorem run_get?_eq (rest : List Text) :
    p.tree.get? (w.root ++ top path :: rest) = t.get? (w.root ++ top path :: rest) := by
  have hne : Source.directory ≠ top path := fun heq => hout (by rw [hleads.head?_eq, heq])
  exact (run_agrees h ht hroot hrun hok).get?_of_apart (not_top_completed h ht hroot hrun) hne
    (fun ⟨a, ha, htop⟩ => hapart a ha htop) rest

theorem run_entry?_of_apart {found : Option FileEntry}
    (hentry : p.tree.entry? (w.root ++ names) = .ok found) :
    t.entry? (w.root ++ names) = .ok found := by
  have hagrees := run_agrees h ht hroot hrun hok
  have hproper := h.proper.areProper hleads
  have hget := run_get?_eq h ht hroot hrun hok hleads hout hapart
  obtain ⟨rest, hrest⟩ := head?_eq_some_iff.mp hleads.head?_eq
  rw [ht.entry?_of_dirs hproper (fun location hway hdir => ?_) hentry,
    hagrees.left.entry?_eq hproper hentry, hrest, hget]
  rcases prefix_or_below hleads.head?_eq hway with habove | ⟨more, rfl⟩
  · rw [hagrees.way_eq (habove.trans (root_prefix_copyRoot w)), hdir, Option.some_or]
  · rw [hget, hdir]

theorem run_filesBelow_eq :
    p.tree.filesBelow (w.root ++ names) = t.filesBelow (w.root ++ names) := by
  obtain ⟨more, hmore⟩ := head?_eq_some_iff.mp hleads.head?_eq
  refine ht.filesBelow_congr (run_agrees h ht hroot hrun hok).left fun rest _ => ?_
  rw [hmore, append_assoc, cons_append]
  exact bytesAt_congr (run_get?_eq h ht hroot hrun hok hleads hout hapart _)

end Run

end Workplace

end AgentConfig
