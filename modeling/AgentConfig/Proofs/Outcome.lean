import Mathlib.Data.List.Forall2

namespace AgentConfig.Outcome

open List

variable {ε ε' α β : Type} {xs : List α} {bad : ε → Prop} {f : α → Except ε β} {ys : List β}
  {x r : Except ε α} {b y : β} {e : ε}

/-- A computation has a result of one kind, or fails in a certain way. -/
def Yields (good : α → Prop) (bad : ε → Prop) : Except ε α → Prop
  | .ok a => good a
  | .error e => bad e

theorem Yields.imp {good good' : α → Prop} {bad' : ε → Prop} (h : Yields good bad r)
    (hgood : ∀ a, good a → good' a) (hbad : ∀ e, bad e → bad' e) :
    Yields good' bad' r := by
  cases r with
  | ok a => exact hgood a h
  | error e => exact hbad e h

theorem Yields.map {good : β → Prop} {f : α → β} (h : Yields (fun a => good (f a)) bad r) :
    Yields good bad (r.map f) := by
  cases r <;> exact h

/-- A computation that fails only in a certain way. -/
def FailsOnly (bad : ε → Prop) (r : Except ε α) : Prop := ∀ e, r = .error e → bad e

theorem FailsOnly.ok (a : α) : FailsOnly bad (.ok a) := nofun

theorem FailsOnly.error (h : bad e) : FailsOnly bad (.error e : Except ε α) := by
  rintro _ ⟨⟩
  exact h

theorem FailsOnly.bind (hx : FailsOnly bad x) (hf : ∀ a, x = .ok a → FailsOnly bad (f a)) :
    FailsOnly bad (x >>= f) := by
  cases x with
  | error e => exact .error (hx e rfl)
  | ok a => exact hf a rfl

theorem FailsOnly.map (hx : FailsOnly bad x) (f : α → β) : FailsOnly bad (x.map f) := by
  cases x with
  | error e => exact .error (hx e rfl)
  | ok a => exact .ok _

theorem FailsOnly.mapError {bad : ε' → Prop} {f : ε → ε'} (hx : FailsOnly (fun e => bad (f e)) x) :
    FailsOnly bad (x.mapError f) := by
  cases x with
  | error e => exact .error (hx e rfl)
  | ok a => exact .ok a

theorem FailsOnly.mapM (h : ∀ x ∈ xs, FailsOnly bad (f x)) : FailsOnly bad (xs.mapM f) := by
  induction xs with
  | nil => exact .ok _
  | cons x rest ih =>
    rw [mapM_cons]
    refine (h x mem_cons_self).bind fun y _ => ?_
    exact (ih fun z hz => h z (mem_cons_of_mem _ hz)).bind fun ys _ => .ok _

theorem FailsOnly.flatMapM {f : α → Except ε (List β)} (h : ∀ x ∈ xs, FailsOnly bad (f x)) :
    FailsOnly bad (xs.flatMapM f) := by
  have hloop (acc : List (List β)) : FailsOnly bad (List.flatMapM.loop f xs acc) := by
    induction xs generalizing acc with
    | nil => exact .ok _
    | cons x rest ih =>
      exact (h x mem_cons_self).bind fun _ _ => ih (fun z hz => h z (mem_cons_of_mem _ hz)) _
  exact hloop []

theorem FailsOnly.filterM {f : α → Except ε Bool} (h : ∀ x ∈ xs, FailsOnly bad (f x)) :
    FailsOnly bad (xs.filterM f) := by
  have haux (acc : List α) : FailsOnly bad (xs.filterAuxM f acc) := by
    induction xs generalizing acc with
    | nil => exact .ok _
    | cons x rest ih =>
      exact (h x mem_cons_self).bind fun _ _ => ih (fun z hz => h z (mem_cons_of_mem _ hz)) _
  exact (haux []).bind fun _ _ => .ok _

theorem FailsOnly.exists_ok (h : FailsOnly (fun _ => False) r) : ∃ a, r = .ok a := by
  cases r with
  | ok a => exact ⟨a, rfl⟩
  | error e => exact (h e rfl).elim

/-- Whether a computation has a result that passes a check. -/
def checks (check : α → Bool) : Except ε α → Bool
  | .ok a => check a
  | .error _ => false

theorem exists_of_checks {check : α → Bool} (h : checks check r = true) :
    ∃ a, r = .ok a ∧ check a = true := by
  cases r with
  | ok a => exact ⟨a, rfl, h⟩
  | error e => cases h

/-- Whether a computation fails with something that passes a check. -/
def fails (check : ε → Bool) : Except ε α → Bool
  | .ok _ => false
  | .error e => check e

theorem exists_of_fails {check : ε → Bool} (h : fails check r = true) :
    ∃ e, r = .error e ∧ check e = true := by
  cases r with
  | ok a => cases h
  | error e => exact ⟨e, rfl, h⟩

theorem bind_eq_ok : (x >>= f) = .ok b ↔ ∃ a, x = .ok a ∧ f a = .ok b := by
  cases x <;> simp [bind, Except.bind]

theorem bind_eq_error : (x >>= f) = .error e ↔ x = .error e ∨ ∃ a, x = .ok a ∧ f a = .error e := by
  cases x <;> simp [bind, Except.bind]

theorem map_eq_ok {f : α → β} : x.map f = .ok b ↔ ∃ a, x = .ok a ∧ f a = b := by
  cases x <;> simp [Except.map]

theorem mapError_eq_ok {f : ε → ε'} {a : α} : x.mapError f = .ok a ↔ x = .ok a := by
  cases x <;> simp [Except.mapError]

theorem mapError_eq_error {f : ε → ε'} {e : ε'} :
    x.mapError f = .error e ↔ ∃ e₀, x = .error e₀ ∧ f e₀ = e := by
  cases x <;> simp [Except.mapError]

theorem mapM_eq_ok : xs.mapM f = .ok ys ↔ Forall₂ (fun x y => f x = .ok y) xs ys := by
  induction xs generalizing ys with
  | nil =>
    rw [mapM_nil, forall₂_nil_left_iff]
    exact ⟨fun h => (Except.ok.inj h).symm, fun h => h ▸ rfl⟩
  | cons x rest ih =>
    rw [mapM_cons, bind_eq_ok, forall₂_cons_left_iff]
    constructor
    · rintro ⟨y, hy, h⟩
      obtain ⟨more, hmore, h⟩ := bind_eq_ok.mp h
      exact ⟨y, more, hy, ih.mp hmore, (Except.ok.inj h).symm⟩
    · rintro ⟨y, more, hy, hmore, rfl⟩
      exact ⟨y, hy, bind_eq_ok.mpr ⟨more, ih.mpr hmore, rfl⟩⟩

theorem mapM_congr {g : α → Except ε β} (h : ∀ x ∈ xs, f x = g x) : xs.mapM f = xs.mapM g := by
  induction xs with
  | nil => rfl
  | cons x rest ih =>
    rw [mapM_cons, mapM_cons, h x mem_cons_self, ih fun y hy => h y (mem_cons_of_mem _ hy)]

theorem flatMapM_eq_nil_iff {f : α → Except ε (List β)} :
    xs.flatMapM f = .ok [] ↔ ∀ x ∈ xs, f x = .ok [] := by
  have hloop (acc : List (List β)) : List.flatMapM.loop f xs acc = .ok [] ↔
      (∀ ys ∈ acc, ys = []) ∧ ∀ x ∈ xs, f x = .ok [] := by
    induction xs generalizing acc with
    | nil => simp [List.flatMapM.loop, pure, Except.pure]
    | cons x rest ih =>
      rw [List.flatMapM.loop, bind_eq_ok, forall_mem_cons]
      constructor
      · rintro ⟨ys, hys, h⟩
        obtain ⟨hacc, hrest⟩ := (ih _).mp h
        obtain ⟨rfl, hbefore⟩ := forall_mem_cons.mp hacc
        exact ⟨hbefore, hys, hrest⟩
      · rintro ⟨hacc, hx, hrest⟩
        exact ⟨[], hx, (ih _).mpr ⟨forall_mem_cons.mpr ⟨rfl, hacc⟩, hrest⟩⟩
  rw [List.flatMapM, hloop]
  exact and_iff_right nofun

theorem append_eq_nil_iff {x y : Except ε (List α)} :
    (do return (← x) ++ (← y)) = .ok [] ↔ x = .ok [] ∧ y = .ok [] := by
  cases x <;> cases y <;> simp [bind, Except.bind, pure, Except.pure]

theorem exists_of_forall₂ {r : α → β → Prop} (h : Forall₂ r xs ys) (hy : y ∈ ys) :
    ∃ x ∈ xs, r x y := by
  induction h with
  | nil => cases hy
  | cons hxy _ ih =>
    rcases mem_cons.mp hy with rfl | hy
    · exact ⟨_, mem_cons_self, hxy⟩
    · obtain ⟨x, hx, h⟩ := ih hy
      exact ⟨x, mem_cons_of_mem _ hx, h⟩

theorem exists_of_forall₂_left {r : α → β → Prop} (h : Forall₂ r xs ys) {x : α} (hx : x ∈ xs) :
    ∃ y ∈ ys, r x y :=
  exists_of_forall₂ h.flip hx

theorem forall₂_imp_of_mem {r s : α → β → Prop} (h : Forall₂ r xs ys)
    (himp : ∀ x ∈ xs, ∀ y, r x y → s x y) : Forall₂ s xs ys := by
  induction h with
  | nil => exact .nil
  | cons hxy _ ih =>
    exact .cons (himp _ mem_cons_self _ hxy) (ih fun x hx => himp x (mem_cons_of_mem _ hx))

theorem forall₂_append_cons {r : α → β → Prop} {before after : List α} {x : α}
    (h : Forall₂ r (before ++ x :: after) ys) :
    ∃ first y rest, ys = first ++ y :: rest ∧ Forall₂ r before first ∧ r x y ∧
      Forall₂ r after rest := by
  induction before generalizing ys with
  | nil =>
    obtain ⟨y, rest, hy, hrest, rfl⟩ := forall₂_cons_left_iff.mp h
    exact ⟨[], y, rest, rfl, .nil, hy, hrest⟩
  | cons z before ih =>
    obtain ⟨y, tail, hy, htail, rfl⟩ := forall₂_cons_left_iff.mp h
    obtain ⟨first, y', rest, rfl, hfirst, hy', hrest⟩ := ih htail
    exact ⟨y :: first, y', rest, rfl, .cons hy hfirst, hy', hrest⟩

theorem mem_of_mapM_eq_ok (h : xs.mapM f = .ok ys) : y ∈ ys ↔ ∃ x ∈ xs, f x = .ok y := by
  induction mapM_eq_ok.mp h with
  | nil => simp
  | cons hxy hrest ih =>
    rw [mem_cons, ih (mapM_eq_ok.mpr hrest), exists_mem_cons_iff, hxy, Except.ok.injEq, eq_comm]

theorem exists_of_mapM_eq_ok (h : xs.mapM f = .ok ys) {x : α} (hx : x ∈ xs) :
    ∃ y ∈ ys, f x = .ok y :=
  exists_of_forall₂_left (mapM_eq_ok.mp h) hx

private theorem filterAuxM_eq_ok {f : α → Except ε Bool} {acc ys : List α}
    (h : xs.filterAuxM f acc = .ok ys) :
    ∃ kept : List α, ys = kept.reverse ++ acc ∧ kept.Sublist xs ∧
      (∀ x, x ∈ kept ↔ x ∈ xs ∧ f x = .ok true) ∧ ∀ x ∈ xs, ∃ keep, f x = .ok keep := by
  induction xs generalizing acc with
  | nil =>
    cases h
    exact ⟨[], rfl, Sublist.refl _, by simp, by simp⟩
  | cons first rest ih =>
    obtain ⟨keep, hkeep, h⟩ := bind_eq_ok.mp h
    obtain ⟨kept, rfl, hsub, hmem, htold⟩ := ih h
    have htold : ∀ x ∈ first :: rest, ∃ keep, f x = .ok keep :=
      forall_mem_cons.mpr ⟨⟨keep, hkeep⟩, htold⟩
    cases keep with
    | false =>
      refine ⟨kept, rfl, hsub.cons _, ?_, htold⟩
      intro x
      rw [hmem, mem_cons]
      refine ⟨fun hx => ⟨.inr hx.1, hx.2⟩, ?_⟩
      rintro ⟨rfl | hx, htrue⟩
      · rw [hkeep] at htrue
        cases htrue
      · exact ⟨hx, htrue⟩
    | true =>
      refine ⟨first :: kept, by simp, hsub.cons_cons _, ?_, htold⟩
      intro x
      rw [mem_cons, mem_cons, hmem]
      refine ⟨?_, fun hx => hx.1.imp id fun hrest => ⟨hrest, hx.2⟩⟩
      rintro (rfl | hx)
      · exact ⟨.inl rfl, hkeep⟩
      · exact ⟨.inr hx.1, hx.2⟩

theorem filterM_eq_ok {f : α → Except ε Bool} {ys : List α} (h : xs.filterM f = .ok ys) :
    ys.Sublist xs ∧ (∀ x, x ∈ ys ↔ x ∈ xs ∧ f x = .ok true) ∧ ∀ x ∈ xs, ∃ keep, f x = .ok keep := by
  obtain ⟨kept, hkept, h⟩ := bind_eq_ok.mp h
  cases h
  obtain ⟨found, rfl, hsub, hmem, htold⟩ := filterAuxM_eq_ok hkept
  exact ⟨by simpa using hsub, by simpa using hmem, htold⟩

/-- What every step keeps holds at the end of a run, with nothing left to do; where the run stops
early, so does what the stopping step guarantees. -/
theorem foldlM_induct (f : β → α → Except ε β) (keeps : β → List α → Prop) (stops : ε → Prop)
    (hstep : ∀ {b x rest}, keeps b (x :: rest) → Yields (keeps · rest) stops (f b x))
    (hstart : keeps b xs) : Yields (keeps · []) stops (xs.foldlM f b) := by
  induction xs generalizing b with
  | nil => exact hstart
  | cons x rest ih =>
    have h := hstep hstart
    rw [foldlM_cons]
    cases hf : f b x with
    | error e =>
      rw [hf] at h
      exact h
    | ok b' =>
      rw [hf] at h
      exact ih h

section Both

variable {α' β' : Type} {r : α → β → Prop} {s : α' → β' → Prop} {z : Except ε' β}

/-- Two computations both have results, which belong together, or both fail. -/
def Both (r : α → β → Prop) : Except ε α → Except ε' β → Prop
  | .ok a, .ok b => r a b
  | .error _, .error _ => True
  | _, _ => False

theorem Both.refl (x : Except ε α) : Both Eq x x := by
  cases x with
  | error e => trivial
  | ok a => rfl

theorem Both.exists_ok_iff (h : Both r x z) : (∃ a, x = .ok a) ↔ ∃ b, z = .ok b := by
  cases x <;> cases z <;> first | exact h.elim | simp

theorem Both.bind {f : α → Except ε α'} {g : β → Except ε' β'} (h : Both r x z)
    (hnext : ∀ a b, x = .ok a → z = .ok b → r a b → Both s (f a) (g b)) :
    Both s (x >>= f) (z >>= g) := by
  cases x <;> cases z
  · trivial
  · exact h.elim
  · exact h.elim
  · exact hnext _ _ rfl rfl h

theorem Both.mapError {δ δ' : Type} (h : Both r x z) (f : ε → δ) (g : ε' → δ') :
    Both r (x.mapError f) (z.mapError g) := by
  cases x <;> cases z <;> exact h

theorem Both.foldlM {δ : Type} {f : α → δ → Except ε α} {g : β → δ → Except ε' β} {ds : List δ}
    {a : α} (hstep : ∀ d ∈ ds, ∀ a b, r a b → Both r (f a d) (g b d)) (h : r a b) :
    Both r (ds.foldlM f a) (ds.foldlM g b) := by
  induction ds generalizing a b with
  | nil => exact h
  | cons d rest ih =>
    rw [foldlM_cons, foldlM_cons]
    exact (hstep d mem_cons_self a b h).bind fun a b _ _ hab =>
      ih (fun d' hd => hstep d' (mem_cons_of_mem _ hd)) hab

/-- The order in which a list is worked off shows only in that of the results, and in which of its
faults is met first. -/
theorem Both.of_perm {xs' : List α} (h : xs.Perm xs') : Both Perm (xs.mapM f) (xs'.mapM f) := by
  induction h with
  | nil => exact .nil
  | cons x _ ih =>
    rw [mapM_cons, mapM_cons]
    cases f x with
    | error e => trivial
    | ok y => exact ih.bind fun _ _ _ _ hperm => hperm.cons y
  | swap x y rest =>
    simp only [mapM_cons]
    cases f x <;> cases f y <;> cases rest.mapM f <;> first | trivial | exact .swap _ _ _
  | @trans xs ys zs _ _ ih ih' =>
    cases hx : xs.mapM f <;> cases hy : ys.mapM f <;> cases hz : zs.mapM f <;>
      rw [hx, hy] at ih <;> rw [hy, hz] at ih' <;> first | trivial | exact ih.trans ih'

end Both

section First

variable {π : Type} {fails : π → ε → Prop} {ps qs : List π}

/-- The way in which the first part fails that does, `fails` being the ways of each part. -/
inductive First (fails : π → ε → Prop) : List π → ε → Prop
  | here {p : π} {rest : List π} {e : ε} (h : fails p e) : First fails (p :: rest) e
  | later {p : π} {rest : List π} {e : ε} (hp : ∀ e, ¬ fails p e) (h : First fails rest e) :
    First fails (p :: rest) e

theorem First.exists_mem {e : ε} (h : First fails ps e) : ∃ p ∈ ps, fails p e := by
  induction h with
  | here h => exact ⟨_, mem_cons_self, h⟩
  | later _ _ ih =>
    obtain ⟨p, hp, h⟩ := ih
    exact ⟨p, mem_cons_of_mem _ hp, h⟩

theorem First.append_iff {e : ε} : First fails (ps ++ qs) e ↔
    First fails ps e ∨ (∀ p ∈ ps, ∀ e, ¬ fails p e) ∧ First fails qs e := by
  induction ps with
  | nil =>
    refine ⟨fun h => .inr ⟨nofun, h⟩, fun h => ?_⟩
    exact h.elim nofun And.right
  | cons p ps ih =>
    constructor
    · rintro (h | ⟨hp, h⟩)
      · exact .inl (.here h)
      · rcases ih.mp h with h | ⟨hps, h⟩
        · exact .inl (.later hp h)
        · exact .inr ⟨forall_mem_cons.mpr ⟨hp, hps⟩, h⟩
    · rintro ((h | ⟨hp, h⟩) | ⟨hall, h⟩)
      · exact .here h
      · exact .later hp (ih.mpr (.inl h))
      · obtain ⟨hp, hps⟩ := forall_mem_cons.mp hall
        exact .later hp (ih.mpr (.inr ⟨hps, h⟩))

theorem exists_first (h : ¬ ∀ p ∈ ps, ∀ e, ¬ fails p e) : ∃ e, First fails ps e := by
  induction ps with
  | nil => exact absurd nofun h
  | cons p ps ih =>
    by_cases hp : ∃ e, fails p e
    · obtain ⟨e, he⟩ := hp
      exact ⟨e, .here he⟩
    · rw [not_exists] at hp
      obtain ⟨e, he⟩ := ih fun hps => h (forall_mem_cons.mpr ⟨hp, hps⟩)
      exact ⟨e, .later hp he⟩

/-- A computation that fails as the first of some parts does that are at fault, and has a result if
none of them is. -/
def FailsAsFirst (fails : π → ε → Prop) (ps : List π) (r : Except ε α) : Prop :=
  ∀ e, r = .error e ↔ First fails ps e

namespace FailsAsFirst

variable {p : π}

theorem ok (a : α) : FailsAsFirst fails [] (.ok a) := fun _ => ⟨nofun, nofun⟩

theorem one (h : ∀ e, x = .error e ↔ fails p e) : FailsAsFirst fails [p] x := by
  intro e
  rw [h]
  refine ⟨.here, ?_⟩
  rintro (h | ⟨-, ⟨⟩⟩)
  exact h

theorem exists_ok_iff (h : FailsAsFirst fails ps x) :
    (∃ a, x = .ok a) ↔ ∀ p ∈ ps, ∀ e, ¬ fails p e := by
  cases x with
  | ok a =>
    refine ⟨fun _ => by_contra fun hps => ?_, fun _ => ⟨a, rfl⟩⟩
    obtain ⟨e, he⟩ := exists_first hps
    exact absurd ((h e).mpr he) nofun
  | error e =>
    obtain ⟨p, hp, he⟩ := ((h e).mp rfl).exists_mem
    refine ⟨nofun, fun hps => absurd he (hps p hp e)⟩

theorem bind {f : α → Except ε β} (hx : FailsAsFirst fails ps x)
    (hf : ∀ a, x = .ok a → FailsAsFirst fails qs (f a)) :
    FailsAsFirst fails (ps ++ qs) (x >>= f) := by
  intro e
  rw [bind_eq_error, First.append_iff, hx e, ← hx.exists_ok_iff]
  refine or_congr_right ⟨?_, ?_⟩
  · rintro ⟨a, ha, he⟩
    exact ⟨⟨a, ha⟩, (hf a ha e).mp he⟩
  · rintro ⟨⟨a, ha⟩, he⟩
    exact ⟨a, ha, (hf a ha e).mpr he⟩

theorem map (hx : FailsAsFirst fails ps x) (f : α → β) : FailsAsFirst fails ps (f <$> x) := by
  intro e
  rw [← hx e]
  cases x <;> simp [Functor.map, Except.map]

theorem bind_ok {f : α → β} (hx : FailsAsFirst fails ps x) :
    FailsAsFirst fails ps (x >>= fun a => .ok (f a)) := by
  simpa using hx.bind fun a _ => FailsAsFirst.ok (f a)

theorem mapM {δ : Type} {parts : δ → List π} {f : δ → Except ε β} {xs : List δ}
    (h : ∀ x ∈ xs, FailsAsFirst fails (parts x) (f x)) :
    FailsAsFirst fails (xs.flatMap parts) (xs.mapM f) := by
  induction xs with
  | nil => exact .ok _
  | cons x rest ih =>
    obtain ⟨hx, hrest⟩ := forall_mem_cons.mp h
    rw [flatMap_cons, mapM_cons]
    exact hx.bind fun _ _ => (ih hrest).bind_ok

theorem skip (hp : ∀ e, ¬ fails p e) (h : FailsAsFirst fails ps x) :
    FailsAsFirst fails (p :: ps) x := by
  intro e
  rw [h e]
  refine ⟨.later hp, ?_⟩
  rintro (h | ⟨-, h⟩)
  · exact absurd h (hp e)
  · exact h

theorem error {e : ε} (h : ∀ e', fails p e' ↔ e' = e) :
    FailsAsFirst fails (p :: ps) (.error e : Except ε α) := by
  intro e'
  constructor
  · rintro ⟨⟩
    exact .here ((h e).mpr rfl)
  · rintro (hp | ⟨hp, -⟩)
    · rw [(h e').mp hp]
    · exact absurd ((h e).mpr rfl) (hp e)

end FailsAsFirst

end First

end AgentConfig.Outcome
