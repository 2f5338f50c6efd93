import AgentConfig.Proofs.Output.Preservation
import AgentConfig.Proofs.Output.Settings
import AgentConfig.Proofs.Output.Spared

namespace AgentConfig

open List Outcome FileTree Json Manifest AgentConfig.Path PlanContext Progress TargetReport

variable {a : Action} {bytes : ByteArray} {e e' : Execution} {t : FileTree}
  {location names root xs : List Text} {manifest : Manifest} {base members : Members}
  {path x : Text}

/-- The object in a file; none counts as an empty one. -/
def FileTree.objectAt (t : FileTree) (location : List Text) : Members :=
  match (t.bytesAt location).map Text.readText with
  | some (.ok text) =>
    match Json.read text with
    | .ok (.obj members) => members
    | _ => []
  | _ => []

theorem FileTree.objectAt_of_isStored (hbytes : t.bytesAt location = some bytes)
    (hstored : IsStored bytes (.obj members)) : t.objectAt location = members := by
  obtain ⟨text, htext, hread⟩ := hstored
  simp only [objectAt, hbytes, Option.map_some, htext, hread]

/-- The keys that a manifest has for a path, if they are texts. -/
def Manifest.keysAt (m : Manifest) (path : Text) : List Text :=
  (((m.get? path).bind (·.ownedKeys)).bind keyTexts).getD []

namespace PlanContext

variable {c : PlanContext}

theorem fst_baseOf (ht : t.WellFormed) (hproper : AreProper location) {stored : StoredJson}
    (h : t.storedJson location = .ok stored) : (baseOf stored).1 = t.objectAt location := by
  obtain ⟨found, hfound, h⟩ := bind_eq_ok.mp h
  have hget := ht.entry?_eq hproper (mapError_eq_ok.mp hfound)
  rw [objectAt, bytesAt, ← hget]
  cases found with
  | none =>
    cases h
    rfl
  | some entry =>
    cases entry with
    | dir =>
      cases h
      rfl
    | file bytes =>
      dsimp only [Option.map_some] at h ⊢
      split at h
      · rename_i hsize
        cases h
        have hempty : bytes = ⟨#[]⟩ := by
          have hdata : bytes.data = #[] := Array.eq_empty_of_size_eq_zero hsize
          rw [← hdata]
        rw [hempty]
        rfl
      · cases hread : Text.readText bytes with
        | error e =>
          rw [hread] at h
          cases h
          rfl
        | ok text =>
          rw [hread] at h
          dsimp only at h ⊢
          cases hjson : Json.read text with
          | error e =>
            rw [hjson] at h
            dsimp only at h
            split at h
            · cases h
              rfl
            · cases h
          | ok v =>
            rw [hjson] at h
            cases h
            cases v <;> rfl

theorem withoutOwned_eq (h : c.withoutOwned path members = .ok base) :
    base = (removePaths (c.manifest.keysAt path) members).1 := by
  unfold keysAt
  rcases withoutOwned_inv h with ⟨hnone, rfl⟩ | ⟨keys, texts, hkeys, htexts, rfl⟩
  · rw [hnone]
    rfl
  · rw [hkeys, Option.bind_some, htexts]
    rfl

theorem mem_distinctSorted : x ∈ distinctSorted xs ↔ x ∈ xs := by
  simp [distinctSorted, Text.sort, mem_mergeSort, mem_eraseDups]

end PlanContext

namespace Manifest

theorem find?_putEntry (e : ManifestEntry) (files : List ManifestEntry) (path : Text) :
    (putEntry e files).find? (·.path == path) =
      if e.path = path then some e else files.find? (·.path == path) := by
  induction files with
  | nil => by_cases h : e.path = path <;> simp [putEntry, h]
  | cons f rest ih =>
    rw [putEntry]
    by_cases hsame : f.path = e.path
    · by_cases h : e.path = path <;> simp [hsame, h]
    rw [if_neg hsame, find?_cons, ih, find?_cons]
    by_cases hf : f.path = path
    · have hne : e.path ≠ path := fun h => hsame (hf.trans h.symm)
      simp [hf, hne]
    · have hno : (f.path == path) = false := by simpa using hf
      simp only [hno]

theorem find?_foldl_putEntry (more files : List ManifestEntry) (path : Text) :
    (more.foldl (fun files e => putEntry e files) files).find? (·.path == path) =
      (more.reverse.find? (·.path == path)).or (files.find? (·.path == path)) := by
  induction more generalizing files with
  | nil => rfl
  | cons e rest ih =>
    rw [foldl_cons, ih, find?_putEntry, reverse_cons, find?_append, Option.or_assoc]
    by_cases h : e.path = path <;> simp [h]

theorem path_of_written? {e : ManifestEntry}
    (h : written? root t path a = .ok (some e)) : e.path = path := by
  obtain ⟨found, -, h⟩ := bind_eq_ok.mp h
  cases found with
  | none => cases h
  | some bytes =>
    cases h
    rfl

end Manifest

/-- The manifest of a run has for each file that was written its digest, and the keys that the last
action on it has noted. -/
theorem Progress.Tallies.get?_manifest {p : Progress} (htallies : p.Tallies p.completed)
    (ht : p.tree.WellFormed) (hroot : AreProper root) {previous : Option Manifest}
    (hmanifest : p.manifest root previous = .ok manifest)
    (hlast : Action.lastWrite? p.completed path = some a) (hleads : Leads path names)
    (hbytes : p.tree.bytesAt (root ++ names) = some bytes) :
    manifest.get? path = some ⟨path, Digest.sha256 bytes, a.ownedKeys.map (·.map Json.str)⟩ := by
  obtain ⟨old, hold, hmanifest⟩ := bind_eq_ok.mp hmanifest
  obtain ⟨new, hnew, hmanifest⟩ := bind_eq_ok.mp hmanifest
  rw [← Except.ok.inj hmanifest, Manifest.get?, find?_foldl_putEntry, find?_nil,
    Option.or_none]
  have hnoted : (path, a) ∈ p.persisted := htallies.mem_persisted_iff.mpr hlast
  obtain ⟨entry, hmem, hentry⟩ := exists_of_mapM_eq_ok hnew hnoted
  obtain rfl := written?_inv ht hroot hleads hbytes hentry
  have hlisted : ⟨path, Digest.sha256 bytes, a.ownedKeys.map (·.map Json.str)⟩ ∈
      (old ++ new.filterMap id).reverse := by
    rw [mem_reverse, mem_append]
    exact .inr (mem_filterMap.mpr ⟨_, hmem, rfl⟩)
  have honly : ∀ e ∈ (old ++ new.filterMap id).reverse, e.path = path →
      e = ⟨path, Digest.sha256 bytes, a.ownedKeys.map (·.map Json.str)⟩ := by
    intro e he hpath
    rcases mem_append.mp (mem_reverse.mp he) with he | he
    · -- An old entry for a path that was written is not kept.
      have hnone := (((kept_inv hold).2.1 e).mp he).2.2.1
      rw [htallies.persisted, hpath, hlast] at hnone
      cases hnone
    · obtain ⟨some, hsome, rfl⟩ := mem_filterMap.mp he
      obtain ⟨⟨path', a'⟩, hnoted', hwritten⟩ := (mem_of_mapM_eq_ok hnew).mp hsome
      obtain rfl : path' = path := (path_of_written? hwritten).symm.trans hpath
      obtain rfl : a' = a :=
        Option.some.inj ((htallies.mem_persisted_iff.mp hnoted').symm.trans hlast)
      exact Option.some.inj (Except.ok.inj (hwritten.symm.trans hentry))
  cases hfind : (old ++ new.filterMap id).reverse.find? (·.path == path) with
  | none => simpa using find?_eq_none.mp hfind _ hlisted
  | some e =>
    rw [honly e (mem_of_find?_eq_some hfind) (by simpa using find?_some hfind)]

namespace Workplace

variable {w : Workplace} {t : FileTree} {a : Action} {actions first last : List Action}
  {names : List Text}

def left (w : Workplace) (t : FileTree) (actions : List Action) : FileTree :=
  actions.foldl (fun t a => (w.perform t a).tree) t

theorem tried_append (t : FileTree) (actions more : List Action) :
    w.tried t (actions ++ more) = w.tried t actions ++ w.tried (w.left t actions) more := by
  induction actions generalizing t with
  | nil => rfl
  | cons a rest ih =>
    rw [cons_append, tried, ih, tried, cons_append]
    rfl

/-- The paths of the files that actions copy away when they are tried. -/
def copied (w : Workplace) (t : FileTree) (actions : List Action) : List Text :=
  ((w.tried t actions).filter
    fun attempt => (w.perform attempt.2 attempt.1).backedUp).map (·.1.path)

private theorem step_backups (hstep : Execution.step w e a = .ok e') :
    e'.backups = e.backups ++ if (w.perform e.tree a).backedUp then [a.path] else [] := by
  unfold Execution.step at hstep
  dsimp only at hstep
  split at hstep
  · cases hstep
    rfl
  · split at hstep <;> cases hstep
    rfl
  · cases hstep
    rfl
  · cases hstep

private theorem foldlM_backups (h : actions.foldlM (Execution.step w) e = .ok e') :
    e'.backups = e.backups ++ w.copied e.tree actions := by
  induction actions generalizing e with
  | nil =>
    cases h
    exact (append_nil _).symm
  | cons a rest ih =>
    obtain ⟨e₁, hstep, h⟩ := bind_eq_ok.mp h
    rw [ih h, step_backups hstep, (Execution.step_ok hstep).1, append_assoc]
    unfold copied
    rw [tried, filter_cons]
    split <;> rfl

theorem backups_of_execute (he : w.execute t actions = .ok e) : e.backups = w.copied t actions :=
  (foldlM_backups he).trans (nil_append _)

theorem count_copied_of_forall_ne (h : ∀ a ∈ actions, a.path ≠ path) (t : FileTree) :
    (w.copied t actions).count path = 0 := by
  rw [count_eq_zero]
  intro hmem
  obtain ⟨attempt, hattempt, rfl⟩ := mem_map.mp hmem
  have haction : attempt.1 ∈ (w.tried t actions).map (·.1) :=
    mem_map_of_mem (mem_filter.mp hattempt).1
  rw [map_tried] at haction
  exact h _ haction rfl

theorem count_copied (hother : ∀ b ∈ first ++ last, b.path ≠ a.path) (t : FileTree) :
    (w.copied t (first ++ a :: last)).count a.path =
      if (w.perform (w.left t first) a).backedUp then 1 else 0 := by
  have hfirst := count_copied_of_forall_ne (w := w) (fun b hb => hother b (mem_append_left _ hb)) t
  have hlast := count_copied_of_forall_ne (w := w)
    (fun b hb => hother b (mem_append_right _ hb)) (w.perform (w.left t first) a).tree
  unfold copied at hfirst hlast ⊢
  rw [tried_append, tried, filter_append, filter_cons, map_append, count_append,
    hfirst, Nat.zero_add]
  split
  · rw [map_cons, count_cons_self, hlast]
  · exact hlast

theorem eq_of_mem_tried (hother : ∀ b ∈ first ++ last, b.path ≠ a.path)
    {attempt : Action × FileTree} (hmem : attempt ∈ w.tried t (first ++ a :: last))
    (hpath : attempt.1.path = a.path) : attempt = (a, w.left t first) := by
  have htried {u : FileTree} {some : List Action} (h : attempt ∈ w.tried u some) :
      attempt.1 ∈ some := by
    rw [← map_tried w u some]
    exact mem_map_of_mem h
  rw [tried_append, tried] at hmem
  rcases mem_append.mp hmem with h | h
  · exact absurd hpath (hother _ (mem_append_left _ (htried h)))
  · rcases mem_cons.mp h with rfl | h
    · rfl
    · exact absurd hpath (hother _ (mem_append_right _ (htried h)))

section Copies

variable (hw : w.IsProper)
include hw

theorem left_apart (hplace : Leads path names) (hout : IsOutside names) (ht : t.WellFormed)
    (actions : List Action) (hactions : ∀ a ∈ actions, IsNamed a ∧ a.path ≠ path) :
    (w.left t actions).WellFormed ∧
      (w.left t actions).bytesAt (w.root ++ names) = t.bytesAt (w.root ++ names) := by
  induction actions generalizing t with
  | nil => exact ⟨ht, rfl⟩
  | cons a rest ih =>
    obtain ⟨ha, hpath⟩ := hactions a mem_cons_self
    obtain ⟨others, hleads⟩ := ha.leads
    have hne : names ≠ others := by
      rintro rfl
      exact hpath (hleads.unique hplace)
    obtain ⟨hwell, hrest⟩ := ih (t := (w.perform t a).tree)
      (perform_elsewhere hw ht hleads ha.kind).1
      fun b hb => hactions b (mem_cons_of_mem _ hb)
    exact ⟨hwell, hrest.trans (perform_apart hw hout ht hleads ha.kind hne)⟩

theorem backedUp_inv (ht : t.WellFormed) (hleads : Leads a.path names)
    (hout : IsOutside names) (hpersists : a.kind.persists = true)
    (hmade : (w.perform t a).backedUp = true) :
    a.backup = true ∧ a.status ≠ .noop ∧ ∃ bytes, t.bytesAt (w.root ++ names) = some bytes := by
  have hof (made : Bool) (change : TreeChange) :
      (Performed.ofChange made change).backedUp = made := by
    cases change <;> rfl
  rw [perform_of_persists hpersists] at hmade
  unfold performWrite at hmade
  split at hmade
  · cases hmade
  rename_i hstatus
  split at hmade
  · cases hmade
  unfold changing at hmade
  split at hmade
  · rename_i hbackup
    refine ⟨hbackup, hstatus, ?_⟩
    have hsecures := backUp_inv hw ht hleads
    split at hmade
    · rename_i made u hback
      rw [hof] at hmade
      rw [hback] at hsecures
      rcases backUp_cases hback with ⟨rfl, -⟩ | ⟨location, bytes, hlocate, hget⟩
      · cases hmade
      · rw [w.location_eq hleads] at hlocate
        obtain rfl := locate_eq (hw.areProper hleads) hlocate
        exact ⟨bytes, by rw [← hsecures.bytesAt_eq hout, bytesAt_eq_some_iff, hget]⟩
    · cases hmade
  · rw [hof] at hmade
    cases hmade

end Copies

end Workplace

/-- A target that generates one settings document at a path, with the object that is to be laid over
what is there. -/
def TargetReport.SharesAt (path : Text) (report : TargetReport) (overlay : Members) : Prop :=
  ∃ result before f after, report.result = some result ∧ result.files = before ++ f :: after ∧
    (∀ g ∈ before ++ after, g.path ≠ path) ∧ f.path = path ∧ f.ownership = .sharedKeys ∧
    Json.read f.content = .ok (.obj overlay) ∧ IsReadableIn maxLevels (.obj overlay)

namespace Workplace

variable {w : Workplace} {t : FileTree} {previous : Option Manifest} {reports : List TargetReport}
  {managed : ManagedDirs} {report : TargetReport} {p q : Progress} {plan : Plan}
  {path content key : Text} {names : List Text} {overlays : List Json.Members}
  {overlay : Json.Members} {e : Execution}

/-- What a run has made of a shared document, when so many objects have been laid over it. -/
structure Layered (w : Workplace) (previous : Option Manifest) (t : FileTree) (path : Text)
    (names : List Text) (overlays : List Members) (p : Progress) : Prop where
  fresh : overlays = [] → p = { tree := t }
  document : overlays ≠ [] → ∃ a keys bytes, Action.lastWrite? p.completed path = some a ∧
    a.ownedKeys = some keys ∧
    (∀ key, key ∈ keys ↔ ∃ overlay ∈ overlays, key ∈ keyPaths keyDepth overlay) ∧
    p.tree.bytesAt (w.root ++ names) = some bytes ∧
    IsStored bytes (.obj (overlays.foldl Json.merge
      (removePaths ((previous.getD {}).keysAt path) (t.objectAt (w.root ++ names))).1))
  copies : (p.done.flatMap (·.backups)).count path ≤ 1

section

variable (h : w.Layered previous t path names overlays p) (hw : w.IsProper)
  (htallies : p.Tallies p.completed) (htree : p.tree.WellFormed) (hplace : Leads path names)
  (hout : IsOutside names) (hplanned : w.Planned previous t reports managed report p plan)
  (hnamed : ∀ a ∈ plan.actions, IsNamed a) (he : w.execute p.tree plan.actions = .ok e)
  (hfailures : e.failures = []) (hshares : report.SharesAt path overlay)
include h hw htallies htree hplace hout hplanned hnamed he hfailures hshares

theorem Layered.copy_made {attempt : Action × FileTree}
    (hattempt : attempt ∈ w.tried p.tree plan.actions) (hpath : attempt.1.path = path)
    (hmade : (w.perform attempt.2 attempt.1).backedUp = true) :
    p = { tree := t } ∧ ∃ bytes, t.bytesAt (w.root ++ names) = some bytes ∧
      w.HasCopy names bytes (w.perform attempt.2 attempt.1).tree := by
  obtain ⟨result, before, f, after, hresult, hfiles, halone, rfl, -⟩ := hshares
  obtain ⟨a, warnings, first, last, houtput, hactions, hother⟩ :=
    hplanned.plan_alone hresult hfiles halone
  have hwrite := planOutput_inv houtput
  have hdone : ∃ changed, (w.perform attempt.2 attempt.1).result = .ok changed := by
    have haccounts := accounts_of_execute (fun b hb => (hnamed b hb).kind) he
    have hnone := haccounts.failures_eq.symm.trans hfailures
    rw [filterMap_eq_nil_iff] at hnone
    have hfault := hnone attempt hattempt
    unfold faultOf? at hfault
    split at hfault
    · exact ⟨_, ‹_›⟩
    · cases hfault
  obtain rfl : attempt = (a, w.left p.tree first) :=
    eq_of_mem_tried hother (hactions ▸ hattempt) (hpath.trans hwrite.path_eq.symm)
  obtain ⟨hwell, hbefore⟩ := left_apart hw hplace hout htree first fun b hb =>
    ⟨hnamed b (by simp [hactions, hb]), hwrite.path_eq ▸ hother b (mem_append_left _ hb)⟩
  have hleads : Leads a.path names := hwrite.path_eq ▸ hplace
  obtain ⟨hbackup, hstatus, bytes, hbytes⟩ :=
    backedUp_inv hw hwell hleads hout hwrite.persists hmade
  have hfresh : p = { tree := t } := by
    apply h.fresh
    by_contra hne
    obtain ⟨b, keys, bytes, hlast, -⟩ := h.document hne
    have hnew : p.ledger.hasPath f.path = false := hwrite.copies_fresh hbackup
    rw [htallies.ledger, hlast] at hnew
    cases hnew
  obtain ⟨changed, hdone⟩ := hdone
  refine ⟨hfresh, bytes, ?_, perform_copied hw hwell hleads hout ?_ hstatus hbackup hdone hbytes⟩
  · rw [hbefore] at hbytes
    rwa [hfresh] at hbytes
  · exact (hnamed a (by simp [hactions])).kind

theorem Layered.after :
    w.Layered previous t path names (overlays ++ [overlay]) (p.after report plan e) := by
  obtain ⟨result, before, f, after, hresult, hfiles, halone, rfl, hshared, hread, hreadable⟩ :=
    hshares
  have hoverlay {other : Members} (hother : overlayOf f.content = .ok other) :
      other = overlay := by
    rw [overlayOf, hread] at hother
    exact (Except.ok.inj hother).symm
  obtain ⟨first, a, last, overlay', base, stored, owned, found, bytes, hactions, hother, hwrite,
      hsettles, -, howned, hbytes, hstored⟩ :=
    hplanned.merges hw htree hnamed he hfailures hresult hfiles halone hshared
      (fun _ hother => hoverlay hother ▸ areReadable_iff.mpr hreadable) hplace hout
  obtain rfl : overlay' = overlay := hoverlay hsettles.overlay_eq
  have hlocation : (p.context w (previous.getD {})).location f.path = w.root ++ names :=
    hplace.join_eq _
  have hfound : (baseOf stored).1 = p.tree.objectAt (w.root ++ names) := by
    have hread := hsettles.stored_eq
    rw [hlocation] at hread
    exact fst_baseOf htree (hw.areProper hplace) hread
  have hlaid : base = overlays.foldl Json.merge (removePaths
        ((previous.getD {}).keysAt f.path) (t.objectAt (w.root ++ names))).1 ∧
      ∀ key, key ∈ owned ↔ ∃ o ∈ overlays ++ [overlay'],
        key ∈ keyPaths keyDepth o := by
    have hbase := hsettles.base_eq
    by_cases hnone : overlays = []
    · -- The first target takes out the keys of the last build.
      obtain rfl := h.fresh hnone
      obtain ⟨hbase, rfl⟩ :
          (Progress.context w (previous.getD {}) { tree := t }).withoutOwned f.path
          (baseOf stored).1 = .ok base ∧ _ := hbase
      rw [withoutOwned_eq hbase, hfound, hnone]
      exact ⟨rfl, by simp⟩
    · -- The others find what those before them have laid over it.
      obtain ⟨b, keys, old, hlast, hkeys, hall, hold, hdoc⟩ := h.document hnone
      obtain ⟨earlier, hledger, -, -, hnoted⟩ := htallies.tells f.path b hlast
      rw [show (p.context w (previous.getD {})).ledger.get? f.path = some earlier from hledger]
        at hbase
      obtain ⟨rfl, rfl⟩ := hbase
      refine ⟨hfound.trans (objectAt_of_isStored hold hdoc), fun key => ?_⟩
      rw [mem_distinctSorted, mem_append, hnoted keys hkeys, Option.getD_some, hall]
      simp [or_and_right, exists_or]
  obtain ⟨hafter, hcompleted, hdone⟩ := p.after_unchanged report plan e
  refine ⟨by simp, fun _ => ⟨a, owned, bytes, ?_, howned, hlaid.2, by rw [hafter, hbytes], ?_⟩, ?_⟩
  · rw [hcompleted, completed_eq_of_failures_eq_nil he hfailures, hactions, ← append_assoc,
      ← hwrite.path_eq]
    exact Action.lastWrite?_append_cons hwrite.persists fun b hb =>
      hwrite.path_eq ▸ hother b (mem_append_right _ hb)
  · rw [foldl_append, ← hlaid.1]
    exact hstored.isStored
  · rw [hdone, flatMap_append, flatMap_singleton, count_append]
    show _ + e.backups.count f.path ≤ 1
    have hcount : e.backups.count a.path =
        if (w.perform (w.left p.tree first) a).backedUp then 1 else 0 := by
      rw [backups_of_execute he, hactions]
      exact count_copied (hwrite.path_eq ▸ hother) p.tree
    rw [← hwrite.path_eq, hcount]
    split
    · rename_i hmade
      have hattempt : (a, w.left p.tree first) ∈ w.tried p.tree plan.actions := by
        rw [hactions, tried_append, tried]
        simp
      obtain ⟨rfl, -⟩ := h.copy_made hw htallies htree hplace hout hplanned hnamed he hfailures
        ⟨result, before, f, after, hresult, hfiles, halone, rfl, hshared, hread, hreadable⟩ hattempt
        hwrite.path_eq hmade
      simp
    · rw [Nat.add_zero, hwrite.path_eq]
      exact h.copies

end

private theorem foldlM_done
    (h : reports.foldlM (writeTarget w manifest managed) q = .ok p) : q.done <+: p.done := by
  induction reports generalizing q with
  | nil =>
    cases h
    exact prefix_rfl
  | cons report rest ih =>
    obtain ⟨q', hnext, h⟩ := bind_eq_ok.mp h
    refine List.IsPrefix.trans ?_ (ih h)
    rcases writeTarget_cases w manifest managed q report with
      ⟨plan, -, hcase⟩ | ⟨failure, hhalt⟩ | ⟨done, hskip, -⟩
    · obtain ⟨e, -, rfl⟩ := map_eq_ok.mp (hcase.symm.trans hnext)
      exact ⟨_, (q.after_unchanged report plan e).2.2.symm⟩
    · cases hnext.symm.trans hhalt
    · cases hnext.symm.trans hskip
      exact ⟨[done], rfl⟩

theorem Planned.succeeds (hplanned : w.Planned previous t reports managed report q plan)
    (hrun : w.run previous t reports managed = .ok p) (hok : ∀ r ∈ p.done, r.ok = true) :
    (∀ r ∈ q.done, r.ok = true) ∧ ∃ e, w.execute q.tree plan.actions = .ok e ∧ e.failures = [] := by
  obtain ⟨before, after, rfl, hbefore⟩ := hplanned.reached
  obtain ⟨result, hresult, hplan⟩ := hplanned.plans
  unfold run at hrun hbefore
  rw [foldlM_append, hbefore] at hrun
  obtain ⟨_, hq, hrun⟩ := bind_eq_ok.mp hrun
  cases hq
  obtain ⟨q', hnext, hrest⟩ := bind_eq_ok.mp hrun
  have hdone := foldlM_done hrest
  obtain ⟨hokBefore, ⟨hnone, -⟩ | ⟨result', plan', e, hsucceeds, -⟩⟩ :=
    writeTarget_of_ok hnext fun r hr => hok r (hdone.subset hr)
  · cases hresult.symm.trans hnone
  · cases hresult.symm.trans hsucceeds.result_eq
    cases hplan.symm.trans hsucceeds.plan_eq
    exact ⟨hokBefore, e, hsucceeds.execute_eq, hsucceeds.failures_eq⟩

/-- All objects are laid over the document, one after the other, the first of them over what is left
of it without the keys of the last build. -/
theorem Layout.layered (h : w.Layout reports managed) (ht : t.WellFormed)
    (hroot : t.bytesAt w.root = none) (hplace : Leads path names) (hout : IsOutside names)
    (hrun : w.run previous t reports managed = .ok p) (hok : ∀ r ∈ p.done, r.ok = true)
    (hshares : Forall₂ (SharesAt path) reports overlays) :
    w.Layered previous t path names overlays p := by
  refine run_induct_succeeds (fun before p => ∀ overlays, Forall₂ (SharesAt path) before overlays →
    w.Layered previous t path names overlays p) ?_ ?_ ?_ hrun hok overlays hshares
  · intro overlays hnone
    cases hnone
    exact ⟨fun _ => rfl, fun hne => absurd rfl hne, Nat.zero_le _⟩
  · intro before report q _ hnone _ overlays hall
    obtain ⟨-, -, -, -, -, ⟨result, -, -, -, hresult, -⟩, -⟩ := forall₂_append_cons hall
    cases hresult.symm.trans hnone
  · intro before report after q result plan e _ _ _ hplanned hsucceeds hkeeps overlays hall
    obtain ⟨earlier, overlay, later, rfl, hearlier, hshares, hlater⟩ := forall₂_append_cons hall
    cases hlater
    obtain ⟨htallies, htree, hdir⟩ := h.planned_sound ht hroot hplanned
    obtain ⟨-, -, -, -, -, -, -, hnamed⟩ := h.plan_inv hplanned htree hdir
    exact (hkeeps earlier hearlier).after h.proper htallies htree hplace hout hplanned hnamed
      hsucceeds.execute_eq hsucceeds.failures_eq hshares

theorem Layout.isOutside_of_shares (h : w.Layout reports managed) (hplace : Leads path names)
    (hne : reports ≠ []) (hshares : Forall₂ (SharesAt path) reports overlays) :
    IsOutside names := by
  cases hshares with
  | nil => exact absurd rfl hne
  | cons hfirst _ =>
    obtain ⟨result, before, f, after, hresult, hfiles, -, rfl, -⟩ := hfirst
    obtain ⟨others, hleads, hout⟩ :=
      h.outputs _ mem_cons_self result hresult f (by simp [hfiles])
    rwa [← hleads.names_eq, hplace.names_eq] at hout

/-- Several targets that share a settings document lose nothing of each other. In the end it is what
was there before, less the keys of the last build, with the object of each target laid over it in
turn; the manifest has the keys of all of them. The file is copied away at most once, as it was
before. -/
theorem shared_document_keeps_every_merge (h : w.Layout reports managed) (ht : t.WellFormed)
    (hroot : t.bytesAt w.root = none) (hplace : Path.Leads path names) (hne : reports ≠ [])
    (hshares : List.Forall₂ (TargetReport.SharesAt path) reports overlays) {build : BuildReport}
    {t' : FileTree} (hwrite : w.write t reports managed = .ok (build, t')) (hok : build.ok = true) :
    ∃ (previous : Option Manifest) (bytes saved : ByteArray) (manifest : Manifest)
        (checksum : Text) (keys : List Text),
      Manifest.load t w.root = .ok previous ∧
      t'.bytesAt (w.root ++ names) = some bytes ∧
      Json.IsStored bytes (.obj (overlays.foldl Json.merge
        (Json.removePaths ((previous.getD {}).keysAt path) (t.objectAt (w.root ++ names))).1)) ∧
      t'.bytesAt (w.root ++ Manifest.names) = some saved ∧
      Text.bytes? (Json.write manifest.toJson) = some saved ∧
      manifest.get? path = some ⟨path, checksum, some (keys.map Json.str)⟩ ∧
      (∀ key, key ∈ keys ↔
        ∃ overlay ∈ overlays, key ∈ Json.keyPaths PlanContext.keyDepth overlay) ∧
      build.backups.count path ≤ 1 ∧
      ∀ report q plan attempt, w.Planned previous t reports managed report q plan →
        attempt ∈ w.tried q.tree plan.actions → attempt.1.path = path →
        (w.perform attempt.2 attempt.1).backedUp = true →
        ∃ old, t.bytesAt (w.root ++ names) = some old ∧
          w.HasCopy names old (w.perform attempt.2 attempt.1).tree := by
  obtain ⟨previous, p, manifest, hload, hrun, hmanifest, hsave, hdone⟩ := write_ok hwrite
  have hokDone : ∀ r ∈ p.done, r.ok = true := by
    rw [BuildReport.ok, hdone, List.all_eq_true] at hok
    exact hok
  have hout : IsOutside names := h.isOutside_of_shares hplace hne hshares
  obtain ⟨htallies, htree, -⟩ := h.run_sound ht hroot hrun
  have hlayered := h.layered ht hroot hplace hout hrun hokDone hshares
  obtain ⟨a, keys, bytes, hlast, howned, hkeys, hbytes, hstored⟩ := hlayered.document (by
    rintro rfl
    cases hshares
    exact hne rfl)
  have hchange := h.proper.save_changesAt htree manifest
  rw [hsave] at hchange
  have hsaved := Outcome.mapError_eq_ok.mp hsave
  rw [Manifest.location_eq] at hsaved
  obtain ⟨saved, hsavedBytes, hsavedAt⟩ :=
    FileTree.write_inv htree (h.proper.root.append Manifest.areProper_names) hsaved
  have hentry := htallies.get?_manifest htree h.proper.root hmanifest hlast hplace hbytes
  rw [howned] at hentry
  refine ⟨previous, bytes, saved, manifest, _, keys, hload, ?_, hstored, hsavedAt,
    hsavedBytes, hentry,
    hkeys, ?_, ?_⟩
  · rw [hchange.elsewhere (hout.ne_manifest w.root), hbytes]
  · rw [BuildReport.backups, hdone]
    exact hlayered.copies
  · intro report q plan attempt hplanned hattempt hpath hmade
    obtain ⟨hokBefore, e, he, hfailures⟩ := hplanned.succeeds hrun hokDone
    obtain ⟨before, after, hreports, hbefore⟩ := hplanned.reached
    obtain ⟨earlier, overlay, later, rfl, hearlier, hshares, -⟩ :=
      Outcome.forall₂_append_cons (hreports ▸ hshares)
    have hfirst := (hreports ▸ h).mono
    obtain ⟨htallies, htree, hdir⟩ := hfirst.run_sound ht hroot hbefore
    obtain ⟨-, -, -, -, -, -, -, hnamed⟩ := h.plan_inv hplanned htree hdir
    exact ((hfirst.layered ht hroot hplace hout hbefore hokBefore hearlier).copy_made h.proper
      htallies htree hplace hout hplanned hnamed he hfailures hshares hattempt hpath hmade).2

/-- An empty object of the user, and two targets with a key each for the same object in it. -/
def ownObjectTree : FileTree := ⟨[(["p", "s"], .file ⟨#[123, 125]⟩), (["p"], .dir)]⟩

def settingsReport (target path content : Text) : TargetReport :=
  { target, result := some { files := [⟨path, content, .sharedKeys⟩] } }

@[inherit_doc ownObjectTree]
def sharedReports : List TargetReport :=
  [settingsReport "t" "s" "\x7b\"a\":\x7b\"b\":\x7b\"x\":null\x7d\x7d\x7d",
    settingsReport "u" "s" "\x7b\"a\":\x7b\"b\":\x7b\"y\":null\x7d\x7d\x7d"]

private theorem sharedLayout : Layout ⟨["p"], "S"⟩ sharedReports [] :=
  .of_isOrderly (by decide +kernel) (by decide +kernel)

private def isNested (key : Text) : Json → Bool
  | .obj [(a, .obj [(b, .obj [(c, .null)])])] => decide (a = "a" ∧ b = "b" ∧ c = key)
  | _ => false

private theorem read_nested (h : checks (isNested key) (Json.read content) = true) :
    Json.read content = .ok (.obj [("a", .obj [("b", .obj [(key, .null)])])]) := by
  obtain ⟨v, hread, hnested⟩ := exists_of_checks h
  unfold isNested at hnested
  split at hnested
  · obtain ⟨rfl, rfl, rfl⟩ := of_decide_eq_true hnested
    exact hread
  · cases hnested

/-- The keys of both are in the document, and one copy is told of. -/
theorem shared_document_keeps_every_merge_of_two :
    ∃ (build : BuildReport) (t' : FileTree) (bytes : ByteArray) (keys : List Text),
      Workplace.write ⟨["p"], "S"⟩ ownObjectTree sharedReports [] = .ok (build, t') ∧
      t'.bytesAt ["p", "s"] = some bytes ∧
      Json.IsStored bytes (.obj [("a", .obj [("b", .obj [("x", .null), ("y", .null)])])]) ∧
      (∀ key, key ∈ keys ↔ key = "a.b") ∧ build.backups = ["s"] := by
  have hwrite : Outcome.checks
      (fun result => result.1.ok && decide (result.1.backups = [("s" : Text)]))
      (Workplace.write ⟨["p"], "S"⟩ ownObjectTree sharedReports []) = true := by decide +kernel
  obtain ⟨⟨build, t'⟩, hwritten, hok⟩ := Outcome.exists_of_checks hwrite
  obtain ⟨hok, hbackups⟩ := Bool.and_eq_true_iff.mp hok
  have hshares (target key : Text) {content : Text} (hchars : content.IsChars)
      (hread : Outcome.checks (isNested key) (Json.read content) = true) :
      (settingsReport target "s" content).SharesAt "s" [("a", .obj [("b", .obj [(key, .null)])])] :=
    ⟨_, [], _, [], rfl, rfl, by simp, rfl, rfl, read_nested hread,
      Json.isReadable_of_read hchars (read_nested hread)⟩
  have hleads : Path.Leads "s" ["s"] := Path.leads_of_isPlain (by decide +kernel)
  obtain ⟨previous, bytes, saved, manifest, checksum, keys, hload, hbytes, hstored, -, -, -, hkeys,
      -⟩ :=
    shared_document_keeps_every_merge sharedLayout
      (FileTree.wellFormed_of_isPlain (by decide +kernel))
      (FileTree.bytesAt_of_dir (t := ownObjectTree) (by decide +kernel)) hleads (by decide)
      (.cons (hshares "t" "x" (Text.isChars_ofChars _) (by decide +kernel))
        (.cons (hshares "u" "y" (Text.isChars_ofChars _) (by decide +kernel)) .nil)) hwritten hok
  cases hload
  have hempty : (ownObjectTree.objectAt ["p", "s"]).isEmpty = true := by decide +kernel
  have hobject : ownObjectTree.objectAt ["p", "s"] = [] := List.isEmpty_iff.mp hempty
  dsimp only [List.cons_append, List.nil_append] at hstored
  rw [hobject] at hstored
  refine ⟨build, t', bytes, keys, hwritten, hbytes, hstored, ?_, of_decide_eq_true hbackups⟩
  intro key
  rw [hkeys]
  have hpaths (inner : Text) : Json.keyPaths PlanContext.keyDepth
      [("a", .obj [("b", .obj [(inner, .null)])])] = ["a.b"] := rfl
  simp [hpaths]

/-- A document in the place of the manifest is overwritten when the manifest is saved. One that is
spelled otherwise than the files of a managed directory is removed, by its other path, after the
object was laid over it. -/
theorem settings_overwritten_and_removed :
    (∃ build t', Workplace.write ⟨["p"], "S"⟩ ⟨[(["p"], .dir)]⟩
        [settingsReport "t" ".agentrc/.manifest.json" "\x7b\"a\":null\x7d"] [] = .ok (build, t') ∧
      build.ok = true ∧
      ∀ bytes, t'.bytesAt ["p", ".agentrc", ".manifest.json"] = some bytes →
        ¬ Json.IsStored bytes (.obj [("a", .null)])) ∧
    ∀ spelling ∈ [(("b/x.md", "a/../b") : Text × Text), ("./b/x.md", "b")],
      ∃ build t', Workplace.write ⟨["p"], "S"⟩ upToDateTree
          [settingsReport "t" spelling.1 "\x7b\x7d"]
          [("t", [spelling.2])] = .ok (build, t') ∧
        build.ok = true ∧ t'.bytesAt ["p", "b", "x.md"] = none := by
  constructor
  · have hwrite : Outcome.checks (fun result => result.1.ok &&
        ((result.2.objectAt ["p", ".agentrc", ".manifest.json"]).get? "a").isNone)
        (Workplace.write ⟨["p"], "S"⟩ ⟨[(["p"], .dir)]⟩
          [settingsReport "t" ".agentrc/.manifest.json" "\x7b\"a\":null\x7d"] []) = true := by
      decide +kernel
    obtain ⟨⟨build, t'⟩, hwritten, hchecks⟩ := Outcome.exists_of_checks hwrite
    obtain ⟨hok, hnone⟩ := Bool.and_eq_true_iff.mp hchecks
    refine ⟨build, t', hwritten, hok, fun bytes hbytes hstored => ?_⟩
    rw [FileTree.objectAt_of_isStored hbytes hstored] at hnone
    cases hnone
  · intro spelling hspelling
    have hwrite : Outcome.checks
        (fun result => result.1.ok && (result.2.bytesAt ["p", "b", "x.md"]).isNone)
        (Workplace.write ⟨["p"], "S"⟩ upToDateTree [settingsReport "t" spelling.1 "\x7b\x7d"]
          [("t", [spelling.2])]) = true := by
      revert hspelling spelling
      decide +kernel
    obtain ⟨⟨build, t'⟩, hwritten, hchecks⟩ := Outcome.exists_of_checks hwrite
    obtain ⟨hok, hnone⟩ := Bool.and_eq_true_iff.mp hchecks
    exact ⟨build, t', hwritten, hok, Option.isNone_iff_eq_none.mp hnone⟩

end Workplace

end AgentConfig
