import AgentConfig.Platform.Default
import AgentConfig.Proofs.Platform.Passes
import AgentConfig.Proofs.Text.Order
import Mathlib.Data.List.Sort

namespace AgentConfig

open List

section Ranks

variable {α : Type} {rank : α → Nat}

theorem pairwise_rank_mergeSort (rank : α → Nat) (l : List α) :
    (l.mergeSort fun a b => decide (rank a ≤ rank b)).Pairwise fun a b => rank a ≤ rank b := by
  have hsorted : (l.mergeSort fun a b => decide (rank a ≤ rank b)).Pairwise
      fun a b => decide (rank a ≤ rank b) = true :=
    pairwise_mergeSort (fun a b c hab hbc => by simp only [decide_eq_true_eq] at *; omega)
      (fun a b => by simp only [Bool.or_eq_true, decide_eq_true_eq]; omega) l
  exact hsorted.imp of_decide_eq_true

theorem filter_rank_mergeSort (rank : α → Nat) (k : Nat) (l : List α) :
    (l.mergeSort fun a b => decide (rank a ≤ rank b)).filter (rank · == k) =
      l.filter (rank · == k) := by
  apply filter_mergeSort
  · intro a b c
    simp only [decide_eq_true_eq]
    omega
  · intro a b
    simp only [Bool.or_eq_true, decide_eq_true_eq]
    omega
  · intro a b ha hb
    simp_all

theorem eq_of_ranks {s t : List α} (hs : s.Pairwise fun a b => rank a ≤ rank b)
    (ht : t.Pairwise fun a b => rank a ≤ rank b)
    (h : ∀ k, s.filter (rank · == k) = t.filter (rank · == k)) : s = t := by
  induction s generalizing t with
  | nil =>
    cases t with
    | nil => rfl
    | cons b t => simpa using h (rank b)
  | cons a s ih =>
    cases t with
    | nil => simpa using h (rank a)
    | cons b t =>
      have hle {x y : α} {xs ys : List α} (hys : (y :: ys).Pairwise fun a b => rank a ≤ rank b)
          (hfilter : (x :: xs).filter (rank · == rank x) = (y :: ys).filter (rank · == rank x)) :
          rank y ≤ rank x := by
        have hmem : x ∈ (y :: ys).filter (rank · == rank x) := hfilter ▸ by simp
        rcases mem_cons.mp (mem_of_mem_filter hmem) with rfl | hx
        · exact Nat.le_refl _
        · exact (pairwise_cons.mp hys).1 x hx
      have hrank : rank b = rank a := Nat.le_antisymm (hle ht (h _)) (hle hs (h _).symm)
      have hfirst := h (rank a)
      rw [filter_cons_of_pos (by simp), filter_cons_of_pos (by simp [hrank])] at hfirst
      obtain ⟨rfl, -⟩ := List.cons.inj hfirst
      refine congrArg _ (ih hs.of_cons ht.of_cons fun k => ?_)
      have hk := h k
      by_cases hka : rank a = k
      · simpa [hka] using hk
      · simpa [hka] using hk

theorem mergeSort_eq_append (rank : α → Nat) (r : Nat) (l : List α) :
    (l.mergeSort fun a b => decide (rank a ≤ rank b)) =
      ((l.filter (rank · ≤ r)).mergeSort fun a b => decide (rank a ≤ rank b)) ++
        (l.filter (r < rank ·)).mergeSort fun a b => decide (rank a ≤ rank b) := by
  refine eq_of_ranks (pairwise_rank_mergeSort rank l) ?_ fun k => ?_
  · refine pairwise_append.mpr
      ⟨pairwise_rank_mergeSort _ _, pairwise_rank_mergeSort _ _, fun a ha b hb => ?_⟩
    simp only [mem_mergeSort, mem_filter, decide_eq_true_eq] at ha hb
    omega
  · simp only [filter_append, filter_rank_mergeSort, filter_filter]
    by_cases hk : k ≤ r
    · have hlow : ∀ a ∈ l, (rank a == k && decide (rank a ≤ r)) = (rank a == k) := by
        intro a _
        by_cases ha : rank a = k <;> simp [ha, hk]
      have hhigh : ∀ a ∈ l, ¬ (rank a == k && decide (r < rank a)) = true := by
        simp only [Bool.and_eq_true, beq_iff_eq, decide_eq_true_eq]
        omega
      rw [filter_congr hlow, filter_eq_nil_iff.mpr hhigh, append_nil]
    · have hlow : ∀ a ∈ l, ¬ (rank a == k && decide (rank a ≤ r)) = true := by
        simp only [Bool.and_eq_true, beq_iff_eq, decide_eq_true_eq]
        omega
      have hhigh : ∀ a ∈ l, (rank a == k && decide (r < rank a)) = (rank a == k) := by
        intro a _
        by_cases ha : rank a = k
        · simp [ha, Nat.lt_of_not_le hk]
        · simp [ha]
      rw [filter_congr hhigh, filter_eq_nil_iff.mpr hlow, nil_append]

end Ranks

/-- What a rule brings about: its file, if there is room for it, and the complaints about it. -/
structure Share where
  rule : Rule
  files : List OutputFile
  warnings : List Text

namespace Budget

/-- The share of a rule file when `total` characters are taken already. -/
def share (b : Budget) (total : Nat) (f : RuleFile) : Share :=
  ⟨f.rule, (b.take { total } f).files, (b.take { total } f).warnings⟩

/-- The shares of rule files that are considered one after the other. -/
def shares (b : Budget) (total : Nat) : List RuleFile → List Share
  | [] => []
  | f :: rest => b.share total f :: b.shares (b.take { total } f).total rest

theorem take_eq (b : Budget) (a : Allocation) (f : RuleFile) :
    b.take a f = ⟨a.files ++ (b.share a.total f).files, a.warnings ++ (b.share a.total f).warnings,
      (b.take { total := a.total } f).total⟩ := by
  unfold share take
  by_cases hfits : b.fits a.total f.file.size = true
  · simp [hfits]
  · simp [hfits]

theorem foldl_take (b : Budget) (files : List RuleFile) (a : Allocation) :
    (files.foldl b.take a).files = a.files ++ (b.shares a.total files).flatMap (·.files) ∧
      (files.foldl b.take a).warnings =
        a.warnings ++ (b.shares a.total files).flatMap (·.warnings) := by
  induction files generalizing a with
  | nil => simp [shares]
  | cons f rest ih =>
    obtain ⟨hfiles, hwarnings⟩ := ih (b.take a f)
    have htotal : (b.take a f).total = (b.take { total := a.total } f).total := by
      rw [take_eq b a f]
    rw [foldl_cons, hfiles, hwarnings, htotal, take_eq b a f]
    simp [shares]

theorem shares_append (b : Budget) (total : Nat) (files others : List RuleFile) :
    ∃ taken, b.shares total (files ++ others) = b.shares total files ++ b.shares taken others := by
  induction files generalizing total with
  | nil => exact ⟨total, rfl⟩
  | cons f rest ih =>
    obtain ⟨taken, htaken⟩ := ih (b.take { total } f).total
    exact ⟨taken, by rw [cons_append, shares, shares, htaken, cons_append]⟩

theorem map_rule_shares (b : Budget) (total : Nat) (files : List RuleFile) :
    (b.shares total files).map (·.rule) = files.map (·.rule) := by
  induction files generalizing total with
  | nil => rfl
  | cons f rest ih => simp [shares, share, ih]

theorem exists_of_mem_shares {b : Budget} {total : Nat} {files : List RuleFile} {s : Share}
    (h : s ∈ b.shares total files) : ∃ f ∈ files, ∃ taken, s = b.share taken f := by
  induction files generalizing total with
  | nil => cases h
  | cons f rest ih =>
    rcases mem_cons.mp h with rfl | hrest
    · exact ⟨f, mem_cons_self, total, rfl⟩
    · obtain ⟨other, hother, taken, rfl⟩ := ih hrest
      exact ⟨other, mem_cons_of_mem _ hother, taken, rfl⟩

theorem allocate_eq (b : Budget) (files : List RuleFile) (page : Option OutputFile) :
    (b.allocate files page).files =
        (b.shares 0 (byPriority files)).flatMap (·.files) ++ page.toList ∧
      ∃ late, (b.allocate files page).warnings =
          (b.shares 0 (byPriority files)).flatMap (·.warnings) ++ late ∧
        ∀ w ∈ late, ∃ f ∈ page, w = b.overflowWarning f := by
  obtain ⟨hfiles, hwarnings⟩ := b.foldl_take (byPriority files) {}
  cases page with
  | none => exact ⟨by simp [allocate, hfiles], [], by simp [allocate, hwarnings], by simp⟩
  | some f =>
    refine ⟨by simp [allocate, takeAggregate, hfiles], _,
      by simp only [allocate, takeAggregate, hwarnings]; rfl, ?_⟩
    split <;> simp

end Budget

namespace Profile

/-- What is generated consists of the shares of the rules, the most urgent first, and then of what
belongs to no rule. Every share is that of the rule's own file. -/
structure IsSharedOut (p : Profile) (b : Budget) (g : Guidance) (shares : List Share) : Prop where
  rules : shares.map (·.rule) = sortByPriority g.rules
  own : ∀ s ∈ shares, ∃ f ∈ p.ruleFiles g.rules, f.rule = s.rule ∧ ∃ taken, s = b.share taken f
  files : (p.generate g).files = shares.flatMap (·.files) ++
    ((p.conventionsFile g).toList ++ (p.instructionsFile g).toList ++ p.featureFiles g)
  warnings : ∃ late, (p.generate g).warnings = shares.flatMap (·.warnings) ++ late ∧
    ∀ w ∈ late, ∃ page ∈ p.conventionsFile g, w = b.overflowWarning page

/-- The shares `urgent` are those of the rules up to a rank, and the first of all. -/
def ServesFirst (p : Profile) (b : Budget) (g : Guidance) (rank : Nat) (urgent : List Share) :
    Prop :=
  (∀ s ∈ urgent, s.rule.priority.rank ≤ rank) ∧
    ∃ others, (∀ s ∈ others, rank < s.rule.priority.rank) ∧ p.IsSharedOut b g (urgent ++ others)

def windsurfBudget : Budget := { target := "windsurf" }

def windsurfFile (r : Rule) : RuleFile :=
  windsurf.ruleFile r (.around ".windsurf/rules/" ".md") 0

theorem ruleFiles_windsurf (rules : List Rule) :
    windsurf.ruleFiles rules = rules.map windsurfFile := by
  have hfiled : windsurf.filed rules =
      rules.map fun r => (r, Template.around ".windsurf/rules/" ".md") := by
    rw [filed, ← filterMap_eq_map]
    refine filterMap_congr fun r _ => ?_
    cases h : r.scope <;> simp [windsurf, nativeRules]
  rw [ruleFiles_eq, hfiled]
  have hplace (r : Rule) (position : Nat) :
      windsurf.ruleFile r (.around ".windsurf/rules/" ".md") position = windsurfFile r := rfl
  refine ext_getElem (by simp) fun i _ _ => ?_
  simp [hplace]

theorem byPriority_windsurf (rules : List Rule) :
    Budget.byPriority (windsurf.ruleFiles rules) = (sortByPriority rules).map windsurfFile := by
  rw [ruleFiles_windsurf, Budget.byPriority, sortByPriority]
  refine (map_mergeSort (f := windsurfFile) ?_).symm
  exact fun a _ b _ => rfl

theorem isSharedOut_windsurf (g : Guidance) : windsurf.IsSharedOut windsurfBudget g
      (windsurfBudget.shares 0 ((sortByPriority g.rules).map windsurfFile)) := by
  obtain ⟨hfiles, late, hwarnings, hlate⟩ :=
    windsurfBudget.allocate_eq (windsurf.ruleFiles g.rules) (windsurf.conventionsFile g)
  rw [byPriority_windsurf] at hfiles hwarnings
  refine ⟨?_, ?_, ?_, late, hwarnings, hlate⟩
  · rw [Budget.map_rule_shares, map_map]
    exact map_id _
  · intro s hs
    obtain ⟨f, hf, taken, rfl⟩ := Budget.exists_of_mem_shares hs
    refine ⟨f, ?_, rfl, taken, rfl⟩
    rw [ruleFiles_windsurf]
    obtain ⟨r, hr, rfl⟩ := mem_map.mp hf
    exact mem_map_of_mem (mem_mergeSort.mp hr)
  · have hgenerate : (windsurf.generate g).files =
        (windsurfBudget.allocate (windsurf.ruleFiles g.rules) (windsurf.conventionsFile g)).files ++
          (windsurf.instructionsFile g).toList ++ windsurf.featureFiles g := rfl
    rw [hgenerate, hfiles]
    simp only [append_assoc]

/-- Two sets of guidance with the same rules up to a rank give those rules the same files, in the
same order and before all others, and the same complaints, whatever else there is in either. -/
theorem urgent_rules_keep_their_place (rank : Nat) {g h : Guidance}
    (hrules : g.rules.filter (·.priority.rank ≤ rank) = h.rules.filter (·.priority.rank ≤ rank)) :
    ∃ urgent : List Share, windsurf.ServesFirst windsurfBudget g rank urgent ∧
      windsurf.ServesFirst windsurfBudget h rank urgent := by
  have hfirst (k : Guidance) : windsurf.ServesFirst windsurfBudget k rank (windsurfBudget.shares 0
      ((sortByPriority (k.rules.filter (·.priority.rank ≤ rank))).map windsurfFile)) := by
    have hsorted : sortByPriority k.rules =
        sortByPriority (k.rules.filter (·.priority.rank ≤ rank)) ++
          sortByPriority (k.rules.filter (rank < ·.priority.rank)) :=
      mergeSort_eq_append (fun r : Rule => r.priority.rank) rank k.rules
    have hshares := isSharedOut_windsurf k
    rw [hsorted, List.map_append] at hshares
    obtain ⟨taken, htaken⟩ := windsurfBudget.shares_append 0
      ((sortByPriority (k.rules.filter (·.priority.rank ≤ rank))).map windsurfFile)
      ((sortByPriority (k.rules.filter (rank < ·.priority.rank))).map windsurfFile)
    rw [htaken] at hshares
    have hof {rules : List Rule} {total : Nat} {s : Share}
        (hs : s ∈ windsurfBudget.shares total ((sortByPriority rules).map windsurfFile)) :
        s.rule ∈ rules := by
      have hmem : s.rule ∈ (windsurfBudget.shares total
          ((sortByPriority rules).map windsurfFile)).map (·.rule) := List.mem_map_of_mem hs
      rw [Budget.map_rule_shares, List.map_map] at hmem
      obtain ⟨r, hr, hrule⟩ := List.mem_map.mp hmem
      exact hrule ▸ List.mem_mergeSort.mp hr
    exact ⟨fun s hs => by simpa using (List.mem_filter.mp (hof hs)).2, _,
      fun s hs => by simpa using (List.mem_filter.mp (hof hs)).2, hshares⟩
  exact ⟨_, hfirst g, hrules ▸ hfirst h⟩

/-- Nothing is left of the budget for the second rule, with or without the others around it. -/
theorem urgent_rules_keep_their_place_among_others :
    ∃ g h : Guidance, g.rules.length = 4 ∧ h.rules.length = 2 ∧ g.hooks ≠ [] ∧
      g.rules.filter (·.priority.rank ≤ 1) = h.rules.filter (·.priority.rank ≤ 1) ∧
      ∃ urgent : List Share, windsurf.ServesFirst windsurfBudget g 1 urgent ∧
        windsurf.ServesFirst windsurfBudget h 1 urgent := by
  let first : Rule := { name := "a", priority := .high, content := List.replicate 11900 'x' }
  let second : Rule := { name := "b", priority := .high, content := List.replicate 900 'y' }
  let small : Rule := { name := "c", content := "z" }
  let late : Rule := { name := "d", priority := .low }
  exact ⟨{ rules := [late, first, small, second], hooks := [{ event := .preCommit, run := "x" }] },
    { rules := [first, second] }, rfl, rfl, List.cons_ne_nil _ _, rfl,
    urgent_rules_keep_their_place 1 rfl⟩

end Profile

end AgentConfig
