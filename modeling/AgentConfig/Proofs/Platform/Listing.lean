import AgentConfig.Proofs.Platform.Distinct

namespace AgentConfig

open List

variable {i j n : Nat}

namespace Text

theorem le_append_left (s a b : Text) : le (s ++ a) (s ++ b) = le a b := by
  induction s with
  | nil => rfl
  | cons l s ih => simpa [le] using ih

theorem le_cons_of_ne {a b : Letter} (h : a ≠ b) (as bs : Text) :
    le (a :: as) (b :: bs) = decide (a.code ≤ b.code) := by
  rw [le, if_neg h]

def digit (n : Nat) : Letter := .char (Nat.digitChar n)

theorem padded_two (hn : n < 100) : padded 2 n = [digit (n / 10), digit (n % 10)] := by
  revert n
  decide +kernel

theorem digit_lt : ∀ b < 10, ∀ a < b, digit a ≠ digit b ∧ (digit a).code ≤ (digit b).code := by
  decide

theorem le_padded (hij : i < j) (hj : j < 100) (s t : Text) :
    le (padded 2 i ++ s) (padded 2 j ++ t) = true := by
  rw [padded_two hj, padded_two (Nat.lt_trans hij hj)]
  simp only [cons_append, nil_append]
  rcases Nat.lt_or_eq_of_le (Nat.div_le_div_right (c := 10) (Nat.le_of_lt hij)) with htens | htens
  · obtain ⟨hne, hle⟩ := digit_lt (j / 10) (by omega) _ htens
    rw [le_cons_of_ne hne]
    exact decide_eq_true hle
  · obtain ⟨hne, hle⟩ := digit_lt (j % 10) (by omega) (i % 10) (by omega)
    rw [htens, le, if_pos rfl, le_cons_of_ne hne]
    exact decide_eq_true hle

end Text

namespace Profile

def numberedPath (number : Nat) (name : Text) : Text :=
  ".clinerules/" ++ (Text.padded 2 number ++ ("-" ++ name ++ ".md"))

theorem le_numberedPath (hij : i < j) (hj : j < 100) (name other : Text) :
    Text.le (numberedPath i name) (numberedPath j other) = true := by
  rw [numberedPath, numberedPath, Text.le_append_left]
  exact Text.le_padded hij hj _ _

theorem filed_cline (rules : List Rule) :
    cline.filed rules = rules.map (·, Template.around ".clinerules/" ".md") := by
  induction rules with
  | nil => rfl
  | cons r rest ih =>
    have hpath : (cline.rules r.scope).path = some (Template.around ".clinerules/" ".md") := by
      cases r.scope <;> rfl
    rw [filed, filterMap_cons_some (by rw [hpath, Option.map_some]), map_cons, ← ih, filed]

theorem ruleFiles_cline (rules : List Rule) : (cline.ruleFiles rules).map (·.rule) = rules ∧
    (cline.ruleFiles rules).map (·.file.path) =
      rules.zipIdx.map fun (r, i) => numberedPath (i + 1) r.name := by
  simp only [ruleFiles_eq, filed_cline, zipIdx_map, map_map]
  constructor
  · exact zipIdx_map_fst 0 rules
  · refine map_congr_left fun entry _ => ?_
    simp [ruleFile, Naming.fileName, cline, numberedPath, Template.fill, Template.around,
      Text.intercalate, List.intercalate]

theorem path_conventionsFile_cline {g : Guidance} {page : OutputFile}
    (h : cline.conventionsFile g = some page) :
    page.path = numberedPath 0 "agentrc-conventions" := by
  have hpath : page.path = ".clinerules/00-agentrc-conventions.md" := covers_conventionsFile h
  rw [hpath]
  decide +kernel

def meantOrder (g : Guidance) : List Text :=
  ((cline.conventionsFile g).toList ++ (cline.ruleFiles g.rules).map (·.file)).map (·.path)

theorem meantOrder_eq (g : Guidance) : meantOrder g =
    (cline.conventionsFile g).toList.map (fun _ => numberedPath 0 "agentrc-conventions") ++
      g.rules.zipIdx.map fun (r, i) => numberedPath (i + 1) r.name := by
  rw [meantOrder, map_append, map_map, ← (ruleFiles_cline g.rules).2]
  refine congrArg (· ++ _) (map_congr_left fun page hpage => ?_)
  exact path_conventionsFile_cline (Option.mem_toList.mp hpage)

theorem pairwise_meantOrder_iff (g : Guidance) :
    (meantOrder g).Pairwise (fun a b => Text.le a b = true) ↔ g.rules.length < 100 := by
  rw [meantOrder_eq, pairwise_append]
  constructor
  · rintro ⟨-, h, -⟩
    by_contra hlong
    have hle := pairwise_iff_getElem.mp h 10 99 (by simp; omega) (by simp; omega) (by decide)
    have heleven : Text.padded 2 ((11 : Nat) : Int) = "11" := by decide
    have hhundred : Text.padded 2 ((100 : Nat) : Int) = "100" := by decide
    simp only [getElem_map, getElem_zipIdx, numberedPath, Text.le_append_left,
      Nat.zero_add, Nat.reduceAdd, heleven, hhundred] at hle
    exact absurd hle (by simp [Text.ofString, Text.ofChars, Text.le, Letter.code])
  · intro hshort
    refine ⟨?_, ?_, ?_⟩
    · cases cline.conventionsFile g <;> simp
    · rw [pairwise_iff_getElem]
      intro i j hi hj hij
      simp only [length_map, length_zipIdx] at hi hj
      simp only [getElem_map, getElem_zipIdx, Nat.zero_add]
      exact le_numberedPath (by omega) (by omega) _ _
    · intro a ha b hb
      obtain ⟨page, -, rfl⟩ := mem_map.mp ha
      obtain ⟨⟨r, i⟩, hr, rfl⟩ := mem_map.mp hb
      have hi := (mem_zipIdx hr).2.1
      exact le_numberedPath (by omega) (by omega) _ _

/-- All files of the platform lie in one directory, and there is one for each rule. A listing of the
directory by code point shows the page of folded guidance first and then the files of the rules in
their order exactly if there are fewer than a hundred rules. -/
theorem listing_follows_rules_iff (g : Guidance) :
    (∀ f ∈ (cline.generate g).files, ".clinerules/" <+: f.path) ∧
    (cline.ruleFiles g.rules).map (·.rule) = g.rules ∧
    (Text.sort ((cline.generate g).files.map (·.path)) = meantOrder g ↔ g.rules.length < 100) := by
  have hfiles : (cline.generate g).files =
      (cline.ruleFiles g.rules).map (·.file) ++ (cline.conventionsFile g).toList := by
    simp [generate, allocate, allocateAll, cline, instructionsFile, featureFiles_eq, hookFiles,
      otherFiles, nativeFiles]
  have hperm : ((cline.generate g).files.map (·.path)).Perm (meantOrder g) := by
    rw [hfiles]
    exact List.perm_append_comm.map _
  refine ⟨fun f hf => ?_, (ruleFiles_cline g.rules).1, ?_⟩
  · have hmem : f.path ∈ meantOrder g := hperm.subset (List.mem_map_of_mem hf)
    rw [meantOrder_eq, List.mem_append, List.mem_map, List.mem_map] at hmem
    obtain ⟨_, -, hpath⟩ | ⟨_, -, hpath⟩ := hmem
    · exact hpath ▸ List.prefix_append _ _
    · exact hpath ▸ List.prefix_append _ _
  · rw [← pairwise_meantOrder_iff]
    constructor
    · intro h
      exact h ▸ Text.pairwise_sort _
    · intro h
      refine ((List.mergeSort_perm _ _).trans hperm).eq_of_pairwise ?_ (Text.pairwise_sort _) h
      exact fun _ _ _ _ => Text.le_antisymm

end Profile

end AgentConfig
