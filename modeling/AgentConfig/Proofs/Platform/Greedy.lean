import AgentConfig.Proofs.Output.Plan
import AgentConfig.Proofs.Platform.Precedence
import Mathlib.Algebra.Ring.Nat

namespace AgentConfig

open List

namespace Budget

variable {b : Budget} {decided : List Decision} {a : Allocation}

/-- A rule file, and whether it is kept. -/
abbrev Decision := RuleFile × Bool

def kept (decided : List Decision) : List OutputFile := (decided.filter (·.2)).map (·.1.file)

def keptSize (decided : List Decision) : Nat := ((kept decided).map (·.size)).sum

/-- A file is kept exactly if it fits beside those kept before it. -/
def IsGreedy (b : Budget) (decided : List Decision) : Prop :=
  ∀ i f keep, decided[i]? = some (f, keep) →
    (keep = true ↔ (keptSize (decided.take i) + f.file.size : Int) ≤ b.totalLimit)

/-- The complaints about one decision after others: the file is too large, and it is dropped. -/
def complaints (b : Budget) (before : List Decision) (d : Decision) : List Text :=
  (if b.itemLimit < d.1.file.size then [b.oversizeWarning d.1] else []) ++
    if d.2 then [] else [b.droppingWarning d.1 (keptSize before)]

def allComplaints (b : Budget) (decided : List Decision) : List Text :=
  (decided.mapIdx fun i d => b.complaints (decided.take i) d).flatten

theorem kept_append (decided more : List Decision) :
    kept (decided ++ more) = kept decided ++ kept more := by
  simp [kept]

theorem keptSize_append (decided more : List Decision) :
    keptSize (decided ++ more) = keptSize decided + keptSize more := by
  simp [keptSize, kept_append]

theorem allComplaints_concat (b : Budget) (decided : List Decision) (d : Decision) :
    b.allComplaints (decided ++ [d]) = b.allComplaints decided ++ b.complaints decided d := by
  have hearlier : decided.mapIdx (fun i e => b.complaints ((decided ++ [d]).take i) e) =
      decided.mapIdx fun i e => b.complaints (decided.take i) e := by
    refine mapIdx_eq_mapIdx_iff.mpr fun i hi => ?_
    rw [take_append_of_le_length (Nat.le_of_lt hi)]
  rw [allComplaints, mapIdx_append, hearlier]
  simp [allComplaints]

theorem IsGreedy.concat (h : b.IsGreedy decided) {f : RuleFile} {keep : Bool}
    (hkeep : keep = true ↔ (keptSize decided + f.file.size : Int) ≤ b.totalLimit) :
    b.IsGreedy (decided ++ [(f, keep)]) := by
  intro i g other hi
  by_cases hearlier : i < decided.length
  · rw [List.getElem?_append_left hearlier] at hi
    rw [take_append_of_le_length (Nat.le_of_lt hearlier)]
    exact h i g other hi
  have hlast : i = decided.length := by
    have hbound := (List.getElem?_eq_some_iff.mp hi).1
    rw [length_append, length_singleton] at hbound
    omega
  rw [hlast, getElem?_concat_length] at hi
  cases hi
  rwa [hlast, take_left]

/-- What an allocation owes to the decisions that were made. -/
structure Describes (b : Budget) (decided : List Decision) (a : Allocation) : Prop where
  greedy : b.IsGreedy decided
  files : a.files = kept decided
  total : a.total = keptSize decided
  warnings : a.warnings = b.allComplaints decided

theorem Describes.take (h : b.Describes decided a) (f : RuleFile) :
    b.Describes (decided ++ [(f, b.fits a.total f.file.size)]) (b.take a f) := by
  refine ⟨h.greedy.concat ?_, ?_, ?_, ?_⟩
  · rw [fits, decide_eq_true_eq, h.total]
  · rw [kept_append, ← h.files, Budget.take]
    by_cases hfit : b.fits a.total f.file.size = true
    · simp [hfit, kept]
    · simp [hfit, kept]
  · rw [keptSize_append, ← h.total, Budget.take]
    by_cases hfit : b.fits a.total f.file.size = true
    · simp [hfit, keptSize, kept]
    · simp [hfit, keptSize, kept]
  · rw [allComplaints_concat, ← h.warnings, complaints, ← h.total, Budget.take]
    by_cases hfit : b.fits a.total f.file.size = true
    · simp [hfit]
    · simp [hfit]

end Budget

namespace Budget

end Budget

end AgentConfig
