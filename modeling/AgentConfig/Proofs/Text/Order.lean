import AgentConfig.Path

namespace AgentConfig

variable {a b c : Letter} {as bs cs : List Text}

theorem filter_mergeSort {α : Type} {le : α → α → Bool} {keep : α → Bool}
    (htrans : ∀ a b c, le a b → le b c → le a c) (htotal : ∀ a b, le a b || le b a)
    (hequal : ∀ a b, keep a → keep b → le a b) (l : List α) :
    (l.mergeSort le).filter keep = l.filter keep := by
  have hordered : (l.filter keep).Pairwise fun a b => le a b := by
    refine List.pairwise_iff_forall_sublist.mpr fun {a b} hpair => ?_
    have hkept : ∀ c ∈ [a, b], keep c := fun c hc => (List.mem_filter.mp (hpair.mem hc)).2
    exact hequal a b (hkept a (by simp)) (hkept b (by simp))
  have hsub := (List.sublist_mergeSort htrans htotal hordered List.filter_sublist).filter keep
  rw [List.filter_filter] at hsub
  simp only [Bool.and_self] at hsub
  refine (hsub.eq_of_length ?_).symm
  exact ((List.mergeSort_perm l _).filter _).length_eq.symm

/-- Whether a list comes before another: they are compared where they first differ, and a list comes
before those it starts. -/
def comesFirst {α : Type} [DecidableEq α] (le : α → α → Bool) : List α → List α → Bool
  | [], _ => true
  | _ :: _, [] => false
  | a :: as, b :: bs => if a = b then comesFirst le as bs else le a b

section ComesFirst

variable {α : Type} [DecidableEq α] {le : α → α → Bool}

theorem comesFirst_total (htotal : ∀ a b, (le a b || le b a) = true) (as bs : List α) :
    (comesFirst le as bs || comesFirst le bs as) = true := by
  induction as generalizing bs with
  | nil => simp [comesFirst]
  | cons a as ih =>
    cases bs with
    | nil => simp [comesFirst]
    | cons b bs =>
      by_cases h : a = b
      · simpa [comesFirst, h] using ih bs
      · simpa [comesFirst, h, Ne.symm h] using htotal a b

theorem comesFirst_antisymm (hanti : ∀ a b, le a b = true → le b a = true → a = b)
    {as bs : List α} (hab : comesFirst le as bs = true) (hba : comesFirst le bs as = true) :
    as = bs := by
  induction as generalizing bs with
  | nil =>
    cases bs with
    | nil => rfl
    | cons b bs => simp [comesFirst] at hba
  | cons a as ih =>
    cases bs with
    | nil => simp [comesFirst] at hab
    | cons b bs =>
      by_cases h : a = b
      · subst h
        simp only [comesFirst, if_true] at hab hba
        rw [ih hab hba]
      · simp only [comesFirst, h, Ne.symm h, if_false] at hab hba
        exact absurd (hanti a b hab hba) h

theorem comesFirst_trans (htrans : ∀ a b c, le a b = true → le b c = true → le a c = true)
    (hanti : ∀ a b, le a b = true → le b a = true → a = b) {as bs cs : List α}
    (hab : comesFirst le as bs = true) (hbc : comesFirst le bs cs = true) :
    comesFirst le as cs = true := by
  induction as generalizing bs cs with
  | nil => simp [comesFirst]
  | cons a as ih =>
    match bs, cs with
    | [], _ => simp [comesFirst] at hab
    | _ :: _, [] => simp [comesFirst] at hbc
    | b :: bs, c :: cs =>
      by_cases h : a = b
      · subst h
        by_cases h' : a = c
        · simp only [comesFirst, h', if_true] at hab hbc ⊢
          exact ih hab hbc
        · simpa [comesFirst, h'] using hbc
      · have hle : le a b = true := by simpa [comesFirst, h] using hab
        by_cases h' : b = c
        · subst h'
          simpa [comesFirst, h] using hle
        have hle' : le b c = true := by simpa [comesFirst, h'] using hbc
        -- The first letter goes strictly up, so it cannot come back to where it was.
        have hne : a ≠ c := by
          rintro rfl
          exact h (hanti a b hle hle')
        simpa [comesFirst, hne] using htrans a b c hle hle'

end ComesFirst

theorem Letter.code_injective (h : a.code = b.code) : a = b := by
  -- A character never has the number of a half.
  have hapart (c : Char) (place : Fin 0x800) : c.toNat ≠ 0xD800 + place.val := by
    intro heq
    have hvalid : c.toNat < 0xD800 ∨ 0xDFFF < c.toNat ∧ c.toNat < 0x110000 := c.valid
    omega
  cases a with
  | char c =>
    cases b with
    | char d => exact congrArg _ (Char.toNat_inj.mp h)
    | half place => exact absurd h (hapart c place)
  | half place =>
    cases b with
    | char d => exact absurd h.symm (hapart d place)
    | half other => exact congrArg _ (Fin.ext (Nat.add_left_cancel h))

def Letter.le (a b : Letter) : Bool := a.code ≤ b.code

theorem Letter.le_total (a b : Letter) : (a.le b || b.le a) = true := by
  simp only [Letter.le, Bool.or_eq_true, decide_eq_true_eq]
  exact Nat.le_total _ _

theorem Letter.le_trans (hab : a.le b = true) (hbc : b.le c = true) : a.le c = true := by
  simp only [Letter.le, decide_eq_true_eq] at hab hbc ⊢
  exact Nat.le_trans hab hbc

theorem Letter.le_antisymm (hab : a.le b = true) (hba : b.le a = true) : a = b := by
  simp only [Letter.le, decide_eq_true_eq] at hab hba
  exact Letter.code_injective (Nat.le_antisymm hab hba)

namespace Text

theorem le_eq_comesFirst (a b : Text) : le a b = comesFirst Letter.le a b := by
  induction a generalizing b with
  | nil => simp [le, comesFirst]
  | cons l rest ih => cases b <;> simp [le, comesFirst, ih, Letter.le]

theorem le_total (a b : Text) : (le a b || le b a) = true := by
  rw [le_eq_comesFirst, le_eq_comesFirst]
  exact comesFirst_total Letter.le_total a b

theorem le_trans {a b c : Text} (hab : le a b = true) (hbc : le b c = true) : le a c = true := by
  rw [le_eq_comesFirst] at hab hbc ⊢
  refine comesFirst_trans ?_ ?_ hab hbc
  · exact fun _ _ _ => Letter.le_trans
  · exact fun _ _ => Letter.le_antisymm

theorem le_antisymm {a b : Text} (hab : le a b = true) (hba : le b a = true) : a = b := by
  rw [le_eq_comesFirst] at hab hba
  exact comesFirst_antisymm (fun _ _ => Letter.le_antisymm) hab hba

theorem pairwise_sort (ts : List Text) : (sort ts).Pairwise fun a b => le a b = true := by
  apply List.pairwise_mergeSort
  · exact fun _ _ _ => le_trans
  · exact le_total

end Text

namespace Path

theorem le_eq_comesFirst (as bs : List Text) : le as bs = comesFirst Text.le as bs := by
  induction as generalizing bs with
  | nil => simp [le, comesFirst]
  | cons a as ih => cases bs <;> simp [le, comesFirst, ih]

theorem le_total (as bs : List Text) : (le as bs || le bs as) = true := by
  rw [le_eq_comesFirst, le_eq_comesFirst]
  exact comesFirst_total Text.le_total as bs

theorem le_trans (hab : le as bs = true) (hbc : le bs cs = true) : le as cs = true := by
  rw [le_eq_comesFirst] at hab hbc ⊢
  refine comesFirst_trans ?_ ?_ hab hbc
  · exact fun _ _ _ => Text.le_trans
  · exact fun _ _ => Text.le_antisymm

theorem le_antisymm (hab : le as bs = true) (hba : le bs as = true) : as = bs := by
  rw [le_eq_comesFirst] at hab hba
  exact comesFirst_antisymm (fun _ _ => Text.le_antisymm) hab hba

end Path

end AgentConfig
