import AgentConfig.Yaml.Cursor

namespace AgentConfig.Yaml

open List

/-- Visible ASCII: the characters of a printed text that are neither spaces nor line breaks. -/
def IsInk (c : Char) : Prop := 0x20 < c.toNat ∧ c.toNat < 0x7F

instance (c : Char) : Decidable (IsInk c) := by unfold IsInk; infer_instance

namespace IsInk

variable {c d : Char}

theorem ne (h : IsInk c) (hd : ¬ IsInk d) : c ≠ d := fun hcd => hd (hcd ▸ h)

theorem isBreak (h : IsInk c) : isBreak c = false := by
  have h₁ := h.ne (d := '\n') (by decide)
  have h₂ := h.ne (d := '\r') (by decide)
  have h₃ := h.ne (d := '\x85') (by decide)
  have h₄ := h.ne (d := '\u2028') (by decide)
  have h₅ := h.ne (d := '\u2029') (by decide)
  simp [Yaml.isBreak, h₁, h₂, h₃, h₄, h₅]

theorem isEndOrBlank (h : IsInk c) : isEndOrBlank (some c) = false := by
  have h₁ := h.ne (d := ' ') (by decide)
  have h₂ := h.ne (d := '\t') (by decide)
  simp [Yaml.isEndOrBlank, h.isBreak, h₁, h₂]

end IsInk

namespace Cursor

variable {c : Cursor} {run tail : List Char} {p : Char → Bool}

@[simp] theorem limit_advance (c : Cursor) : c.advance.limit = c.limit := by
  unfold advance
  split
  · rfl
  · split
    · rfl
    · split <;> rfl

theorem rest_advance (c : Cursor) : c.advance.rest = c.rest.tail := by
  unfold advance
  split
  next h => rw [h]; rfl
  next h =>
    rw [h]
    split
    · rfl
    · split <;> rfl

theorem index_advance (h : c.rest ≠ []) : c.advance.index = c.index + 1 := by
  unfold advance
  split
  next hnil => exact absurd hnil h
  next =>
    split
    · rfl
    · split <;> rfl

theorem line_advance (h : c.rest = ch :: tail) (hch : isBreak ch = false) :
    c.advance.line = c.line := by
  unfold advance
  rw [h]
  simp only [hch, Bool.false_and, Bool.false_eq_true, if_false]
  split <;> rfl

theorem column_advance (h : c.rest = ch :: tail) (hch : isBreak ch = false)
    (hmark : ch ≠ '\ufeff') : c.advance.column = c.column + 1 := by
  unfold advance
  rw [h]
  simp only [hch, Bool.false_and, Bool.false_eq_true, if_false, if_neg hmark]

theorem column_advance_newline (h : c.rest = '\n' :: tail) : c.advance.column = 0 := by
  unfold advance
  rw [h]
  rfl

@[simp] theorem advanceBy_zero (c : Cursor) : c.advanceBy 0 = c := rfl

theorem advanceBy_succ (n : Nat) (c : Cursor) : c.advanceBy (n + 1) = c.advance.advanceBy n := rfl

theorem advanceBy_add (m n : Nat) (c : Cursor) :
    c.advanceBy (m + n) = (c.advanceBy m).advanceBy n := by
  induction m generalizing c with
  | zero => rw [Nat.zero_add, advanceBy_zero]
  | succ m ih => rw [Nat.succ_add, advanceBy_succ, advanceBy_succ, ih]

@[simp] theorem limit_advanceBy (n : Nat) (c : Cursor) : (c.advanceBy n).limit = c.limit := by
  induction n generalizing c with
  | zero => rfl
  | succ n ih => rw [advanceBy_succ, ih, limit_advance]

theorem rest_advanceBy (n : Nat) (c : Cursor) : (c.advanceBy n).rest = c.rest.drop n := by
  induction n generalizing c with
  | zero => rfl
  | succ n ih => rw [advanceBy_succ, ih, rest_advance, drop_tail]

theorem rest_after (h : c.rest = run ++ tail) : (c.advanceBy run.length).rest = tail := by
  rw [rest_advanceBy, h, drop_left]

theorem index_after (h : c.rest = run ++ tail) :
    (c.advanceBy run.length).index = c.index + run.length := by
  induction run generalizing c with
  | nil => rfl
  | cons ch run ih =>
    have hne : c.rest ≠ [] := by simp [h]
    rw [length_cons, advanceBy_succ, ih (by rw [rest_advance, h]; rfl), index_advance hne]
    omega

theorem place_after (h : c.rest = run ++ tail) (hrun : ∀ ch ∈ run, IsInk ch ∨ ch = ' ') :
    (c.advanceBy run.length).line = c.line ∧
      (c.advanceBy run.length).column = c.column + run.length := by
  induction run generalizing c with
  | nil => exact ⟨rfl, rfl⟩
  | cons ch run ih =>
    have hch := hrun ch (by simp)
    have hbreak : isBreak ch = false := by
      rcases hch with hink | rfl
      · exact hink.isBreak
      · rfl
    have hmark : ch ≠ '\ufeff' := by
      rcases hch with hink | rfl
      · exact hink.ne (by decide)
      · decide
    obtain ⟨hline, hcolumn⟩ := ih (c := c.advance) (by rw [rest_advance, h]; rfl)
      fun d hd => hrun d (by simp [hd])
    rw [length_cons, advanceBy_succ, hline, hcolumn, line_advance h hbreak,
      column_advance h hbreak hmark]
    exact ⟨rfl, by omega⟩

theorem takeWhile_eq (h : c.rest = run ++ tail) (hrun : ∀ ch ∈ run, p ch = true)
    (htail : ∀ ch ∈ tail.head?, p ch = false) : c.takeWhile p = (run, c.advanceBy run.length) := by
  have htake : c.rest.takeWhile p = run := by
    rw [h, takeWhile_append_of_pos hrun]
    cases tail with
    | nil => simp
    | cons ch tail => simp [htail ch (by simp)]
  simp only [takeWhile, htake]

theorem takeWhile_none (h : ∀ ch ∈ c.rest.head?, p ch = false) : c.takeWhile p = ([], c) :=
  takeWhile_eq (nil_append _).symm (by simp) h

theorem skipSpaces_eq {n : Nat} (h : c.rest = replicate n ' ' ++ tail)
    (htail : tail.head? ≠ some ' ') : c.skipSpaces = c.advanceBy n := by
  have hrun := takeWhile_eq (p := (· == ' ')) h
    (fun ch hch => by simp [eq_of_mem_replicate hch]) fun ch hch => by
      rw [Option.mem_def] at hch
      simpa [hch] using htail
  rw [skipSpaces, skipWhile, hrun, length_replicate]

theorem lineBreak?_newline (h : c.rest = '\n' :: tail) : c.lineBreak? = some ('\n', c.advance) := by
  unfold lineBreak?
  rw [h]
  rfl

theorem lineBreak?_eq_none (h : ∀ ch ∈ c.rest.head?, isBreak ch = false) : c.lineBreak? = none := by
  unfold lineBreak?
  split
  next hrest => simp [hrest, isBreak] at h
  next ch _ _ hrest =>
    have hch := h ch (by simp [hrest])
    have hsep : ¬ (ch = '\u2028' ∨ ch = '\u2029') := by
      rintro (rfl | rfl) <;> exact absurd hch (by decide)
    rw [if_neg hsep, if_neg (by simp [hch])]
  next => rfl

theorem atSeparator_eq_false (h : ∀ ch ∈ c.rest.head?, ch ≠ '-' ∧ ch ≠ '.') :
    c.atSeparator = false := by
  unfold atSeparator hasMark
  cases hrest : c.rest with
  | nil => rfl
  | cons ch rest =>
    obtain ⟨h₁, h₂⟩ := h ch (by simp [hrest])
    cases rest with
    | nil => simp
    | cons _ rest => cases rest <;> simp [h₁, h₂]

end Cursor

end AgentConfig.Yaml
