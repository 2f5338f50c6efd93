import AgentConfig.Number.Literal
import AgentConfig.Proofs.Number.Rounding
import Mathlib.Tactic.IntervalCases

namespace AgentConfig

open List

section Run

variable {α : Type} {p : α → Bool} {run rest : List α} (hrun : ∀ x ∈ run, p x = true)
  (hrest : ∀ x ∈ rest.head?, p x = false)
include hrun hrest

theorem takeWhile_run : (run ++ rest).takeWhile p = run := by
  rw [takeWhile_append_of_pos hrun]
  cases rest with
  | nil => simp
  | cons x rest => simp [hrest x rfl]

theorem dropWhile_run : (run ++ rest).dropWhile p = rest := by
  rw [dropWhile_append_of_pos hrun]
  cases rest with
  | nil => rfl
  | cons x rest => simp [hrest x rfl]

end Run

namespace Literal

theorem digit?_of_isDigit {c : Char} (h : c.isDigit = true) :
    digit? 10 c = some (c.toNat - '0'.toNat) := by
  simp only [Char.isDigit, Bool.and_eq_true, decide_eq_true_eq] at h
  have hrange : '0' ≤ c ∧ c ≤ '9' := h
  have hcode : 48 ≤ c.toNat ∧ c.toNat ≤ 57 := h
  have hzero : '0'.toNat = 48 := rfl
  rw [digit?, if_pos hrange, if_pos (by omega), hzero]

theorem digits?_eq {cs : List Char} (hne : cs ≠ []) (h : ∀ c ∈ cs, c.isDigit = true) :
    digits? 10 cs = some (Nat.ofDigitChars 10 cs 0) := by
  rw [digits?, if_neg (by simpa using hne)]
  generalize 0 = start
  clear hne
  induction cs generalizing start with
  | nil => rfl
  | cons c rest ih =>
    rw [foldlM_cons, digit?_of_isDigit (h c mem_cons_self)]
    exact ih (fun c hc => h c (mem_cons_of_mem _ hc)) _

end Literal

theorem isDigit_toDigits (n : Nat) : ∀ c ∈ Nat.toDigits 10 n, c.isDigit = true := fun _ =>
  Nat.isDigit_of_mem_toDigits (by decide) (by decide)

theorem isDigit_replicate (n : Nat) : ∀ c ∈ replicate n '0', c.isDigit = true := by
  intro c hc
  rw [eq_of_mem_replicate hc]
  rfl

theorem head?_toDigits_ne {n : Nat} (hn : 0 < n) : (Nat.toDigits 10 n).head? ≠ some '0' := by
  induction n using Nat.strongRecOn with
  | ind n ih =>
    rw [Nat.toDigits_eq_if (by decide)]
    split
    · interval_cases n <;> decide
    · have hne : Nat.toDigits 10 (n / 10) ≠ [] := Nat.toDigits_ne_nil
      rw [head?_append_of_ne_nil _ hne]
      exact ih (n / 10) (by omega) (by omega)

structure Numeral where
  whole : List Char
  /-- The digits after the point; without any there is no point. -/
  fraction : List Char
  /-- Whether the exponent is negative, and its digits. -/
  exponent : Option (Bool × List Char)
  whole_ne_nil : whole ≠ []
  isDigit_whole : ∀ c ∈ whole, c.isDigit = true
  isDigit_fraction : ∀ c ∈ fraction, c.isDigit = true
  exponent_ne_nil : ∀ e ∈ exponent, e.2 ≠ []
  isDigit_exponent : ∀ e ∈ exponent, ∀ c ∈ e.2, c.isDigit = true
  /-- A zero stands in front only alone. -/
  lone_zero : whole.head? = some '0' → whole = ['0']

namespace Numeral

def fractionChars (n : Numeral) : List Char :=
  if n.fraction = [] then [] else '.' :: n.fraction

def exponentChars (n : Numeral) : List Char :=
  match n.exponent with
  | none => []
  | some (negative, digits) => 'e' :: (if negative then '-' else '+') :: digits

def chars (n : Numeral) : List Char := n.whole ++ n.fractionChars ++ n.exponentChars

def power (n : Numeral) : Int :=
  match n.exponent with
  | none => 0
  | some (negative, digits) =>
    if negative then -(Nat.ofDigitChars 10 digits 0 : Int) else Nat.ofDigitChars 10 digits 0

def digits (n : Numeral) : Nat := Nat.ofDigitChars 10 (n.whole ++ n.fraction) 0

def value (n : Numeral) : ℚ := (n.digits : ℚ) * (10 : ℚ) ^ (n.power - n.fraction.length)

theorem mem_mantissa (n : Numeral) {c : Char} (h : c ∈ n.whole ++ n.fractionChars) :
    c.isDigit = true ∨ c = '.' := by
  rcases mem_append.mp h with h | h
  · exact .inl (n.isDigit_whole c h)
  unfold fractionChars at h
  split at h
  · cases h
  · rcases mem_cons.mp h with rfl | h
    · exact .inr rfl
    · exact .inl (n.isDigit_fraction c h)

theorem head?_exponentChars (n : Numeral) : ∀ c ∈ n.exponentChars.head?, c = 'e' := by
  unfold exponentChars
  split
  · simp
  · simp

theorem head?_fractionChars (n : Numeral) : ∀ c ∈ n.fractionChars.head?, c = '.' := by
  unfold fractionChars
  split
  · simp
  · simp

theorem splitFraction_eq (n : Numeral) : Literal.splitFraction (n.whole ++ n.fractionChars) =
      some (n.whole ++ n.fraction, n.fraction.length) := by
  have hstop : ∀ c ∈ n.fractionChars.head?, c.isDigit = false := fun c hc => by
    rw [n.head?_fractionChars c hc]
    rfl
  have hwhole : n.whole.isEmpty = false := by simpa using n.whole_ne_nil
  have hall : n.fraction.all Char.isDigit = true := all_eq_true.mpr n.isDigit_fraction
  rw [Literal.splitFraction, takeWhile_run n.isDigit_whole hstop,
    dropWhile_run n.isDigit_whole hstop]
  by_cases hfraction : n.fraction = []
  · simp [fractionChars, hfraction, n.whole_ne_nil]
  · simp [fractionChars, hfraction, hall, hwhole]

theorem exponent?_eq (negative : Bool) {digits : List Char} (hne : digits ≠ [])
    (hdigits : ∀ c ∈ digits, c.isDigit = true) :
    Literal.exponent? ((if negative then '-' else '+') :: digits) =
      some (if negative then -(Nat.ofDigitChars 10 digits 0 : Int)
        else Nat.ofDigitChars 10 digits 0) := by
  cases negative <;> simp [Literal.exponent?, Literal.splitSign, Literal.digits?_eq hne hdigits]

/-- A numeral is read as the number nearest to its value. -/
theorem decimal?_chars (n : Numeral) (negative : Bool) :
    Literal.decimal? negative n.chars = some (Binary64.nearest negative n.value) := by
  have hmantissa : ∀ c ∈ n.whole ++ n.fractionChars, (!(c == 'e' || c == 'E')) = true := by
    intro c hc
    rcases n.mem_mantissa hc with hdigit | rfl
    · have hmarks : 'e'.isDigit = false ∧ 'E'.isDigit = false := by decide
      have hne : c ≠ 'e' ∧ c ≠ 'E' := by
        constructor
        · rintro rfl
          simp [hmarks.1] at hdigit
        · rintro rfl
          simp [hmarks.2] at hdigit
      simp [hne.1, hne.2]
    · rfl
  have hmark : ∀ c ∈ n.exponentChars.head?, (!(c == 'e' || c == 'E')) = false := fun c hc => by
    rw [n.head?_exponentChars c hc]
    rfl
  have hne : n.whole ++ n.fraction ≠ [] := by simp [n.whole_ne_nil]
  have hdigits : ∀ c ∈ n.whole ++ n.fraction, c.isDigit = true := by
    intro c hc
    exact (mem_append.mp hc).elim (n.isDigit_whole c) (n.isDigit_fraction c)
  rw [Literal.decimal?, chars, takeWhile_run hmantissa hmark, dropWhile_run hmantissa hmark,
    n.splitFraction_eq]
  simp only [Option.bind_eq_bind, Option.bind_some, Literal.digits?_eq hne hdigits]
  cases hexponent : n.exponent with
  | none => simp [exponentChars, value, digits, power, hexponent, Binary64.ofDecimal_eq]
  | some e =>
    have hpower := exponent?_eq e.1 (n.exponent_ne_nil e hexponent) (n.isDigit_exponent e hexponent)
    simp only [exponentChars, hexponent, hpower, Option.bind_some, Binary64.ofDecimal_eq]
    simp only [value, digits, power, hexponent]

def positional (whole fraction : List Char) (hne : whole ≠ [])
    (hdigits : ∀ c ∈ whole ++ fraction, c.isDigit = true)
    (hzero : whole.head? = some '0' → whole = ['0']) : Numeral where
  whole
  fraction
  exponent := none
  whole_ne_nil := hne
  isDigit_whole c hc := hdigits c (mem_append_left _ hc)
  isDigit_fraction c hc := hdigits c (mem_append_right _ hc)
  exponent_ne_nil := by simp
  isDigit_exponent := by simp
  lone_zero := hzero

section Positional

variable {whole fraction : List Char} (hne : whole ≠ [])
  (hdigits : ∀ c ∈ whole ++ fraction, c.isDigit = true)
  (hzero : whole.head? = some '0' → whole = ['0'])

theorem chars_positional (hfraction : fraction ≠ []) :
    (positional whole fraction hne hdigits hzero).chars = whole ++ '.' :: fraction := by
  simp [chars, positional, fractionChars, exponentChars, hfraction]

theorem value_positional : (positional whole fraction hne hdigits hzero).value =
      (Nat.ofDigitChars 10 (whole ++ fraction) 0 : ℚ) * (10 : ℚ) ^ (-(fraction.length : Int)) := by
  simp only [value, digits, power, positional, zero_sub]

end Positional

theorem isDigit_leftpad (width n : Nat) :
    ∀ c ∈ (Nat.toDigits 10 n).leftpad width '0', c.isDigit = true := by
  intro c hc
  exact (mem_append.mp hc).elim (isDigit_replicate _ c) (isDigit_toDigits _ c)

/-- A numeral with one digit before the point, and an exponent of at least two digits. -/
def scientific (first : Char) (rest : List Char) (power : Int)
    (hdigits : ∀ c ∈ first :: rest, c.isDigit = true) : Numeral where
  whole := [first]
  fraction := rest
  exponent := some (decide (power < 0), (Nat.toDigits 10 power.natAbs).leftpad 2 '0')
  whole_ne_nil := by simp
  isDigit_whole c hc := hdigits c (mem_singleton.mp hc ▸ mem_cons_self)
  isDigit_fraction c hc := hdigits c (mem_cons_of_mem _ hc)
  exponent_ne_nil := by
    simp [leftpad]
  isDigit_exponent := by
    rintro _ ⟨⟩
    exact isDigit_leftpad 2 _
  lone_zero := by simp

theorem power_scientific {first : Char} {rest : List Char} {power : Int}
    (hdigits : ∀ c ∈ first :: rest, c.isDigit = true) :
    (scientific first rest power hdigits).power = power := by
  have hspelled : Nat.ofDigitChars 10 ((Nat.toDigits 10 power.natAbs).leftpad 2 '0') 0 =
      power.natAbs := by
    rw [leftpad, Nat.ofDigitChars_append, Nat.ofDigitChars_replicate_zero, Nat.mul_zero,
      Nat.ofDigitChars_ten_toDigits]
  simp only [Numeral.power, scientific, hspelled, decide_eq_true_eq]
  split <;> omega

end Numeral

namespace Binary64.Decimal

/-- The numeral is how the decimal is written: it is no integer, and of the same value. -/
structure IsWritten (d : Decimal) (n : Numeral) : Prop where
  text_eq : d.text.toList = n.chars
  not_int : n.fraction ≠ [] ∨ n.exponent.isSome
  value_eq : n.value = d.value

theorem isWritten_zero {d : Decimal} (h : d.digits = 0) :
    d.IsWritten (.positional ['0'] ['0'] (by simp) (by simp) (fun _ => rfl)) where
  text_eq := by
    rw [text, if_pos h, Numeral.chars_positional _ _ _ (cons_ne_nil _ _)]
    rfl
  not_int := .inl (cons_ne_nil _ _)
  value_eq := by
    have hdigits : Nat.ofDigitChars 10 (['0'] ++ ['0']) 0 = 0 := by decide
    rw [Numeral.value_positional, hdigits, value, h]
    simp

section Text

variable {d : Decimal} (hpos : 0 < d.digits)
include hpos

theorem isWritten_scientific {first : Char} {rest : List Char}
    (hcons : Nat.toDigits 10 d.digits = first :: rest)
    (hfar : ((first :: rest).length : Int) + d.exponent ≤ -4 ∨
      16 < ((first :: rest).length : Int) + d.exponent) :
    d.IsWritten (.scientific first rest (((first :: rest).length : Int) + d.exponent - 1)
      (hcons ▸ isDigit_toDigits d.digits)) where
  text_eq := by
    rw [text]
    simp only [Nat.toList_repr, hcons, if_neg hpos.ne', if_pos hfar]
    cases rest with
    | nil => simp [Numeral.chars, Numeral.scientific, Numeral.fractionChars, Numeral.exponentChars]
    | cons second rest =>
      simp [Numeral.chars, Numeral.scientific, Numeral.fractionChars, Numeral.exponentChars]
  not_int := .inr rfl
  value_eq := by
    have hdigits : Nat.ofDigitChars 10 ([first] ++ rest) 0 = d.digits := by
      rw [singleton_append, ← hcons, Nat.ofDigitChars_ten_toDigits]
    rw [Numeral.value, Numeral.power_scientific, value]
    simp only [Numeral.digits, Numeral.scientific, hdigits, length_cons]
    congr 2
    omega

variable (hnear : ¬ (((Nat.toDigits 10 d.digits).length : Int) + d.exponent ≤ -4 ∨
    16 < ((Nat.toDigits 10 d.digits).length : Int) + d.exponent))
include hnear

theorem isWritten_small (hsmall : ((Nat.toDigits 10 d.digits).length : Int) + d.exponent ≤ 0) :
    d.IsWritten (.positional ['0'] (replicate
        (-(((Nat.toDigits 10 d.digits).length : Int) + d.exponent)).toNat '0' ++
          Nat.toDigits 10 d.digits) (by simp) (by
        intro c hc
        simp only [mem_append, mem_singleton] at hc
        rcases hc with rfl | hc | hc
        · rfl
        · exact isDigit_replicate _ c hc
        · exact isDigit_toDigits _ c hc) (fun _ => rfl)) where
  text_eq := by
    rw [text]
    simp only [Nat.toList_repr, if_neg hpos.ne', if_neg hnear, if_pos hsmall]
    rw [Numeral.chars_positional _ _ _ (by simp)]
    simp
  not_int := .inl (by simp [Numeral.positional])
  value_eq := by
    have hzero : (['0'] : List Char) = replicate 1 '0' := rfl
    have hdigits (zeros : Nat) : Nat.ofDigitChars 10 (['0'] ++ (replicate zeros '0' ++
        Nat.toDigits 10 d.digits)) 0 = d.digits := by
      rw [hzero, ← append_assoc, replicate_append_replicate, Nat.ofDigitChars_append,
        Nat.ofDigitChars_replicate_zero, Nat.mul_zero, Nat.ofDigitChars_ten_toDigits]
    rw [Numeral.value_positional, hdigits, value, length_append, length_replicate]
    congr 2
    omega

theorem isWritten_whole (hlarge : 0 < ((Nat.toDigits 10 d.digits).length : Int) + d.exponent)
    (hwhole : 0 ≤ d.exponent) :
    d.IsWritten (.positional (Nat.toDigits 10 d.digits ++ replicate d.exponent.toNat '0')
      ['0'] (by simp) (by
        intro c hc
        simp only [mem_append, mem_singleton] at hc
        rcases hc with (hc | hc) | rfl
        · exact isDigit_toDigits _ c hc
        · exact isDigit_replicate _ c hc
        · rfl) (by
        rw [head?_append_of_ne_nil _ Nat.toDigits_ne_nil]
        exact fun h => absurd h (head?_toDigits_ne hpos))) where
  text_eq := by
    rw [text]
    simp only [Nat.toList_repr, if_neg hpos.ne', if_neg hnear, if_neg (not_le.mpr hlarge),
      if_pos hwhole]
    rw [Numeral.chars_positional _ _ _ (cons_ne_nil _ _)]
    simp
  not_int := .inl (cons_ne_nil _ _)
  value_eq := by
    have hzero : (['0'] : List Char) = replicate 1 '0' := rfl
    have hdigits : Nat.ofDigitChars 10 (Nat.toDigits 10 d.digits ++
        replicate d.exponent.toNat '0' ++ ['0']) 0 =
        10 ^ (d.exponent.toNat + 1) * d.digits := by
      rw [hzero, append_assoc, replicate_append_replicate, Nat.ofDigitChars_append,
        Nat.ofDigitChars_ten_toDigits, Nat.ofDigitChars_replicate_zero]
    have hpower : (10 : ℚ) ^ d.exponent = (10 : ℚ) ^ d.exponent.toNat := by
      rw [← zpow_natCast, Int.toNat_of_nonneg hwhole]
    rw [Numeral.value_positional, hdigits, value, hpower, pow_succ, length_singleton,
      Nat.cast_one, zpow_neg, zpow_one]
    push_cast
    ring

theorem isWritten_split (hlarge : 0 < ((Nat.toDigits 10 d.digits).length : Int) + d.exponent)
    (hsplit : ¬ 0 ≤ d.exponent) :
    d.IsWritten (.positional ((Nat.toDigits 10 d.digits).take
        (((Nat.toDigits 10 d.digits).length : Int) + d.exponent).toNat)
      ((Nat.toDigits 10 d.digits).drop
        (((Nat.toDigits 10 d.digits).length : Int) + d.exponent).toNat)
      (by
        rw [ne_eq, take_eq_nil_iff, not_or]
        exact ⟨by omega, Nat.toDigits_ne_nil⟩)
      (by
        rw [take_append_drop]
        exact isDigit_toDigits d.digits)
      (by
        rw [head?_take, if_neg (by omega)]
        exact fun h => absurd h (head?_toDigits_ne hpos))) where
  text_eq := by
    have hdrop : (Nat.toDigits 10 d.digits).drop
        (((Nat.toDigits 10 d.digits).length : Int) + d.exponent).toNat ≠ [] := by
      rw [ne_eq, drop_eq_nil_iff]
      omega
    rw [text, Numeral.chars_positional _ _ _ hdrop]
    simp only [Nat.toList_repr, if_neg hpos.ne', if_neg hnear, if_neg (not_le.mpr hlarge),
      if_neg hsplit, String.toList_ofList]
  not_int := by
    rw [Numeral.positional, ne_eq, drop_eq_nil_iff]
    omega
  value_eq := by
    rw [Numeral.value_positional, take_append_drop, Nat.ofDigitChars_ten_toDigits, value,
      length_drop]
    congr 2
    omega

end Text

theorem exists_numeral (d : Decimal) : ∃ n, d.IsWritten n := by
  rcases Nat.eq_zero_or_pos d.digits with hzero | hpos
  · exact ⟨_, isWritten_zero hzero⟩
  by_cases hfar : ((Nat.toDigits 10 d.digits).length : Int) + d.exponent ≤ -4 ∨
      16 < ((Nat.toDigits 10 d.digits).length : Int) + d.exponent
  · obtain ⟨first, rest, hcons⟩ :=
      exists_cons_of_ne_nil (Nat.toDigits_ne_nil (n := d.digits) (b := 10))
    exact ⟨_, isWritten_scientific hpos hcons (hcons ▸ hfar)⟩
  rcases le_or_gt (((Nat.toDigits 10 d.digits).length : Int) + d.exponent) 0 with hsmall | hlarge
  · exact ⟨_, isWritten_small hpos hfar hsmall⟩
  by_cases hwhole : 0 ≤ d.exponent
  · exact ⟨_, isWritten_whole hpos hfar hlarge hwhole⟩
  · exact ⟨_, isWritten_split hpos hfar hlarge hwhole⟩

end Binary64.Decimal

end AgentConfig
