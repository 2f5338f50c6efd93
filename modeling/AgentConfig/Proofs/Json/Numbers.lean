import AgentConfig.Json.Read
import AgentConfig.Proofs.Number.Numeral
import Mathlib.Tactic.FinCases

namespace AgentConfig

open List Binary64 Numeral Text

variable {c : Char} {e k : Int} {m : Nat}

/-- A number that rounding can give. -/
def Binary64.IsRounded : Binary64 → Prop
  | .finite _ m e => IsNormal m e
  | _ => True

theorem Binary64.isRounded_nearest (negative : Bool) {x : ℚ} (hx : 0 ≤ x) :
    (nearest negative x).IsRounded := by
  cases hnearest : nearest negative x with
  | nan => trivial
  | infinite _ => trivial
  | finite s m e => exact (isNormal_nearest hx hnearest).2

theorem Numeral.exists_chars (n : Numeral) : ∃ c cs, n.chars = c :: cs ∧ c.isDigit = true := by
  obtain ⟨c, cs, hcons⟩ := exists_cons_of_ne_nil n.whole_ne_nil
  exact ⟨c, _, by rw [chars, hcons]; rfl, n.isDigit_whole c (by simp [hcons])⟩

theorem mem_digits_of_isDigit (h : c.isDigit = true) :
    c ∈ ['0', '1', '2', '3', '4', '5', '6', '7', '8', '9'] := by
  simp only [Char.isDigit, Bool.and_eq_true, decide_eq_true_eq] at h
  have hrange : 48 ≤ c.toNat ∧ c.toNat ≤ 57 := h
  rw [← Char.ofNat_toNat c]
  obtain ⟨hlow, hhigh⟩ := hrange
  interval_cases c.toNat <;> decide

def Numeral.ofNat (n : Nat) : Numeral :=
  .positional (Nat.toDigits 10 n) [] Nat.toDigits_ne_nil
    (fun c hc => isDigit_toDigits n c (by simpa using hc)) (by
      intro hhead
      rcases Nat.eq_zero_or_pos n with rfl | hn
      · rfl
      · exact absurd hhead (head?_toDigits_ne hn))

theorem Numeral.chars_ofNat (n : Nat) : (ofNat n).chars = Nat.toDigits 10 n := by
  simp [chars, ofNat, positional, fractionChars, exponentChars]

namespace Json

def isNumberChar (c : Char) : Bool := c.isDigit || "+-.eE".toList.contains c

/-- No number goes on into the text. -/
def EndsNumber (rest : Text) : Prop := ∀ l ∈ rest.head?, l.is isNumberChar = false

theorem isNumberChar_of_isDigit (h : c.isDigit = true) : isNumberChar c = true := by
  simp [isNumberChar, h]

theorem isNumberChar_chars (n : Numeral) : ∀ c ∈ n.chars, isNumberChar c = true := by
  intro c hc
  rcases mem_append.mp hc with hc | hc
  · rcases n.mem_mantissa hc with hdigit | rfl
    · exact isNumberChar_of_isDigit hdigit
    · rfl
  unfold exponentChars at hc
  split at hc
  · cases hc
  rename_i negative digits hexponent
  simp only [mem_cons] at hc
  rcases hc with rfl | rfl | hc
  · rfl
  · cases negative <;> rfl
  · exact isNumberChar_of_isDigit (n.isDigit_exponent _ hexponent c hc)

theorem numberRun_append {cs : List Char} {rest : Text} (hcs : ∀ c ∈ cs, isNumberChar c = true)
    (hrest : EndsNumber rest) : numberRun (ofChars cs ++ rest) = cs := by
  have hletters : ∀ l ∈ ofChars cs, l.is isNumberChar = true := by
    intro l hl
    obtain ⟨c, hc, rfl⟩ := mem_map.mp hl
    exact hcs c hc
  change (List.takeWhile (Letter.is isNumberChar) _).filterMap _ = _
  rw [takeWhile_run hletters hrest, ofChars, filterMap_map]
  exact filterMap_some

section Parts

variable (n : Numeral)

private theorem isDigit_stop : ∀ c ∈ (n.fractionChars ++ n.exponentChars).head?,
    c.isDigit = false := by
  intro c hc
  rw [head?_append, Option.mem_def, Option.or_eq_some_iff] at hc
  rcases hc with hc | ⟨-, hc⟩
  · rw [n.head?_fractionChars c hc]
    rfl
  · rw [n.head?_exponentChars c hc]
    rfl

theorem wholeDigits_chars : wholeDigits n.chars = n.whole := by
  rw [Numeral.chars, append_assoc]
  have hrun := takeWhile_run n.isDigit_whole (isDigit_stop n)
  unfold wholeDigits
  split
  · rename_i rest hcons
    have hhead : n.whole.head? = some '0' := by
      rw [← head?_append_of_ne_nil _ n.whole_ne_nil, hcons]
      rfl
    exact (n.lone_zero hhead).symm
  · exact hrun

theorem fractionPart_chars : fractionPart (n.fractionChars ++ n.exponentChars) =
    n.fractionChars := by
  have hstop : ∀ c ∈ n.exponentChars.head?, c.isDigit = false := fun c hc => by
    rw [n.head?_exponentChars c hc]
    rfl
  by_cases hfraction : n.fraction = []
  · rw [fractionChars, if_pos hfraction, nil_append]
    unfold fractionPart
    split
    · rename_i hcons
      exact absurd (n.head?_exponentChars '.' (by rw [hcons]; rfl)) (by decide)
    · rfl
  · rw [fractionChars, if_neg hfraction, cons_append, fractionPart,
      takeWhile_run n.isDigit_fraction hstop]
    simp [hfraction]

theorem exponentPart_chars : exponentPart n.exponentChars = n.exponentChars := by
  unfold exponentChars
  split
  · rfl
  rename_i negative digits hexponent
  have hdigits : digits.takeWhile Char.isDigit = digits := by
    have hend : ∀ c ∈ ([] : List Char).head?, c.isDigit = false := by simp
    simpa using takeWhile_run (n.isDigit_exponent _ hexponent) hend
  have hne : digits ≠ [] := n.exponent_ne_nil _ hexponent
  cases negative <;> simp [exponentPart, hdigits, hne]

end Parts

def signed (negative : Bool) (cs : List Char) : List Char := if negative then '-' :: cs else cs

section Number

variable (n : Numeral) (negative : Bool)

theorem head?_signed_chars : (signed negative n.chars).head? = some '-' ↔ negative = true := by
  cases negative with
  | true => simp [signed]
  | false =>
    obtain ⟨c, cs, hcons, hdigit⟩ := n.exists_chars
    have hc : c ≠ '-' := by
      rintro rfl
      exact absurd hdigit (by decide)
    simp [signed, hcons, hc]

theorem isNumberChar_signed : ∀ c ∈ signed negative n.chars, isNumberChar c = true := by
  cases negative with
  | true =>
    intro c hc
    rcases mem_cons.mp hc with rfl | hc
    · rfl
    · exact isNumberChar_chars n c hc
  | false => exact isNumberChar_chars n

theorem value_signed (levels fuel position : Nat) (rest : Text) :
    value levels (fuel + 1) ⟨position, ofChars (signed negative n.chars) ++ rest⟩ =
      number ⟨position, ofChars (signed negative n.chars) ++ rest⟩ := by
  obtain ⟨c, cs, hcons, hdigit⟩ := n.exists_chars
  rw [hcons]
  have hmem := mem_digits_of_isDigit hdigit
  fin_cases hmem <;> cases negative <;> rfl

variable {rest : Text} (hrest : EndsNumber rest) (position : Nat)
include hrest

theorem number_signed : number ⟨position, ofChars (signed negative n.chars) ++ rest⟩ =
      if n.fractionChars.isEmpty && n.exponentChars.isEmpty then
        if Literal.maxDigits < n.whole.length then
          Cursor.fail ⟨position, ofChars (signed negative n.chars) ++ rest⟩
            (.longInteger n.whole.length)
        else .ok (.int (if negative then -(Nat.ofDigitChars 10 n.whole 0 : Int)
            else Nat.ofDigitChars 10 n.whole 0),
            ⟨position + (signed negative n.chars).length, rest⟩)
      else .ok (.real (Binary64.nearest negative n.value),
          ⟨position + (signed negative n.chars).length, rest⟩) := by
  have hunsigned : (if negative then (signed negative n.chars).drop 1
      else signed negative n.chars) = n.chars := by
    cases negative <;> rfl
  have hfraction : n.chars.drop n.whole.length = n.fractionChars ++ n.exponentChars := by
    rw [Numeral.chars, append_assoc, drop_left]
  have hexponent : n.chars.drop (n.whole.length + n.fractionChars.length) = n.exponentChars := by
    rw [Numeral.chars, ← length_append, drop_left]
  have hnext : Cursor.drop (n.chars.length + if negative then 1 else 0)
      ⟨position, ofChars (signed negative n.chars) ++ rest⟩ =
      ⟨position + (signed negative n.chars).length, rest⟩ := by
    have hlength : n.chars.length + (if negative then 1 else 0) =
        (signed negative n.chars).length := by
      cases negative <;> rfl
    have hletters : (signed negative n.chars).length =
        (ofChars (signed negative n.chars)).length := (length_map _).symm
    rw [Cursor.drop, hlength]
    rw [hletters, drop_left]
  have hwhole : n.whole.isEmpty = false := by simpa using n.whole_ne_nil
  unfold number
  have hchars : n.whole ++ n.fractionChars ++ n.exponentChars = n.chars := rfl
  simp only [numberRun_append (isNumberChar_signed n negative) hrest, head?_signed_chars,
    hunsigned, wholeDigits_chars, hfraction, fractionPart_chars, hexponent, exponentPart_chars,
    hwhole, Bool.false_eq_true,
    if_false, Literal.digits?_eq n.whole_ne_nil n.isDigit_whole, hchars, hnext,
    Bool.decide_eq_true, n.decimal?_chars]

end Number

theorem writeAt_int (level : Nat) (k : Int) : writeAt level (.int k) =
      ofChars (signed (decide (k < 0)) (Numeral.ofNat k.natAbs).chars) := by
  rw [writeAt, ofInt, ofString, chars_ofNat]
  cases k with
  | ofNat n =>
    exact congrArg ofChars Nat.toList_repr
  | negSucc n =>
    have hsign : decide (Int.negSucc n < 0) = true := decide_eq_true (Int.negSucc_lt_zero n)
    have htext : toString (Int.negSucc n) = "-" ++ Nat.repr (n + 1) := rfl
    rw [hsign, htext, String.toList_append, Nat.toList_repr]
    rfl

/-- A finite number is written as a numeral that is no integer and reads back as the number. -/
theorem exists_writeAt_real (h : IsNormal m e) (level : Nat) (negative : Bool) :
    ∃ n : Numeral, writeAt level (.real (.finite negative m e)) =
        ofChars (signed negative n.chars) ∧
      (n.fraction ≠ [] ∨ n.exponent.isSome) ∧
      Binary64.nearest negative n.value = .finite negative m e := by
  obtain ⟨n, hn⟩ := (Binary64.shortest m e).exists_numeral
  refine ⟨n, ?_, hn.not_int, ?_⟩
  · rw [writeAt, textWith, ofString]
    cases negative with
    | true => rw [if_pos rfl, String.toList_append, hn.text_eq]; rfl
    | false => exact congrArg ofChars hn.text_eq
  · rw [hn.value_eq, ← h.ofDecimal_shortest negative, ofDecimal_eq]
    rfl

section Reading

variable {rest : Text} (hrest : EndsNumber rest) (levels fuel position : Nat)
include hrest

theorem value_int (h : (Nat.toDigits 10 k.natAbs).length ≤ Literal.maxDigits) (level : Nat) :
    ∃ next, value levels (fuel + 1) ⟨position, writeAt level (.int k) ++ rest⟩ =
      .ok (.int k, ⟨next, rest⟩) := by
  have hsign : (if decide (k < 0) then -(Nat.ofDigitChars 10 (Nat.toDigits 10 k.natAbs) 0 : Int)
      else Nat.ofDigitChars 10 (Nat.toDigits 10 k.natAbs) 0) = k := by
    rw [Nat.ofDigitChars_ten_toDigits]
    simp only [decide_eq_true_eq]
    split <;> omega
  have hparts : ((Numeral.ofNat k.natAbs).fractionChars.isEmpty &&
      (Numeral.ofNat k.natAbs).exponentChars.isEmpty) = true := rfl
  have hlength : (Numeral.ofNat k.natAbs).whole.length ≤ Literal.maxDigits := h
  refine ⟨position + (signed (decide (k < 0)) (Numeral.ofNat k.natAbs).chars).length, ?_⟩
  rw [writeAt_int, value_signed, number_signed _ _ hrest, if_pos hparts,
    if_neg (Nat.not_lt.mpr hlength)]
  exact congrArg (fun k => Except.ok (Json.int k, _)) hsign

theorem value_real (h : IsNormal m e) (negative : Bool) (level : Nat) :
    ∃ next, value levels (fuel + 1)
        ⟨position, writeAt level (.real (.finite negative m e)) ++ rest⟩ =
      .ok (.real (.finite negative m e), ⟨next, rest⟩) := by
  obtain ⟨n, htext, hreal, hnearest⟩ := exists_writeAt_real h level negative
  have hparts : (n.fractionChars.isEmpty && n.exponentChars.isEmpty) = false := by
    rcases hreal with hfraction | hexponent
    · simp [fractionChars, hfraction]
    · obtain ⟨mark, hmark⟩ := Option.isSome_iff_exists.mp hexponent
      simp [exponentChars, hmark]
  refine ⟨position + (signed negative n.chars).length, ?_⟩
  rw [htext, value_signed, number_signed _ _ hrest, hparts, hnearest]
  rfl

end Reading

end Json

end AgentConfig
