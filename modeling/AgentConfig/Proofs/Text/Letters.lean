import AgentConfig.Proofs.Outcome
import AgentConfig.Text.Utf8
import Mathlib.Tactic.IntervalCases

namespace AgentConfig

open List

variable {l : Letter} {n width : Nat}

theorem Letter.code_lt (l : Letter) : l.code < 0x110000 := by
  cases l with
  | char c =>
    rcases c.valid with h | h
    · exact Nat.lt_trans h (by decide)
    · exact h.2
  | half place =>
    have hcode : (Letter.half place).code = 0xD800 + place.val := rfl
    omega

theorem Letter.exists_half (hlow : 0xD800 ≤ l.code) (hhigh : l.code < 0xE000) :
    ∃ place, l = .half place := by
  cases l with
  | char c =>
    have hcode : (Letter.char c).code = c.val.toNat := rfl
    rcases c.valid with h | h
    · exact absurd h (by omega)
    · exact absurd h.1 (by omega)
  | half place => exact ⟨place, rfl⟩

theorem Letter.ofCode_code (l : Letter) : Letter.ofCode l.code = l := by
  cases l with
  | char c =>
    have hvalid : ¬ (0xD800 ≤ c.toNat ∧ c.toNat < 0xE000) := by
      rcases c.valid with h | h
      · exact fun hn => absurd h (by have := hn.1; simp only [Char.toNat] at this; omega)
      · exact fun hn => absurd h.1 (by have := hn.2; simp only [Char.toNat] at this; omega)
    simp [Letter.ofCode, Letter.code, hvalid]
  | half place =>
    have hrange : 0xD800 ≤ (Letter.half place).code ∧ (Letter.half place).code < 0xE000 :=
      ⟨Nat.le_add_right _ _, Nat.add_lt_add_left place.isLt 0xD800⟩
    rw [Letter.ofCode, dif_pos hrange]
    exact congrArg Letter.half (Fin.ext (Nat.add_sub_cancel_left 0xD800 place.val))

namespace Text

theorem chars?_ofChars (cs : List Char) : chars? (ofChars cs) = some cs := by
  induction cs with
  | nil => rfl
  | cons c rest ih =>
    change List.mapM Letter.char? (.char c :: ofChars rest) = _
    rw [mapM_cons]
    change (some c >>= fun first => chars? (ofChars rest) >>= fun more => pure (first :: more)) = _
    rw [ih]
    rfl

theorem mem_intercalate {separator : Text} {parts : List Text}
    (h : l ∈ intercalate separator parts) : l ∈ separator ∨ ∃ part ∈ parts, l ∈ part := by
  induction parts with
  | nil => cases h
  | cons part more ih =>
    cases more with
    | nil => exact .inr ⟨part, by simp, by simpa [intercalate] using h⟩
    | cons next more =>
      unfold intercalate at h ih
      rw [intercalate_cons_cons, mem_append, mem_append] at h
      rcases h with (h | h) | h
      · exact .inr ⟨part, by simp, h⟩
      · exact .inl h
      · exact (ih h).imp_right fun ⟨part, hpart, hl⟩ => ⟨part, mem_cons_of_mem _ hpart, hl⟩

theorem length_hexDigits (width n : Nat) : (hexDigits width n).length = width := by
  induction width generalizing n with
  | zero => rfl
  | succ width ih => simp [hexDigits, ih]

/-- Hexadecimal digits stand for the number they were made of, also when `f` writes each of them in
another way. -/
private theorem hexNumber?_map {f : Char → Char}
    (hf : ∀ d < 16, hexValue? (f (Nat.digitChar d)) = some d)
    (h : n < 16 ^ width) : hexNumber? ((hexDigits width n).map f) = some n := by
  induction width generalizing n with
  | zero =>
    obtain rfl : n = 0 := by simpa using h
    rfl
  | succ width ih =>
    have hlow : n % 16 < 16 := Nat.mod_lt _ (by decide)
    have hhigh : n / 16 < 16 ^ width := by
      exact Nat.div_lt_of_lt_mul (by omega)
    have hdigits := ih hhigh
    unfold hexNumber? at hdigits ⊢
    rw [hexDigits, map_append, foldlM_append, hdigits]
    simp only [map_cons, map_nil, foldlM_cons, hf _ hlow, foldlM_nil,
      Option.map_some, Option.bind_eq_bind, Option.bind_some, Option.pure_def, Option.some.injEq]
    omega

theorem hexNumber?_hexDigits (h : n < 16 ^ width) : hexNumber? (hexDigits width n) = some n := by
  have hdigits := hexNumber?_map (f := id) (fun d hd => by interval_cases d <;> rfl) h
  rwa [map_id] at hdigits

theorem hexNumber?_toUpper (h : n < 16 ^ width) :
    hexNumber? ((hexDigits width n).map Char.toUpper) = some n :=
  hexNumber?_map (fun d hd => by interval_cases d <;> rfl) h

end Text

end AgentConfig

namespace AgentConfig.Text

open List

variable {text : Text} {bytes : ByteArray}

theorem eq_ofChars_of_chars? {cs : List Char} (h : text.chars? = some cs) : text = ofChars cs := by
  induction text generalizing cs with
  | nil =>
    cases h
    rfl
  | cons l rest ih =>
    cases l with
    | half place => cases h
    | char c =>
      simp only [chars?, mapM_cons, Letter.char?, Option.bind_eq_bind, Option.bind_some,
        Option.bind_eq_some_iff] at h
      obtain ⟨more, hmore, heq⟩ := h
      cases heq
      exact congrArg (.char c :: ·) (ih hmore)

theorem decodeUtf8_toUTF8 (s : String) : decodeUtf8 s.toUTF8 = .ok s := by
  have hvalid : String.fromUTF8? s.toUTF8 = some s := by
    rw [String.fromUTF8?, String.toUTF8_eq_toByteArray, dif_pos s.isValidUTF8]
    rfl
  rw [decodeUtf8, hvalid]

/-- The text of a file is the text that was written to it, up to line ends. -/
theorem readText_of_bytes? (h : text.bytes? = some bytes) : readText bytes = .ok text.newlines := by
  obtain ⟨s, hs, rfl⟩ := Option.map_eq_some_iff.mp h
  obtain ⟨cs, hcs, rfl⟩ := Option.map_eq_some_iff.mp hs
  rw [readText, decodeUtf8_toUTF8, eq_ofChars_of_chars? hcs, ofString, String.toList_ofList]
  rfl

theorem newlines_of_not_mem (h : .char '\r' ∉ text) : text.newlines = text := by
  fun_induction Text.newlines text with
  | case1 => rfl
  | case2 text ih => exact absurd mem_cons_self h
  | case3 l text _ ih =>
    rw [mem_cons, not_or] at h
    rw [if_neg (Ne.symm h.1), ih h.2]

theorem not_mem_newlines (text : Text) : .char '\r' ∉ text.newlines := by
  fun_induction Text.newlines text with
  | case1 => exact not_mem_nil
  | case2 text ih => exact not_mem_cons_of_ne_of_not_mem (by decide) ih
  | case3 l text _ ih =>
    refine not_mem_cons_of_ne_of_not_mem ?_ ih
    split
    · decide
    · rename_i hl
      exact Ne.symm hl

@[simp]
theorem newlines_newlines (text : Text) : text.newlines.newlines = text.newlines :=
  newlines_of_not_mem (not_mem_newlines text)

theorem newlines_of_readText (h : readText bytes = .ok text) : text.newlines = text := by
  obtain ⟨decoded, -, rfl⟩ := Outcome.map_eq_ok.mp h
  exact newlines_newlines decoded

end AgentConfig.Text
