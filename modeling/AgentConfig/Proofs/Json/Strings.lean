import AgentConfig.Json.Read
import AgentConfig.Proofs.Text.Letters

namespace AgentConfig

open List

namespace Json

variable {l : Letter} {fuel : Nat}

/-- A text in which each two halves of one character are that character. -/
def joinHalves : Text → Text
  | .half a :: .half b :: rest =>
    if a.val < 0x400 ∧ 0x400 ≤ b.val then
      .ofCode (0x10000 + a.val * 0x400 + (b.val - 0x400)) :: joinHalves rest
    else .half a :: joinHalves (.half b :: rest)
  | l :: rest => l :: joinHalves rest
  | [] => []

theorem unicodeEscape_append_ne_nil (n : Nat) (tail : Text) : unicodeEscape n ++ tail ≠ [] :=
  cons_ne_nil _ _

section Escape

variable {n : Nat} (hn : n < 0x10000) {tail : Text} (htail : tail ≠ [])
include hn

theorem exists_hex : ∃ a b c d, Text.hex 4 n = [a, b, c, d] ∧ hexNumber? [a, b, c, d] = some n := by
  have hlength : (Text.hex 4 n).length = 4 := by
    simp [Text.hex, Text.ofChars, Text.length_hexDigits]
  have hnumber : hexNumber? (Text.hex 4 n) = some n := by
    rw [hexNumber?, Text.hex, Text.chars?_ofChars]
    exact Text.hexNumber?_hexDigits (by simpa using hn)
  match hhex : Text.hex 4 n, hlength with
  | [a, b, c, d], _ => exact ⟨a, b, c, d, rfl, hhex ▸ hnumber⟩

include htail

theorem unicodeUnit?_hex : unicodeUnit? (Text.hex 4 n ++ tail) = some (n, tail) := by
  obtain ⟨a, b, c, d, hhex, hnumber⟩ := exists_hex hn
  obtain ⟨e, rest, rfl⟩ := exists_cons_of_ne_nil htail
  simp [hhex, unicodeUnit?, hnumber]

theorem secondUnit_escape :
    secondUnit (unicodeEscape n ++ tail) = if isLowSurrogate n then .unit n tail else .none := by
  obtain ⟨a, b, c, d, hhex, hnumber⟩ := exists_hex hn
  obtain ⟨e, rest, rfl⟩ := exists_cons_of_ne_nil htail
  have htext : unicodeEscape n ++ e :: rest =
      .char '\\' :: .char 'u' :: a :: b :: c :: d :: e :: rest := by
    rw [unicodeEscape, hhex]
    rfl
  simp only [htext, secondUnit, hnumber]

theorem stringBody_escape (start fuel : Nat) (done : Text) (position : Nat) :
    stringBody start (fuel + 1) done ⟨position, unicodeEscape n ++ tail⟩ =
      match isHighSurrogate n, secondUnit tail with
      | true, .broken => (Cursor.drop 1 ⟨position + 6, tail⟩).fail .badUnicodeEscape
      | true, .unit low rest =>
        stringBody start fuel (.ofCode (0x10000 + (n - 0xD800) * 0x400 + (low - 0xDC00)) :: done)
          ⟨position + 12, rest⟩
      | _, _ => stringBody start fuel (.ofCode n :: done) ⟨position + 6, tail⟩ := by
  have htext : unicodeEscape n ++ tail = .char '\\' :: .char 'u' :: (Text.hex 4 n ++ tail) := rfl
  rw [htext, stringBody]
  simp only [unicodeUnit?_hex hn htail]
  cases isHighSurrogate n with
  | false => rfl
  | true => cases secondUnit tail <;> rfl

end Escape

/-- How a letter is written: as itself, by a short escape, by its number, or as a pair. -/
inductive Spelling (l : Letter) : Text → Prop
  | plain (hquote : l ≠ .char '"') (hslash : l ≠ .char '\\') (hlow : 0x20 ≤ l.code)
    (hhigh : l.code < 0x7F) : Spelling l [l]
  | short {c d : Char} (hc : c ≠ 'u') (hd : simpleEscape? c = some d) (hl : l = .char d)
    (hascii : c.toNat < 0x7F) (hlow : 0x20 ≤ c.toNat) : Spelling l [.char '\\', .char c]
  | number (h : l.code < 0x10000) : Spelling l (unicodeEscape l.code)
  | pair {high low : Nat} (hhigh : isHighSurrogate high = true) (hlow : isLowSurrogate low = true)
    (hcode : 0x10000 + (high - 0xD800) * 0x400 + (low - 0xDC00) = l.code) :
    Spelling l (unicodeEscape high ++ unicodeEscape low)

theorem spelling_writeLetter (l : Letter) : Spelling l (writeLetter l) := by
  unfold writeLetter
  dsimp only
  split
  · exact .short (d := '"') (by decide) rfl ‹_› (by decide) (by decide)
  split
  · exact .short (d := '\\') (by decide) rfl ‹_› (by decide) (by decide)
  split
  · exact .short (d := '\n') (by decide) rfl ‹_› (by decide) (by decide)
  split
  · exact .short (d := '\r') (by decide) rfl ‹_› (by decide) (by decide)
  split
  · exact .short (d := '\t') (by decide) rfl ‹_› (by decide) (by decide)
  split
  · exact .short (d := '\x0c') (by decide) rfl ‹_› (by decide) (by decide)
  split
  · exact .short (d := '\x08') (by decide) rfl ‹_› (by decide) (by decide)
  split
  · rename_i hquote hslash _ _ _ _ _ hrange
    simp only [Bool.and_eq_true, decide_eq_true_eq] at hrange
    exact .plain hquote hslash hrange.1 hrange.2
  split
  · exact .number ‹_›
  have hlt := Letter.code_lt l
  refine .pair ?_ ?_ ?_
  · simp only [isHighSurrogate, Bool.and_eq_true, decide_eq_true_eq]
    omega
  · simp only [isLowSurrogate, Bool.and_eq_true, decide_eq_true_eq]
    omega
  · omega

theorem secondUnit_writeLetter (hl : isLowSurrogate l.code = false) {tail : Text}
    (htail : tail ≠ []) : secondUnit (writeLetter l ++ tail) = .none := by
  have hspelling := spelling_writeLetter l
  generalize writeLetter l = written at hspelling ⊢
  cases hspelling with
  | plain _ hslash _ _ =>
    unfold secondUnit
    split
    · rename_i heq
      exact absurd (List.cons.inj heq).1 hslash
    · rfl
  | short hc _ _ _ _ =>
    change secondUnit (.char '\\' :: .char _ :: tail) = .none
    unfold secondUnit
    split
    · rename_i heq
      simp only [List.cons.injEq, Letter.char.injEq, true_and] at heq
      exact absurd heq.1 hc
    · rfl
  | number h => rw [secondUnit_escape h htail, hl]; rfl
  | pair hhigh hlow _ =>
    simp only [isHighSurrogate, isLowSurrogate, Bool.and_eq_true, decide_eq_true_eq] at hhigh hlow
    rw [append_assoc, secondUnit_escape (by omega) (unicodeEscape_append_ne_nil _ _), if_neg]
    simp only [isLowSurrogate, Bool.and_eq_true, decide_eq_true_eq]
    omega

section Letter

variable {tail : Text} (htail : tail ≠ [])
include htail

theorem stringBody_writeLetter (hpair : isHighSurrogate l.code = true → secondUnit tail = .none)
    (start fuel : Nat) (done : Text) (position : Nat) :
    ∃ next, stringBody start (fuel + 1) done ⟨position, writeLetter l ++ tail⟩ =
      stringBody start fuel (l :: done) ⟨next, tail⟩ := by
  have hspelling := spelling_writeLetter l
  generalize writeLetter l = written at hspelling ⊢
  cases hspelling with
  | plain hquote hslash hlow _ =>
    refine ⟨position + 1, ?_⟩
    rw [singleton_append, stringBody]
    split
    · simp_all
    · simp_all
    · simp_all
    · simp_all
    · simp_all
    · rename_i heq
      cases heq
      rw [if_neg (Nat.not_lt.mpr hlow)]
  | @short c d hc hd hl _ _ =>
    refine ⟨position + 2, ?_⟩
    rw [stringBody]
    split
    · simp_all
    · simp_all
    · simp_all
    · simp_all
    · rename_i heq
      cases heq
      simp [Letter.char?, hd, hl]
    · rename_i hother heq
      cases heq
      exact (hother _ _ rfl rfl).elim
  | number h =>
    refine ⟨position + 6, ?_⟩
    rw [stringBody_escape h htail, Letter.ofCode_code]
    cases hhigh : isHighSurrogate l.code with
    | false => rfl
    | true => rw [hpair hhigh]
  | @pair high low hhigh hlow hcode =>
    refine ⟨position + 12, ?_⟩
    have hrange : high < 0x10000 ∧ low < 0x10000 := by
      simp only [isHighSurrogate, isLowSurrogate, Bool.and_eq_true, decide_eq_true_eq] at hhigh hlow
      omega
    rw [append_assoc, stringBody_escape hrange.1 (unicodeEscape_append_ne_nil _ _), hhigh,
      secondUnit_escape hrange.2 htail, hlow]
    simp only [if_true, hcode, Letter.ofCode_code]

end Letter

theorem writeLetter_half (place : Fin 0x800) :
    writeLetter (.half place) = unicodeEscape (0xD800 + place.val) := by
  have hcode : (Letter.half place).code = 0xD800 + place.val := rfl
  simp only [writeLetter, hcode, reduceCtorEq, if_false]
  rw [if_neg (by simp only [Bool.and_eq_true, decide_eq_true_eq]; omega), if_pos (by omega)]

private theorem secondUnit_none (l : Letter) (more : Text)
    (hpair : ∀ (a b : Fin 0x800) rest, l = .half a → more = .half b :: rest →
      ¬ (a.val < 0x400 ∧ 0x400 ≤ b.val)) (hhigh : isHighSurrogate l.code = true) (rest : Text) :
    secondUnit (more.flatMap writeLetter ++ .char '"' :: rest) = .none := by
  cases more with
  | nil => rfl
  | cons m more =>
    rw [flatMap_cons, append_assoc]
    refine secondUnit_writeLetter ?_ (by simp)
    by_contra hlow
    simp only [isHighSurrogate, isLowSurrogate, Bool.and_eq_true, Bool.not_eq_false,
      decide_eq_true_eq] at hhigh hlow
    obtain ⟨a, rfl⟩ := Letter.exists_half hhigh.1 (by omega)
    obtain ⟨b, rfl⟩ := Letter.exists_half (by omega) hlow.2
    have ha : (Letter.half a).code = 0xD800 + a.val := rfl
    have hb : (Letter.half b).code = 0xD800 + b.val := rfl
    exact hpair a b more rfl rfl (by omega)

theorem writeLetter_ne_nil (l : Letter) : writeLetter l ≠ [] := by
  have hspelling := spelling_writeLetter l
  generalize writeLetter l = written at hspelling ⊢
  cases hspelling with
  | plain _ _ _ _ => simp
  | short _ _ _ _ _ => simp
  | number _ => exact cons_ne_nil _ _
  | pair _ _ _ => exact unicodeEscape_append_ne_nil _ _

private theorem exists_fuel {more : Text}
    (hfuel : ((l :: more).flatMap writeLetter).length < fuel) :
    ∃ less, fuel = less + 1 ∧ (more.flatMap writeLetter).length < less := by
  have hpos : 0 < (writeLetter l).length := length_pos_iff.mpr (writeLetter_ne_nil l)
  rw [flatMap_cons, length_append] at hfuel
  exact ⟨fuel - 1, by omega, by omega⟩

theorem stringBody_write (start : Nat) (s : Text) {done rest : Text} {position : Nat}
    (hfuel : (s.flatMap writeLetter).length < fuel) :
    ∃ next, stringBody start fuel done ⟨position, s.flatMap writeLetter ++ .char '"' :: rest⟩ =
      .ok (done.reverse ++ joinHalves s, ⟨next, rest⟩) := by
  fun_induction joinHalves s generalizing fuel done position with
  | case1 a b more hpair ih =>
    obtain ⟨fuel, rfl, hsecond⟩ := exists_fuel hfuel
    have hless : (more.flatMap writeLetter).length < fuel := by
      obtain ⟨less, rfl, hless⟩ := exists_fuel hsecond
      omega
    have hhigh : isHighSurrogate (0xD800 + a.val) = true := by
      simp only [isHighSurrogate, Bool.and_eq_true, decide_eq_true_eq]
      omega
    have hlow : isLowSurrogate (0xD800 + b.val) = true := by
      simp only [isLowSurrogate, Bool.and_eq_true, decide_eq_true_eq]
      omega
    have hcode : 0x10000 + (0xD800 + a.val - 0xD800) * 0x400 + (0xD800 + b.val - 0xDC00) =
        0x10000 + a.val * 0x400 + (b.val - 0x400) := by omega
    rw [flatMap_cons, flatMap_cons, writeLetter_half, writeLetter_half, append_assoc, append_assoc,
      stringBody_escape (by omega) (unicodeEscape_append_ne_nil _ _), hhigh,
      secondUnit_escape (by omega) (by simp), hlow]
    simp only [if_true, hcode]
    obtain ⟨next, hnext⟩ := @ih fuel _ (position + 12) hless
    exact ⟨next, by rw [hnext]; simp⟩
  | case2 a b more hpair ih =>
    obtain ⟨fuel, rfl, hless⟩ := exists_fuel hfuel
    have hnone := secondUnit_none (.half a) (.half b :: more) (by
      rintro _ _ _ ⟨⟩ ⟨⟩
      exact hpair)
    rw [flatMap_cons, append_assoc]
    obtain ⟨middle, hmiddle⟩ := stringBody_writeLetter (by simp) (fun h => hnone h rest) start fuel
      done position
    obtain ⟨next, hnext⟩ := @ih fuel (.half a :: done) middle hless
    exact ⟨next, by rw [hmiddle, hnext]; simp⟩
  | case3 l more hpair ih =>
    obtain ⟨fuel, rfl, hless⟩ := exists_fuel hfuel
    have hnone := secondUnit_none l more (by
      intro a b rest hl hmore
      exact (hpair a b rest hl hmore).elim)
    rw [flatMap_cons, append_assoc]
    obtain ⟨middle, hmiddle⟩ := stringBody_writeLetter (by simp) (fun h => hnone h rest) start fuel
      done position
    obtain ⟨next, hnext⟩ := @ih fuel (l :: done) middle hless
    exact ⟨next, by rw [hmiddle, hnext]; simp⟩
  | case4 =>
    obtain ⟨fuel, rfl⟩ := Nat.exists_eq_add_one.mpr (Nat.zero_lt_of_lt hfuel)
    exact ⟨position + 1, by simp [stringBody]⟩

end Json

end AgentConfig
