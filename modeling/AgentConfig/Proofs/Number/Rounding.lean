import AgentConfig.Number.Shortest
import Mathlib.Algebra.Order.Field.Power
import Mathlib.Algebra.Order.Floor.Semifield
import Mathlib.Data.Int.Log
import Mathlib.Data.Rat.Floor

namespace AgentConfig.Binary64

variable {x : ℚ} {e exponent place : Int} {m den n mantissa num grids : Nat} {d : Decimal}
  {negative s : Bool}

theorem natCast_power (base : Nat) (h : 0 ≤ exponent) :
    ((power base exponent : Nat) : ℚ) = (base : ℚ) ^ exponent := by
  obtain ⟨n, rfl⟩ := Int.eq_ofNat_of_zero_le h
  simp [power]

/-- A rational number rounded to a natural one, ties to even. -/
def roundEven (x : ℚ) : Nat :=
  if 1 / 2 < x - ⌊x⌋₊ ∨ (x - ⌊x⌋₊ = 1 / 2 ∧ ⌊x⌋₊ % 2 = 1) then ⌊x⌋₊ + 1 else ⌊x⌋₊

theorem roundQuotient_eq (num : Nat) (hden : 0 < den) :
    roundQuotient num den = roundEven ((num : ℚ) / den) := by
  have hpos : (0 : ℚ) < den := by exact_mod_cast hden
  have hfloor : ⌊(num : ℚ) / den⌋₊ = num / den := Nat.floor_div_eq_div num den
  have hrest : (num : ℚ) / den - ((num / den : Nat) : ℚ) = ((num % den : Nat) : ℚ) / den := by
    have hsplit : (num : ℚ) = den * ((num / den : Nat) : ℚ) + ((num % den : Nat) : ℚ) := by
      exact_mod_cast (Nat.div_add_mod num den).symm
    rw [eq_div_iff hpos.ne', sub_mul, div_mul_cancel₀ _ hpos.ne']
    linarith
  have hlt : (1 / 2 : ℚ) < ((num % den : Nat) : ℚ) / den ↔ den < 2 * (num % den) := by
    rw [div_lt_div_iff₀ two_pos hpos, one_mul, mul_comm]
    exact_mod_cast Iff.rfl
  have heq : ((num % den : Nat) : ℚ) / den = 1 / 2 ↔ 2 * (num % den) = den := by
    rw [div_eq_div_iff hpos.ne' two_ne_zero, one_mul, mul_comm]
    exact_mod_cast Iff.rfl
  simp only [roundQuotient, roundEven, hfloor, hrest, hlt, heq]

theorem roundEven_natCast (n : Nat) : roundEven n = n := by
  simp [roundEven]

theorem le_roundEven (h : (n : ℚ) ≤ x) : n ≤ roundEven x := by
  have hfloor : n ≤ ⌊x⌋₊ := Nat.le_floor h
  unfold roundEven
  split <;> omega

theorem roundEven_le (hx : 0 ≤ x) (h : x < n) : roundEven x ≤ n := by
  have hfloor : ⌊x⌋₊ < n := (Nat.floor_lt hx).mpr h
  unfold roundEven
  split <;> omega

theorem roundEven_eq_zero (h : x < 1 / 2) : roundEven x = 0 := by
  have hfloor : ⌊x⌋₊ = 0 := Nat.floor_eq_zero.mpr (by linarith)
  unfold roundEven
  rw [hfloor, if_neg]
  rintro (hlarge | ⟨-, hodd⟩)
  · linarith
  · omega

theorem log_eq (hlow : (2 : ℚ) ^ e ≤ x) (hhigh : x < (2 : ℚ) ^ (e + 1)) : Int.log 2 x = e := by
  have hx : 0 < x := lt_of_lt_of_le (zpow_pos two_pos e) hlow
  have hle : e ≤ Int.log 2 x :=
    (Int.zpow_le_iff_le_log one_lt_two hx).mp (by exact_mod_cast hlow)
  have hlt : Int.log 2 x < e + 1 :=
    (Int.lt_zpow_iff_log_lt one_lt_two hx).mp (by exact_mod_cast hhigh)
  omega

theorem zpow_log_le (hx : 0 < x) : (2 : ℚ) ^ Int.log 2 x ≤ x := by
  exact_mod_cast Int.zpow_log_le_self one_lt_two hx

theorem lt_zpow_log : x < (2 : ℚ) ^ (Int.log 2 x + 1) := by
  exact_mod_cast Int.lt_zpow_succ_log_self one_lt_two x

section Quotient

variable (hnum : 0 < num) (hden : 0 < den)
include hnum hden

private theorem guess_bounds : (2 : ℚ) ^ ((num.log2 : Int) - den.log2 - 1) < num / den ∧
      (num : ℚ) / den < (2 : ℚ) ^ ((num.log2 : Int) - den.log2 + 1) := by
  have hpos : (0 : ℚ) < den := by exact_mod_cast hden
  have hnumLow : ((2 : ℚ)) ^ (num.log2 : Int) ≤ num := by
    exact_mod_cast Nat.log2_self_le hnum.ne'
  have hnumHigh : (num : ℚ) < (2 : ℚ) ^ ((num.log2 : Int) + 1) := by
    exact_mod_cast Nat.lt_log2_self
  have hdenLow : ((2 : ℚ)) ^ (den.log2 : Int) ≤ den := by
    exact_mod_cast Nat.log2_self_le hden.ne'
  have hdenHigh : (den : ℚ) < (2 : ℚ) ^ ((den.log2 : Int) + 1) := by
    exact_mod_cast Nat.lt_log2_self
  constructor
  · rw [lt_div_iff₀ hpos]
    calc (2 : ℚ) ^ ((num.log2 : Int) - den.log2 - 1) * den
        < (2 : ℚ) ^ ((num.log2 : Int) - den.log2 - 1) * (2 : ℚ) ^ ((den.log2 : Int) + 1) := by
          gcongr
      _ = (2 : ℚ) ^ (num.log2 : Int) := by
          rw [← zpow_add₀ two_ne_zero]
          congr 1
          omega
      _ ≤ num := hnumLow
  · rw [div_lt_iff₀ hpos]
    calc (num : ℚ) < (2 : ℚ) ^ ((num.log2 : Int) + 1) := hnumHigh
      _ = (2 : ℚ) ^ ((num.log2 : Int) - den.log2 + 1) * (2 : ℚ) ^ (den.log2 : Int) := by
          rw [← zpow_add₀ two_ne_zero]
          congr 1
          omega
      _ ≤ (2 : ℚ) ^ ((num.log2 : Int) - den.log2 + 1) * den := by gcongr

theorem logRatio_eq : logRatio num den = Int.log 2 ((num : ℚ) / den) := by
  have hpos : (0 : ℚ) < den := by exact_mod_cast hden
  obtain ⟨hlow, hhigh⟩ := guess_bounds hnum hden
  have hreached : (if (num.log2 : Int) - den.log2 < 0 then
        decide (den ≤ num * power 2 (-((num.log2 : Int) - den.log2)))
      else decide (den * power 2 ((num.log2 : Int) - den.log2) ≤ num)) = true ↔
      (2 : ℚ) ^ ((num.log2 : Int) - den.log2) ≤ num / den := by
    generalize (num.log2 : Int) - den.log2 = guess
    rw [le_div_iff₀ hpos]
    split
    · have hscaled : (2 : ℚ) ^ guess * den ≤ num ↔ (den : ℚ) ≤ num * (2 : ℚ) ^ (-guess) := by
        rw [zpow_neg, ← div_eq_mul_inv, le_div_iff₀ (zpow_pos two_pos guess), mul_comm]
      rw [hscaled, decide_eq_true_iff, ← Nat.cast_le (α := ℚ), Nat.cast_mul,
        natCast_power 2 (by omega), Nat.cast_ofNat]
    · rw [decide_eq_true_iff, ← Nat.cast_le (α := ℚ), Nat.cast_mul, natCast_power 2 (by omega),
        Nat.cast_ofNat, mul_comm]
  unfold logRatio
  by_cases hguess : (2 : ℚ) ^ ((num.log2 : Int) - den.log2) ≤ num / den
  · rw [if_pos (hreached.mpr hguess)]
    exact (log_eq hguess hhigh).symm
  · rw [if_neg (mt hreached.mp hguess)]
    exact (log_eq hlow.le (by rw [sub_add_cancel]; exact not_le.mp hguess)).symm

end Quotient

/-- The number of a rounded mantissa, which may have one bit too many. -/
def ofMantissa (negative : Bool) (mantissa : Nat) (exponent : Int) : Binary64 :=
  if mantissa = 2 ^ 53 then
    if maxExponent < exponent + 1 then .infinite negative
    else .finite negative (2 ^ 52) (exponent + 1)
  else if maxExponent < exponent then .infinite negative
  else .finite negative mantissa exponent

/-- The exponent at which a value is rounded. -/
def exponentOf (x : ℚ) : Int := max minExponent (Int.log 2 x - 52)

/-- The number nearest to a value, with the given sign. -/
def nearest (negative : Bool) (x : ℚ) : Binary64 :=
  if x = 0 then zero negative
  else ofMantissa negative (roundEven (x / (2 : ℚ) ^ exponentOf x)) (exponentOf x)

theorem ofRatio_eq (negative : Bool) (num : Nat) (hden : 0 < den) :
    ofRatio negative num den = nearest negative ((num : ℚ) / den) := by
  have hpos : (0 : ℚ) < den := by exact_mod_cast hden
  unfold ofRatio nearest
  rcases Nat.eq_zero_or_pos num with rfl | hnum
  · simp
  have hne : (num : ℚ) / den ≠ 0 := (div_pos (by exact_mod_cast hnum) hpos).ne'
  rw [if_neg hnum.ne', if_neg hne, logRatio_eq hnum hden]
  dsimp only
  rw [← exponentOf]
  generalize exponentOf ((num : ℚ) / den) = exponent
  have hmantissa : (if exponent < 0 then roundQuotient (num * power 2 (-exponent)) den
      else roundQuotient num (den * power 2 exponent)) =
      roundEven ((num : ℚ) / den / (2 : ℚ) ^ exponent) := by
    split
    · rw [roundQuotient_eq _ hden, Nat.cast_mul, natCast_power 2 (by omega), zpow_neg]
      push_cast
      field_simp
    · have hscaled : 0 < den * power 2 exponent := Nat.mul_pos hden (Nat.pow_pos two_pos)
      rw [roundQuotient_eq _ hscaled, Nat.cast_mul, natCast_power 2 (by omega), div_div]
      rfl
  rw [hmantissa, ofMantissa]
  by_cases hbits : roundEven ((num : ℚ) / den / (2 : ℚ) ^ exponent) = 2 ^ 53
  · rw [if_pos (show _ = power 2 53 from hbits), if_pos hbits]
    rfl
  · rw [if_neg (show ¬ _ = power 2 53 from hbits), if_neg hbits]

theorem div_exponentOf_lt (x : ℚ) : x / (2 : ℚ) ^ exponentOf x < (2 ^ 53 : Nat) := by
  rw [div_lt_iff₀ (zpow_pos two_pos _)]
  calc x < (2 : ℚ) ^ (Int.log 2 x + 1) := lt_zpow_log
    _ ≤ (2 : ℚ) ^ (53 + exponentOf x) :=
        zpow_le_zpow_right₀ one_le_two (by unfold exponentOf; omega)
    _ = (2 ^ 53 : Nat) * (2 : ℚ) ^ exponentOf x := by
        rw [zpow_add₀ two_ne_zero]
        norm_num

theorem le_div_exponentOf (hx : 0 < x) (h : exponentOf x ≠ minExponent) :
    ((2 ^ 52 : Nat) : ℚ) ≤ x / (2 : ℚ) ^ exponentOf x := by
  have hexponent : 52 + exponentOf x = Int.log 2 x := by
    unfold exponentOf at h ⊢
    omega
  rw [le_div_iff₀ (zpow_pos two_pos _)]
  calc ((2 ^ 52 : Nat) : ℚ) * (2 : ℚ) ^ exponentOf x = (2 : ℚ) ^ (52 + exponentOf x) := by
        rw [zpow_add₀ two_ne_zero]
        norm_num
    _ = (2 : ℚ) ^ Int.log 2 x := by rw [hexponent]
    _ ≤ x := zpow_log_le hx

theorem nearest_of_large (negative : Bool) (h : (2 : ℚ) ^ (1024 : Int) ≤ x) :
    nearest negative x = .infinite negative := by
  have hx : 0 < x := lt_of_lt_of_le (zpow_pos two_pos _) h
  have hlog : 1024 ≤ Int.log 2 x :=
    (Int.zpow_le_iff_le_log one_lt_two hx).mp (by rwa [Nat.cast_ofNat])
  have hexponent : maxExponent < exponentOf x := by
    unfold exponentOf maxExponent
    omega
  have hnext : maxExponent < exponentOf x + 1 := by omega
  rw [nearest, if_neg hx.ne', ofMantissa, if_pos hnext, if_pos hexponent, ite_self]

theorem nearest_of_small (negative : Bool) (hx : 0 ≤ x) (h : x < (2 : ℚ) ^ (-1075 : Int)) :
    nearest negative x = zero negative := by
  rcases hx.eq_or_lt with rfl | hpos
  · simp [nearest]
  have hlog : Int.log 2 x < -1075 :=
    (Int.lt_zpow_iff_log_lt one_lt_two hpos).mp (by exact_mod_cast h)
  have hexponent : exponentOf x = minExponent := by
    unfold exponentOf minExponent
    omega
  have hhalf : x / (2 : ℚ) ^ minExponent < 1 / 2 := by
    rw [div_lt_iff₀ (zpow_pos two_pos _)]
    calc x < (2 : ℚ) ^ (-1075 : Int) := h
      _ = 1 / 2 * (2 : ℚ) ^ minExponent := by
          rw [show (-1075 : Int) = -1 + minExponent by rfl, zpow_add₀ two_ne_zero]
          norm_num
  rw [nearest, if_neg hpos.ne', hexponent, roundEven_eq_zero hhalf]
  rfl

theorem lt_pow_length_toDigits (n : Nat) : n < 10 ^ (Nat.toDigits 10 n).length :=
  (Nat.length_toDigits_le_iff (by decide) Nat.length_toDigits_pos).mp le_rfl

theorem pow_length_toDigits_le (hn : 0 < n) : 10 ^ ((Nat.toDigits 10 n).length - 1) ≤ n := by
  by_contra hlt
  rcases Nat.eq_zero_or_pos ((Nat.toDigits 10 n).length - 1) with hone | hmore
  · rw [hone] at hlt
    omega
  · have hshort := (Nat.length_toDigits_le_iff (by decide) hmore).mpr (not_le.mp hlt)
    omega

private theorem two_zpow_le : (2 : ℚ) ^ (1075 : Int) ≤ (10 : ℚ) ^ (400 : Int) := by
  calc (2 : ℚ) ^ (1075 : Int) ≤ (2 : ℚ) ^ (3 * 400 : Int) :=
        zpow_le_zpow_right₀ one_le_two (by decide)
    _ = ((2 : ℚ) ^ (3 : Int)) ^ (400 : Int) := zpow_mul _ _ _
    _ ≤ (10 : ℚ) ^ (400 : Int) := zpow_le_zpow_left₀ (by decide) (by norm_num) (by norm_num)

theorem ofDecimal_eq (negative : Bool) (digits : Nat) (exponent : Int) :
    ofDecimal negative digits exponent = nearest negative ((digits : ℚ) * (10 : ℚ) ^ exponent) := by
  rcases Nat.eq_zero_or_pos digits with rfl | hdigits
  · simp [ofDecimal, nearest]
  have hlength := Nat.length_toDigits_pos (b := 10) (n := digits)
  have hhigh : (digits : ℚ) < (10 : ℚ) ^ ((Nat.toDigits 10 digits).length : Int) := by
    exact_mod_cast lt_pow_length_toDigits digits
  have hlow : (10 : ℚ) ^ (((Nat.toDigits 10 digits).length : Int) - 1) ≤ digits := by
    rw [show ((Nat.toDigits 10 digits).length : Int) - 1 =
      (((Nat.toDigits 10 digits).length - 1 : Nat) : Int) by omega, zpow_natCast]
    exact_mod_cast pow_length_toDigits_le hdigits
  unfold ofDecimal
  dsimp only
  generalize ((Nat.toDigits 10 digits).length : Int) = length at hhigh hlow
  split
  · refine (nearest_of_small negative (by positivity) ?_).symm
    calc (digits : ℚ) * (10 : ℚ) ^ exponent < (10 : ℚ) ^ length * (10 : ℚ) ^ exponent := by gcongr
      _ = (10 : ℚ) ^ (length + exponent) := (zpow_add₀ (by norm_num) _ _).symm
      _ ≤ (10 : ℚ) ^ (-400 : Int) := zpow_le_zpow_right₀ (by norm_num) (by omega)
      _ ≤ (2 : ℚ) ^ (-1075 : Int) := by
          rw [zpow_neg, zpow_neg]
          exact inv_anti₀ (zpow_pos two_pos _) two_zpow_le
  split
  · refine (nearest_of_large negative ?_).symm
    calc (2 : ℚ) ^ (1024 : Int) ≤ (2 : ℚ) ^ (1075 : Int) :=
          zpow_le_zpow_right₀ one_le_two (by decide)
      _ ≤ (10 : ℚ) ^ (400 : Int) := two_zpow_le
      _ ≤ (10 : ℚ) ^ (length - 1 + exponent) := zpow_le_zpow_right₀ (by norm_num) (by omega)
      _ = (10 : ℚ) ^ (length - 1) * (10 : ℚ) ^ exponent := zpow_add₀ (by norm_num) _ _
      _ ≤ digits * (10 : ℚ) ^ exponent := by gcongr
  split
  · have hden : 0 < power 10 (-exponent) := Nat.pow_pos (by decide)
    rw [ofRatio_eq _ _ hden, natCast_power 10 (by omega), zpow_neg, div_inv_eq_mul]
    rfl
  · rw [ofRatio_eq _ _ one_pos, Nat.cast_mul, natCast_power 10 (by omega), Nat.cast_one, div_one]
    rfl

/-- The form of a finite number that rounding gives it. -/
structure IsNormal (mantissa : Nat) (exponent : Int) : Prop where
  bits : mantissa < 2 ^ 53
  least : minExponent ≤ exponent
  most : exponent ≤ maxExponent
  full : exponent = minExponent ∨ 2 ^ 52 ≤ mantissa

theorem isNormal_of_ofMantissa (h : ofMantissa negative mantissa exponent = .finite s m e)
    (hbits : mantissa ≤ 2 ^ 53) (hleast : minExponent ≤ exponent)
    (hfull : exponent = minExponent ∨ 2 ^ 52 ≤ mantissa) : s = negative ∧ IsNormal m e := by
  unfold ofMantissa at h
  split at h
  · split at h
    · cases h
    · obtain ⟨rfl, rfl, rfl⟩ := finite.inj h
      exact ⟨rfl, by decide, by omega, by omega, .inr (by decide)⟩
  · split at h
    · cases h
    · obtain ⟨rfl, rfl, rfl⟩ := finite.inj h
      exact ⟨rfl, by omega, hleast, by omega, hfull⟩

theorem isNormal_nearest (hx : 0 ≤ x) (h : nearest negative x = .finite s m e) :
    s = negative ∧ IsNormal m e := by
  unfold nearest at h
  split at h
  · obtain ⟨rfl, rfl, rfl⟩ := finite.inj h
    exact ⟨rfl, by decide, le_rfl, by decide, .inl rfl⟩
  have hpos : 0 < x := lt_of_le_of_ne hx (Ne.symm ‹_›)
  refine isNormal_of_ofMantissa h
    (roundEven_le (div_nonneg hx (zpow_pos two_pos _).le) (div_exponentOf_lt x))
    (le_max_left _ _) ?_
  by_cases hleast : exponentOf x = minExponent
  · exact .inl hleast
  · exact .inr (le_roundEven (le_div_exponentOf hpos hleast))

theorem ofMantissa_eq_finite
    (h : ofMantissa false mantissa exponent = .finite false m e) (negative : Bool) :
    ofMantissa negative mantissa exponent = .finite negative m e := by
  unfold ofMantissa at h ⊢
  split_ifs at h ⊢ <;> simp_all

theorem nearest_eq_finite (h : nearest false x = .finite false m e) (negative : Bool) :
    nearest negative x = .finite negative m e := by
  unfold nearest at h ⊢
  split
  · rw [if_pos ‹_›] at h
    obtain ⟨-, rfl, rfl⟩ := finite.inj h
    rfl
  · rw [if_neg ‹_›] at h
    exact ofMantissa_eq_finite h negative

theorem IsNormal.nearest_eq (h : IsNormal m e) (negative : Bool) :
    nearest negative ((m : ℚ) * (2 : ℚ) ^ e) = .finite negative m e := by
  have hunit : (0 : ℚ) < (2 : ℚ) ^ e := zpow_pos two_pos e
  rcases Nat.eq_zero_or_pos m with rfl | hm
  · have he : e = minExponent := h.full.resolve_right (by decide)
    simp [nearest, he, zero]
  have hpos : (0 : ℚ) < m := by exact_mod_cast hm
  have hlog : Int.log 2 ((m : ℚ) * (2 : ℚ) ^ e) = m.log2 + e := by
    refine log_eq ?_ ?_
    · rw [zpow_add₀ two_ne_zero, zpow_natCast]
      gcongr
      exact_mod_cast Nat.log2_self_le hm.ne'
    · rw [show (m.log2 : Int) + e + 1 = ((m.log2 + 1 : Nat) : Int) + e by omega,
        zpow_add₀ two_ne_zero, zpow_natCast]
      gcongr
      exact_mod_cast Nat.lt_log2_self
  have hexponent : exponentOf ((m : ℚ) * (2 : ℚ) ^ e) = e := by
    have hbits : m.log2 < 53 := (Nat.log2_lt hm.ne').mpr h.bits
    have hleast := h.least
    unfold exponentOf
    rcases h.full with hmin | hfull
    · omega
    · have hlarge : 52 ≤ m.log2 := (Nat.le_log2 hm.ne').mpr hfull
      omega
  have hbits := h.bits
  rw [nearest, if_neg (mul_pos hpos hunit).ne', hexponent, mul_div_cancel_right₀ _ hunit.ne',
    roundEven_natCast, ofMantissa, if_neg (by omega), if_neg (not_lt.mpr h.most)]

namespace Decimal

def value (d : Decimal) : ℚ := (d.digits : ℚ) * (10 : ℚ) ^ d.exponent

theorem toBinary_eq (d : Decimal) : d.toBinary = nearest false d.value :=
  ofDecimal_eq false d.digits d.exponent

theorem value_normalize (fuel : Nat) (d : Decimal) : (normalize fuel d).value = d.value := by
  induction fuel generalizing d with
  | zero => rfl
  | succ fuel ih =>
    rw [normalize]
    split
    · rename_i hzeros
      have hdigits : (d.digits : ℚ) = ((d.digits / 10 : Nat) : ℚ) * 10 := by
        exact_mod_cast (Nat.div_mul_cancel (Nat.dvd_of_mod_eq_zero hzeros.2)).symm
      rw [ih, value, value, hdigits, zpow_add₀ (by norm_num), zpow_one]
      ring
    · rfl

end Decimal

private theorem toBinary_of_pair {x : Binary64} {pair : Decimal × Decimal}
    (h : (if pair.1.toBinary = x then some pair.1
      else if pair.2.toBinary = x then some pair.2 else none) = some d) : d.toBinary = x := by
  split at h
  · rw [← Option.some.inj h]
    assumption
  split at h
  · rw [← Option.some.inj h]
    assumption
  · cases h

theorem toBinary_of_neighbour? {x : Binary64}
    (h : neighbour? x num den place = some d) : d.toBinary = x :=
  toBinary_of_pair h

theorem toBinary_of_firstGrid {x : Binary64}
    (h : firstGrid x num den grids place = some d) : d.toBinary = x := by
  induction grids generalizing place with
  | zero => cases h
  | succ grids ih =>
    rw [firstGrid, Option.or_eq_some_iff] at h
    rcases h with h | ⟨-, h⟩
    · exact toBinary_of_neighbour? h
    · exact ih h

theorem value_exactDecimal (m : Nat) (e : Int) :
    (exactDecimal m e).value = (m : ℚ) * (2 : ℚ) ^ e := by
  unfold exactDecimal Decimal.value
  split
  · rw [Nat.cast_mul, natCast_power 5 (by omega), mul_assoc, zpow_neg]
    rw [show (10 : ℚ) = 2 * 5 by norm_num, mul_zpow]
    push_cast
    field_simp
  · rw [Nat.cast_mul, natCast_power 2 (by omega)]
    push_cast
    ring

/-- The shortest decimal of a number in normal form reads back as the number. -/
theorem IsNormal.ofDecimal_shortest (h : IsNormal m e) (negative : Bool) :
    ofDecimal negative (shortest m e).digits (shortest m e).exponent = .finite negative m e := by
  rw [ofDecimal_eq]
  change nearest negative (shortest m e).value = _
  apply nearest_eq_finite
  unfold shortest
  split
  · rename_i hm
    have he : e = minExponent := h.full.resolve_right (by rw [hm]; decide)
    simp [Decimal.value, nearest, hm, he, zero]
  · rw [Decimal.value_normalize]
    cases hgrid : firstGrid (.finite false m e) _ _ 17 _ with
    | none => rw [Option.getD_none, value_exactDecimal, h.nearest_eq]
    | some d => rw [Option.getD_some, ← Decimal.toBinary_eq, toBinary_of_firstGrid hgrid]

end AgentConfig.Binary64
