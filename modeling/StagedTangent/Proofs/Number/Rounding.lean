import Mathlib.Data.Nat.Cast.Order.Field
import Mathlib.Data.Nat.Digits.Defs
import StagedTangent.Number.Decimal
import StagedTangent.Proofs.Number.Nearest

/-!
# Rounding gives the nearest number

The quotient of a fraction by a power of two lies between two whole numbers, and these are the
significands of the two binary numbers around the fraction: what `roundHalfEven` decides about the
quotient it decides about the binary numbers (`nearest_isNearest`). Decimals so large or so small
that their powers are not computed lie beyond every binary number or next to zero, which makes
`Decimal.toBinary64_isNearest` hold of all of them.
-/

namespace StagedTangent

/-! ## Fractions -/

theorem scaleDown_pos {base num den : Nat} (hbase : 0 < base) (hden : 0 < den) (power : Int) :
    0 < (scaleDown base num den power).2 := by
  cases power with
  | ofNat n => exact Nat.mul_pos hden (Nat.pow_pos hbase)
  | negSucc n => exact hden

theorem scaleDown_eq (base num den : Nat) (power : Int) :
    ((scaleDown base num den power).1 : ℚ) / (scaleDown base num den power).2 =
      num / den / (base : ℚ) ^ power := by
  cases power with
  | ofNat n =>
    simp only [scaleDown, Nat.pow_eq, Nat.cast_mul, Nat.cast_pow, Int.ofNat_eq_natCast, zpow_natCast]
    rw [div_div]
  | negSucc n =>
    simp only [scaleDown, Nat.pow_eq, Nat.cast_mul, Nat.cast_pow, zpow_negSucc]
    rw [div_inv_eq_mul, div_mul_eq_mul_div]

theorem cast_pow (base n : Nat) : ((base ^ n : ℕ) : ℚ) = (base : ℚ) ^ (n : ℤ) := by
  rw [Nat.cast_pow, zpow_natCast]

/-- A fraction is its whole part and what is left. -/
theorem div_eq_add_mod (num : Nat) {den : Nat} (hden : 0 < den) :
    (num : ℚ) / den = (num / den : ℕ) + (num % den : ℕ) / den := by
  have hne : (den : ℚ) ≠ 0 := Nat.cast_ne_zero.2 hden.ne'
  rw [div_eq_iff hne, add_mul, div_mul_cancel₀ _ hne, mul_comm]
  exact_mod_cast (Nat.div_add_mod num den).symm

/-- A fraction lies between two whole numbers. -/
theorem div_bounds (num : Nat) {den : Nat} (hden : 0 < den) :
    ((num / den : ℕ) : ℚ) ≤ num / den ∧ (num : ℚ) / den < (num / den : ℕ) + 1 := by
  have hpos : (0 : ℚ) < den := Nat.cast_pos.2 hden
  have hleft : ((num % den : ℕ) : ℚ) < den := Nat.cast_lt.2 (Nat.mod_lt num hden)
  rw [div_eq_add_mod num hden]
  refine ⟨le_add_of_nonneg_right (by positivity), ?_⟩
  rw [add_lt_add_iff_left, div_lt_one hpos]
  exact hleft

/-- Rounding goes to the closer one of these, and to the even one from the middle. -/
theorem roundHalfEven_cases (num : Nat) {den : Nat} (hden : 0 < den) :
    (2 * ((num : ℚ) / den) < 2 * (num / den : ℕ) + 1 ∧ roundHalfEven num den = num / den) ∨
      (2 * (num / den : ℕ) + 1 < 2 * ((num : ℚ) / den) ∧ roundHalfEven num den = num / den + 1) ∨
      (2 * ((num : ℚ) / den) = 2 * (num / den : ℕ) + 1 ∧ roundHalfEven num den % 2 = 0 ∧
        (roundHalfEven num den = num / den ∨ roundHalfEven num den = num / den + 1)) := by
  have hpos : (0 : ℚ) < den := Nat.cast_pos.2 hden
  have hdouble : 2 * ((num : ℚ) / den) =
      2 * (num / den : ℕ) + (2 * (num % den) : ℕ) / den := by
    rw [div_eq_add_mod num hden, mul_add, ← mul_div_assoc, Nat.cast_mul, Nat.cast_ofNat]
  rw [hdouble, add_lt_add_iff_left, add_lt_add_iff_left, add_right_inj, div_lt_one hpos,
    one_lt_div hpos, div_eq_one_iff_eq hpos.ne', Nat.cast_lt, Nat.cast_lt, Nat.cast_inj]
  unfold roundHalfEven
  dsimp only
  split
  · next hlt => exact .inl ⟨hlt, rfl⟩
  · split
    · next hgt => exact .inr (.inl ⟨hgt, rfl⟩)
    · refine .inr (.inr ⟨by omega, ?_⟩)
      split
      · next heven => exact ⟨heven, .inl rfl⟩
      · exact ⟨by omega, .inr rfl⟩

/-! ## The exponent -/

namespace Binary64

/-- A positive whole number lies between two powers of two. -/
theorem log2_bounds {n : Nat} (hn : 0 < n) :
    (2 : ℚ) ^ (n.log2 : ℤ) ≤ n ∧ (n : ℚ) < 2 ^ ((n.log2 : ℤ) + 1) := by
  have hlow : ((2 ^ n.log2 : ℕ) : ℚ) ≤ n := Nat.cast_le.2 (Nat.log2_self_le hn.ne')
  have hhigh : (n : ℚ) < (2 ^ (n.log2 + 1) : ℕ) := Nat.cast_lt.2 Nat.lt_log2_self
  rw [cast_pow] at hlow hhigh
  exact ⟨hlow, hhigh⟩

/-- The quotient of the powers of two below two numbers is the power of two below their quotient, or
the one behind it. -/
theorem div_log2_bounds {num den : Nat} (hnum : 0 < num) (hden : 0 < den) :
    (2 : ℚ) ^ ((num.log2 : ℤ) - den.log2 - 1) ≤ num / den ∧
      (num : ℚ) / den < 2 ^ ((num.log2 : ℤ) - den.log2 + 1) := by
  have hpos : (0 : ℚ) < den := Nat.cast_pos.2 hden
  have hnum := log2_bounds hnum
  have hden := log2_bounds hden
  constructor
  · rw [le_div_iff₀ hpos]
    refine le_trans (mul_le_mul_of_nonneg_left hden.2.le (by positivity)) ?_
    rw [← zpow_add₀ two_ne_zero]
    refine le_trans (le_of_eq ?_) hnum.1
    congr 1
    omega
  · rw [div_lt_iff₀ hpos]
    refine lt_of_lt_of_le hnum.2 (le_trans (le_of_eq ?_)
      (mul_le_mul_of_nonneg_left hden.1 (by positivity)))
    rw [← zpow_add₀ two_ne_zero]
    congr 1
    omega

/-- The greatest power of two up to a fraction. -/
theorem floorLog2_spec {num den : Nat} (hnum : 0 < num) (hden : 0 < den) :
    (2 : ℚ) ^ floorLog2 num den ≤ num / den ∧ (num : ℚ) / den < 2 ^ (floorLog2 num den + 1) := by
  obtain ⟨hlower, hupper⟩ := div_log2_bounds hnum hden
  have hguess : (scaleDown 2 num den ((num.log2 : ℤ) - den.log2)).2 ≤
      (scaleDown 2 num den ((num.log2 : ℤ) - den.log2)).1 ↔
      (2 : ℚ) ^ ((num.log2 : ℤ) - den.log2) ≤ num / den := by
    have hscaled : (0 : ℚ) < (scaleDown 2 num den ((num.log2 : ℤ) - den.log2)).2 :=
      Nat.cast_pos.2 (scaleDown_pos two_pos hden _)
    rw [← Nat.cast_le (α := ℚ), ← one_le_div hscaled, scaleDown_eq, Nat.cast_ofNat,
      one_le_div (by positivity)]
  unfold floorLog2
  dsimp only
  split
  · next hle => exact ⟨hguess.1 hle, hupper⟩
  · next hnot =>
    rw [Int.sub_add_cancel]
    exact ⟨hlower, not_le.1 fun hle => hnot (hguess.2 hle)⟩

/-! ## The nearest number -/

/-- A positive fraction rounds to the one of its neighbours that its quotient by a power of two
rounds to. -/
theorem rounds_of_roundHalfEven {r : ℚ} {exponent num den : Nat} (hden : 0 < den)
    (hr : r = (num : ℚ) / den * (2 ^ exponent * unit)) (hmax : num / den < 2 ^ 53)
    (hmin : 2 ^ 52 ≤ num / den ∨ exponent = 0) :
    Rounds r (exponent * 2 ^ 52 + num / den) (exponent * 2 ^ 52 + roundHalfEven num den) := by
  have hscale : (0 : ℚ) < 2 ^ exponent * unit := mul_pos (by positivity) unit_pos
  have hbelow : (steps (exponent * 2 ^ 52 + num / den) : ℚ) * unit =
      (num / den : ℕ) * (2 ^ exponent * unit) := by
    rw [steps_add hmax.le hmin, Nat.cast_mul, Nat.cast_pow, Nat.cast_ofNat, mul_assoc]
  have habove : (steps (exponent * 2 ^ 52 + num / den + 1) : ℚ) * unit =
      ((num / den : ℕ) + 1) * (2 ^ exponent * unit) := by
    rw [Nat.add_assoc, steps_add hmax (hmin.imp_left (by omega)), Nat.cast_mul, Nat.cast_pow,
      Nat.cast_ofNat, mul_assoc, Nat.cast_add_one]
  have hsum : (steps (exponent * 2 ^ 52 + num / den) : ℚ) * unit +
      steps (exponent * 2 ^ 52 + num / den + 1) * unit =
      (2 * (num / den : ℕ) + 1) * (2 ^ exponent * unit) := by
    rw [hbelow, habove]
    ring
  have htwice : 2 * r = 2 * ((num : ℚ) / den) * (2 ^ exponent * unit) := by
    rw [hr]
    ring
  have hparity : (exponent * 2 ^ 52 + roundHalfEven num den) % 2 = roundHalfEven num den % 2 := by
    omega
  have hcases := roundHalfEven_cases num hden
  have hbounds := div_bounds num hden
  refine ⟨?_, ?_, fun h => ?_, fun h => ?_, fun h => ?_, ?_⟩
  · rw [hbelow, hr]
    exact mul_le_mul_of_nonneg_right hbounds.1 hscale.le
  · rw [habove, hr]
    exact mul_lt_mul_of_pos_right hbounds.2 hscale
  · rw [hsum, htwice, mul_lt_mul_iff_left₀ hscale] at h
    rcases hcases with ⟨-, heq⟩ | ⟨hlt, -⟩ | ⟨heq, -⟩
    · rw [heq]
    · exact absurd h (lt_asymm hlt)
    · exact absurd heq h.ne
  · rw [hsum, htwice, mul_lt_mul_iff_left₀ hscale] at h
    rcases hcases with ⟨hlt, -⟩ | ⟨-, heq⟩ | ⟨heq, -⟩
    · exact absurd h (lt_asymm hlt)
    · rw [heq, Nat.add_assoc]
    · exact absurd heq h.ne'
  · rw [hsum, htwice, mul_left_inj' hscale.ne'] at h
    rw [hparity]
    rcases hcases with ⟨hlt, -⟩ | ⟨hlt, -⟩ | ⟨-, heven, -⟩
    · exact absurd h hlt.ne
    · exact absurd h hlt.ne'
    · exact heven
  · rcases hcases with ⟨-, heq⟩ | ⟨-, heq⟩ | ⟨-, -, heq⟩ <;> omega

/-- Zero is nearest to whatever is not more than half of the least positive number. -/
theorem zero_isNearest {r : ℚ} (hr : 0 ≤ r) (hlt : 2 * r < unit) : IsNearest r (.zero false) := by
  have hone : (steps (0 + 1) : ℚ) * unit = unit := by norm_num [steps]
  have hzero : (steps 0 : ℚ) * unit = 0 := by norm_num [steps]
  have hrounds : Rounds r 0 0 := by
    refine ⟨by rwa [hzero], by rw [hone]; linarith, fun _ => rfl, fun h => ?_, fun _ => rfl, .inl rfl⟩
    rw [hzero, hone] at h
    linarith
  exact isNearest_of_rounds hrounds

/-- `nearest` gives the nearest number. -/
theorem nearest_isNearest (num : Nat) {den : Nat} (hden : 0 < den) :
    IsNearest ((num : ℚ) / den) (nearest false num den) := by
  rcases Nat.eq_zero_or_pos num with rfl | hnum
  · rw [nearest, if_pos rfl, Nat.cast_zero, zero_div]
    exact zero_isNearest le_rfl (by rw [mul_zero]; exact unit_pos)
  · obtain ⟨hlow, hhigh⟩ := floorLog2_spec hnum hden
    rw [nearest, if_neg hnum.ne']
    dsimp only
    have hq : -1074 ≤ max (floorLog2 num den - 52) (-1074) := le_max_right _ _
    have hchoice : max (floorLog2 num den - 52) (-1074) = floorLog2 num den - 52 ∨
        max (floorLog2 num den - 52) (-1074) = -1074 := max_choice _ _
    have hle : floorLog2 num den - 52 ≤ max (floorLog2 num den - 52) (-1074) := le_max_left _ _
    generalize max (floorLog2 num den - 52) (-1074) = q at *
    have htwo : (0 : ℚ) < 2 ^ q := by positivity
    have hscaled := scaleDown_eq 2 num den q
    have hpos : 0 < (scaleDown 2 num den q).2 := scaleDown_pos two_pos hden q
    generalize scaleDown 2 num den q = scaled at *
    rw [Nat.cast_ofNat] at hscaled
    have hbounds := div_bounds scaled.1 hpos
    rw [hscaled] at hbounds
    have hunit : (2 : ℚ) ^ (q + 1074).toNat * unit = 2 ^ q := by
      rw [unit, ← zpow_natCast, ← zpow_add₀ two_ne_zero]
      congr 1
      omega
    refine isNearest_of_rounds (rounds_of_roundHalfEven hpos ?_ ?_ ?_)
    · rw [hunit, hscaled, div_mul_cancel₀ _ htwo.ne']
    · have hlt : ((scaled.1 / scaled.2 : ℕ) : ℚ) < (2 ^ 53 : ℕ) := by
        refine lt_of_le_of_lt hbounds.1 ((div_lt_iff₀ htwo).2 (lt_of_lt_of_le hhigh ?_))
        rw [Nat.cast_pow, Nat.cast_ofNat, ← zpow_natCast, ← zpow_add₀ two_ne_zero]
        exact zpow_le_zpow_right₀ one_le_two (by omega)
      exact Nat.cast_lt.1 hlt
    · rcases hchoice with rfl | rfl
      · refine .inl (Nat.le_of_lt_succ (Nat.cast_lt (α := ℚ).1 ?_))
        refine lt_of_le_of_lt ((le_div_iff₀ htwo).2 (le_trans (le_of_eq ?_) hlow)) (by
          exact_mod_cast hbounds.2)
        rw [Nat.cast_pow, Nat.cast_ofNat, ← zpow_natCast, ← zpow_add₀ two_ne_zero]
        congr 1
        omega
      · exact .inr rfl

/-- The infinity is nearest to whatever is not less than the power of two behind the greatest finite
number. -/
theorem infinity_isNearest_of_le {r : ℚ} (hr : 2 ^ 1024 ≤ r) : IsNearest r (infinity false) := by
  refine infinity_isNearest (le_trans (le_of_eq ?_) hr)
  have hmagnitude : (infinity false).magnitude = infiniteMagnitude :=
    magnitude_ofMagnitude (Nat.le_refl _)
  have hnumber : (infinity false).isNaN = false := isNaN_ofMagnitude (Nat.le_refl _)
  rw [← hmagnitude, ← size_eq hnumber]
  rfl

end Binary64

/-! ## Decimals -/

/-- A positive number has as many digits as its size says. -/
theorem decimalLength_bounds {n : Nat} (hn : 0 < n) :
    10 ^ (decimalLength n - 1) ≤ n ∧ n < 10 ^ decimalLength n := by
  have hpos : 0 < decimalLength n := Nat.length_toDigits_pos
  have hiff : ∀ {k : Nat}, 0 < k → (decimalLength n ≤ k ↔ n < 10 ^ k) := fun hk =>
    Nat.length_toDigits_le_iff (by norm_num) hk
  refine ⟨?_, (hiff hpos).1 le_rfl⟩
  rcases Nat.eq_zero_or_pos (decimalLength n - 1) with hone | hlong
  · rw [hone]
    exact hn
  · by_contra hlt
    have := (hiff hlong).2 (not_le.1 hlt)
    omega

namespace Decimal

/-- The number that a decimal stands for. -/
def value (d : Decimal) : ℚ := d.digits * 10 ^ d.exponent

theorem toFraction_eq (d : Decimal) : (d.toFraction.1 : ℚ) / d.toFraction.2 = d.value := by
  rw [toFraction, scaleDown_eq, Nat.cast_one, div_one, zpow_neg, div_inv_eq_mul, Nat.cast_ofNat,
    value]

/-- A positive decimal lies between two powers of ten. -/
theorem value_bounds {d : Decimal} (hd : 0 < d.digits) :
    (10 : ℚ) ^ (d.exponent + decimalLength d.digits - 1) ≤ d.value ∧
      d.value < 10 ^ (d.exponent + decimalLength d.digits) := by
  have hten : (10 : ℚ) ≠ 0 := by norm_num
  have hscale : (0 : ℚ) < 10 ^ d.exponent := by positivity
  have hpos : 0 < decimalLength d.digits := Nat.length_toDigits_pos
  obtain ⟨hlow, hhigh⟩ := decimalLength_bounds hd
  have hlow : ((10 ^ (decimalLength d.digits - 1) : ℕ) : ℚ) ≤ d.digits := Nat.cast_le.2 hlow
  have hhigh : (d.digits : ℚ) < (10 ^ decimalLength d.digits : ℕ) := Nat.cast_lt.2 hhigh
  rw [cast_pow, Nat.cast_ofNat] at hlow hhigh
  constructor
  · refine le_trans (le_of_eq ?_) (mul_le_mul_of_nonneg_right hlow hscale.le)
    rw [← zpow_add₀ hten]
    congr 1
    omega
  · refine lt_of_lt_of_le (mul_lt_mul_of_pos_right hhigh hscale) (le_of_eq ?_)
    rw [← zpow_add₀ hten, add_comm]

/-- Reading a decimal gives the number nearest to it, whatever its size. -/
theorem toBinary64_isNearest (d : Decimal) : (d.toBinary64 false).IsNearest d.value := by
  unfold toBinary64
  split
  · next hzero =>
    have hvalue : d.value = 0 := by rw [value, hzero, Nat.cast_zero, zero_mul]
    rw [hvalue]
    exact Binary64.zero_isNearest le_rfl (by rw [mul_zero]; exact Binary64.unit_pos)
  · next hne =>
    obtain ⟨hlow, hhigh⟩ := value_bounds (Nat.pos_of_ne_zero hne)
    dsimp only
    split
    · next hlarge =>
      have hpower : ((2 ^ 1024 : ℕ) : ℚ) ≤ (10 ^ 309 : ℕ) := Nat.cast_le.2 (by decide +kernel)
      rw [Nat.cast_pow, Nat.cast_pow, Nat.cast_ofNat, Nat.cast_ofNat, ← zpow_natCast 10] at hpower
      refine Binary64.infinity_isNearest_of_le (le_trans (le_trans hpower ?_) hlow)
      exact zpow_le_zpow_right₀ (by norm_num) (by omega)
    · split
      · next hsmall =>
        have hpower : ((2 ^ 1075 : ℕ) : ℚ) ≤ (10 ^ 324 : ℕ) := Nat.cast_le.2 (by decide +kernel)
        refine Binary64.zero_isNearest ?_ ?_
        · rw [value]
          positivity
        · rw [Nat.cast_pow, Nat.cast_pow, Nat.cast_ofNat, Nat.cast_ofNat] at hpower
          have hlt : d.value < 10 ^ (-324 : ℤ) :=
            lt_of_lt_of_le hhigh (zpow_le_zpow_right₀ (by norm_num) (by omega))
          calc
            2 * d.value < 2 * 10 ^ (-324 : ℤ) := mul_lt_mul_of_pos_left hlt two_pos
            _ = 2 * (10 ^ 324)⁻¹ := by rw [zpow_neg, ← zpow_natCast 10, Nat.cast_ofNat]
            _ ≤ 2 * (2 ^ 1075)⁻¹ :=
              mul_le_mul_of_nonneg_left (inv_anti₀ (by positivity) hpower) two_pos.le
            _ = 2 * 2 ^ (-1075 : ℤ) := by rw [zpow_neg, ← zpow_natCast 2, Nat.cast_ofNat]
            _ = Binary64.unit := (zpow_one_add₀ two_ne_zero _).symm
      · have hden : 0 < d.toFraction.2 := scaleDown_pos (by norm_num) Nat.one_pos _
        rw [← toFraction_eq]
        exact Binary64.nearest_isNearest _ hden

end Decimal

/-! ## Numerals -/

/-- Digits in front count by the power of ten of those behind them. -/
theorem naturalOfDigits_append (front back : List Char) :
    naturalOfDigits (front ++ back) =
      naturalOfDigits front * 10 ^ back.length + naturalOfDigits back := by
  induction back using List.reverseRecOn with
  | nil => simp [naturalOfDigits]
  | append_singleton back c ih =>
    have hconcat : ∀ cs : List Char,
        naturalOfDigits (cs ++ [c]) = 10 * naturalOfDigits cs + (c.toNat - 48) := by
      intro cs
      rw [naturalOfDigits, List.foldl_concat, ← naturalOfDigits]
    rw [← List.append_assoc, hconcat, hconcat, ih, List.length_append, List.length_singleton,
      Nat.pow_succ]
    ring

/-- The digits behind the point count as a fraction. -/
theorem Decimal.value_ofNumeral (whole fraction : List Char) :
    (Decimal.ofNumeral whole fraction).value =
      naturalOfDigits whole + naturalOfDigits fraction / 10 ^ fraction.length := by
  have hpower : (10 : ℚ) ^ fraction.length ≠ 0 := by positivity
  rw [Decimal.value, Decimal.ofNumeral]
  dsimp only
  rw [naturalOfDigits_append, zpow_neg, zpow_natCast, ← div_eq_mul_inv, Nat.cast_add, Nat.cast_mul,
    Nat.cast_pow, Nat.cast_ofNat, add_div, mul_div_cancel_right₀ _ hpower]

end StagedTangent
