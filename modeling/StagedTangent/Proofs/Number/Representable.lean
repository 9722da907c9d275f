import StagedTangent.Proofs.Number.Whole

/-!
# Which whole numbers are binary numbers

A whole number is a binary number if it is written with at most 53 binary digits and zeros behind
them (`Fits`). The number nearest to a whole number is a whole number again, and it is the same one
exactly if that one fits (`IsNearest.size_eq_iff`). From `2 ^ 63 - 512` on the nearest number is
`2 ^ 63` at least (`IsNearest.size_lt_iff`).
-/

namespace StagedTangent.Binary64

/-- A significand of at most 53 bits with zeros behind it. -/
def Fits (n : ℕ) : Prop := ∃ significand exponent, significand < 2 ^ 53 ∧ n = significand * 2 ^ exponent

variable {x : Binary64} {n : ℕ}

/-! ## Significands and exponents -/

/-- A number as a significand with an exponent, and where it stands among the numbers. -/
structure Form (x : Binary64) (exponent significand : ℕ) : Prop where
  magnitude : x.magnitude = exponent * 2 ^ 52 + significand
  max : significand < 2 ^ 53
  min : 2 ^ 52 ≤ significand ∨ exponent = 0
  size : x.size = significand * 2 ^ ((exponent : ℤ) - 1074)

/-- A significand with an exponent, as a number of steps. -/
theorem steps_mul_unit {exponent significand : ℕ} (hmax : significand ≤ 2 ^ 53)
    (hmin : 2 ^ 52 ≤ significand ∨ exponent = 0) :
    (steps (exponent * 2 ^ 52 + significand) : ℚ) * unit =
      significand * 2 ^ ((exponent : ℤ) - 1074) := by
  rw [steps_add hmax hmin, Nat.cast_mul, Nat.cast_pow, Nat.cast_ofNat, mul_assoc, unit,
    ← zpow_natCast, ← zpow_add₀ two_ne_zero, ← sub_eq_add_neg]

theorem exists_form (h : x.isNaN = false) : ∃ exponent significand, x.Form exponent significand := by
  obtain ⟨exponent, significand, hmagnitude, hmax, hmin⟩ := exists_significand x.magnitude
  refine ⟨exponent, significand, hmagnitude, hmax, hmin, ?_⟩
  rw [size_eq h, hmagnitude, steps_mul_unit hmax.le hmin]

/-- Every significand with an exponent is the form of a number below the infinity. -/
theorem exists_of_form {exponent significand : ℕ} (hmax : significand < 2 ^ 53)
    (hmin : 2 ^ 52 ≤ significand ∨ exponent = 0) (hfinite : exponent ≤ 2045) :
    ∃ y : Binary64, y.isNegative = false ∧ y.isNaN = false ∧ y.Form exponent significand := by
  have hle : exponent * 2 ^ 52 + significand ≤ infiniteMagnitude := by
    have hinfinite : infiniteMagnitude = 2047 * 2 ^ 52 := rfl
    omega
  have hnumber := isNaN_ofMagnitude hle
  have hmagnitude := magnitude_ofMagnitude hle
  refine ⟨_, isNegative_ofMagnitude hle, hnumber, hmagnitude, hmax, hmin, ?_⟩
  rw [size_eq hnumber, hmagnitude, steps_mul_unit hmax.le hmin]

/-- A power of two with a natural exponent, as a shift of the exponents. -/
theorem zpow_add_sub (k : ℕ) : (2 : ℚ) ^ (((k + 1074 : ℕ) : ℤ) - 1074) = (2 ^ k : ℕ) := by
  rw [Nat.cast_add, Nat.cast_ofNat, add_sub_cancel_right, zpow_natCast, Nat.cast_pow, Nat.cast_ofNat]

/-! ## Whole numbers that fit -/

/-- A whole number that fits is the size of a number. -/
theorem exists_size_eq (h : Fits n) (hn : n < 2 ^ 64) :
    ∃ y : Binary64, y.isNegative = false ∧ y.isNaN = false ∧ y.size = n := by
  obtain ⟨significand, exponent, hmax, rfl⟩ := h
  rcases Nat.eq_zero_or_pos significand with rfl | hpos
  · obtain ⟨y, hpositive, hnumber, hform⟩ := exists_of_form hmax (.inr rfl) (Nat.zero_le _)
    exact ⟨y, hpositive, hnumber, by rw [hform.size, Nat.zero_mul, Nat.cast_zero, zero_mul]⟩
  · -- The significand is moved up until its leading bit is the fifty-third.
    have hlog : significand.log2 ≤ 52 :=
      Nat.le_of_lt_succ ((Nat.log2_lt hpos.ne').2 hmax)
    have hpower : 2 ^ significand.log2 * 2 ^ exponent < 2 ^ 64 :=
      lt_of_le_of_lt (Nat.mul_le_mul_right _ (Nat.log2_self_le hpos.ne')) hn
    rw [← Nat.pow_add, Nat.pow_lt_pow_iff_right (by norm_num)] at hpower
    have hlow : 2 ^ 52 ≤ significand * 2 ^ (52 - significand.log2) := by
      calc
        2 ^ 52 = 2 ^ significand.log2 * 2 ^ (52 - significand.log2) := by
          rw [← Nat.pow_add, Nat.add_sub_cancel' hlog]
        _ ≤ _ := Nat.mul_le_mul_right _ (Nat.log2_self_le hpos.ne')
    have hhigh : significand * 2 ^ (52 - significand.log2) < 2 ^ 53 := by
      calc
        _ < 2 ^ (significand.log2 + 1) * 2 ^ (52 - significand.log2) :=
          Nat.mul_lt_mul_of_pos_right Nat.lt_log2_self (Nat.two_pow_pos _)
        _ = 2 ^ 53 := by
          rw [← Nat.pow_add]
          congr 1
          omega
    have hexponent : exponent + 1022 + significand.log2 ≤ 2045 := by omega
    obtain ⟨y, hpositive, hnumber, hform⟩ := exists_of_form hhigh (.inl hlow) hexponent
    refine ⟨y, hpositive, hnumber, ?_⟩
    rw [hform.size, Nat.cast_mul, Nat.cast_mul, mul_assoc, Nat.cast_pow, Nat.cast_pow, Nat.cast_ofNat,
      ← zpow_natCast, ← zpow_natCast, ← zpow_add₀ two_ne_zero]
    congr 2
    omega

/-- A whole number that is the size of a number fits. -/
theorem fits_of_size_eq (hnumber : x.isNaN = false) (h : x.size = n) : Fits n := by
  obtain ⟨exponent, significand, hform⟩ := exists_form hnumber
  have hsize := hform.size
  rw [h] at hsize
  rcases Nat.le_total 1074 exponent with hle | hle
  · obtain ⟨k, rfl⟩ := Nat.exists_eq_add_of_le' hle
    rw [zpow_add_sub, ← Nat.cast_mul, Nat.cast_inj] at hsize
    exact ⟨significand, k, hform.max, hsize⟩
  · refine ⟨n, 0, Nat.lt_of_le_of_lt ?_ hform.max, (Nat.mul_one n).symm⟩
    rw [← Nat.cast_le (α := ℚ), hsize]
    refine mul_le_of_le_one_right (Nat.cast_nonneg _) (zpow_le_one_of_nonpos₀ one_le_two ?_)
    exact sub_nonpos.2 (by exact_mod_cast hle)

/-! ## The number nearest to a whole number -/

/-- A number that fits is nearest to itself. -/
theorem IsNearest.size_eq_of_fits (h : x.IsNearest n) (hfits : Fits n) (hn : n < 2 ^ 64) :
    x.size = n := by
  obtain ⟨y, hpositive, hnumber, hsize⟩ := exists_size_eq hfits hn
  have hclosest := h.closest y hpositive hnumber
  rw [hsize, sub_self, abs_zero] at hclosest
  exact sub_eq_zero.1 (abs_nonpos_iff.1 hclosest)

/-- A whole number is its own nearest number exactly if it fits. -/
theorem IsNearest.size_eq_iff (h : x.IsNearest n) (hn : n < 2 ^ 64) : x.size = n ↔ Fits n :=
  ⟨fits_of_size_eq h.number, fun hfits => h.size_eq_of_fits hfits hn⟩

/-- The nearest number is on the same side of a number as the whole number. -/
theorem IsNearest.le_size {m : ℕ} (h : x.IsNearest n) (hfits : Fits m) (hm : m < 2 ^ 64)
    (hle : m ≤ n) : (m : ℚ) ≤ x.size := by
  obtain ⟨y, hpositive, hnumber, hsize⟩ := exists_size_eq hfits hm
  have hclosest := h.closest y hpositive hnumber
  have hle : (m : ℚ) ≤ n := Nat.cast_le.2 hle
  by_contra hlt
  rw [hsize, abs_of_nonpos (by linarith), abs_of_nonpos (by linarith)] at hclosest
  linarith

/-- From `2 ^ 53` on every number is whole. -/
theorem exists_nat_size (hnumber : x.isNaN = false) (h : 2 ^ 53 ≤ x.size) : ∃ m : ℕ, x.size = m := by
  obtain ⟨exponent, significand, hform⟩ := exists_form hnumber
  rcases Nat.le_total 1074 exponent with hle | hle
  · obtain ⟨k, rfl⟩ := Nat.exists_eq_add_of_le' hle
    exact ⟨significand * 2 ^ k, by rw [hform.size, zpow_add_sub, ← Nat.cast_mul]⟩
  · have hmax : (significand : ℚ) < (2 ^ 53 : ℕ) := Nat.cast_lt.2 hform.max
    have hone : (2 : ℚ) ^ ((exponent : ℤ) - 1074) ≤ 1 :=
      zpow_le_one_of_nonpos₀ one_le_two (sub_nonpos.2 (by exact_mod_cast hle))
    have hsize := mul_le_of_le_one_right (Nat.cast_nonneg (α := ℚ) significand) hone
    rw [← hform.size] at hsize
    rw [Nat.cast_pow, Nat.cast_ofNat] at hmax
    linarith

/-- The number nearest to a whole number is whole. -/
theorem IsNearest.exists_nat (h : x.IsNearest n) : ∃ m : ℕ, x.size = m := by
  rcases Nat.lt_or_ge n (2 ^ 53) with hlt | hge
  · exact ⟨n, h.size_eq_of_fits ⟨n, 0, hlt, (Nat.mul_one n).symm⟩ (hlt.trans (by norm_num))⟩
  · refine exists_nat_size h.number ?_
    have hle := h.le_size ⟨1, 53, by norm_num, by norm_num⟩ (by norm_num) hge
    norm_num at hle
    exact hle

/-- A form with a bounded exponent has a bounded size. -/
theorem Form.size_le {exponent significand : ℕ} (h : x.Form exponent significand) {k : ℕ}
    (hk : exponent ≤ k + 1074) : x.size ≤ (2 ^ 53 - 1) * 2 ^ k := by
  have hmax : (significand : ℚ) ≤ (2 ^ 53 - 1 : ℕ) := Nat.cast_le.2 (Nat.le_sub_one_of_lt h.max)
  have hpower : (2 : ℚ) ^ ((exponent : ℤ) - 1074) ≤ 2 ^ k := by
    rw [← zpow_natCast]
    exact zpow_le_zpow_right₀ one_le_two (by omega)
  rw [h.size]
  refine mul_le_mul (hmax.trans (le_of_eq ?_)) hpower (by positivity) (by norm_num)
  norm_num

/-- Below `2 ^ 63` the greatest number is `2 ^ 63 - 1024`, and it is odd. -/
theorem size_le_of_lt (hnumber : x.isNaN = false) (h : x.size < 2 ^ 63) :
    x.size ≤ 2 ^ 63 - 1024 ∧ (x.size = 2 ^ 63 - 1024 → x.magnitude % 2 = 1) := by
  obtain ⟨exponent, significand, hform⟩ := exists_form hnumber
  have hexponent : exponent ≤ 10 + 1074 := by
    by_contra hgt
    obtain ⟨k, rfl⟩ := Nat.exists_eq_add_of_le' (show 11 + 1074 ≤ exponent by omega)
    have hlow : (2 ^ 52 * 2 ^ (k + 11) : ℕ) ≤ significand * 2 ^ (k + 11) :=
      Nat.mul_le_mul_right _ (hform.min.resolve_right (by omega))
    have hpower : 2 ^ 63 ≤ 2 ^ 52 * 2 ^ (k + 11) := by
      rw [← Nat.pow_add]
      exact Nat.pow_le_pow_right two_pos (by omega)
    have hsize := hform.size
    rw [← Nat.add_assoc, zpow_add_sub, ← Nat.cast_mul] at hsize
    rw [hsize] at h
    exact absurd (hpower.trans hlow) (not_le.2 (by exact_mod_cast h))
  have hle := hform.size_le hexponent
  refine ⟨by norm_num at hle ⊢; exact hle, fun heq => ?_⟩
  -- A smaller exponent or a smaller significand gives a smaller number.
  have hlast : exponent = 1084 := by
    by_contra hne
    have hlt := hform.size_le (k := 9) (by omega)
    rw [heq] at hlt
    norm_num at hlt
  subst hlast
  have hsize := hform.size
  have hpower : (2 : ℚ) ^ (((1084 : ℕ) : ℤ) - 1074) = 2 ^ 10 := zpow_add_sub 10 |>.trans (by norm_num)
  rw [heq, hpower] at hsize
  have hsignificand : (significand : ℚ) = (2 ^ 53 - 1 : ℕ) := by
    norm_num at hsize ⊢
    linarith
  rw [Nat.cast_inj] at hsignificand
  have hmagnitude := hform.magnitude
  omega

/-- The nearest number is below `2 ^ 63` up to the middle of `2 ^ 63` and the number before it. -/
theorem IsNearest.size_lt_iff (h : x.IsNearest n) : x.size < 2 ^ 63 ↔ n < 2 ^ 63 - 512 := by
  have hmiddle : (n : ℚ) < 2 ^ 63 - 512 ↔ n < 2 ^ 63 - 512 := by
    rw [← Nat.cast_lt (α := ℚ), Nat.cast_sub (by norm_num), Nat.cast_pow, Nat.cast_ofNat,
      Nat.cast_ofNat]
  rw [← hmiddle]
  constructor
  · intro hlt
    obtain ⟨hle, hodd⟩ := size_le_of_lt h.number hlt
    obtain ⟨y, hpositive, hnumber, hsize⟩ :=
      exists_size_eq (n := 2 ^ 63) ⟨1, 63, by norm_num, by norm_num⟩ (by norm_num)
    rw [Nat.cast_pow, Nat.cast_ofNat] at hsize
    have hclosest := h.closest y hpositive hnumber
    generalize (2 : ℚ) ^ 63 = bound at *
    by_contra hge
    rw [hsize, abs_of_nonpos (by linarith : x.size - n ≤ 0)] at hclosest
    rcases le_total (n : ℚ) bound with hn | hn
    · rw [abs_of_nonneg (by linarith)] at hclosest
      -- In the middle both are equally close, but the one below is odd.
      have hx : x.size = bound - 1024 := by linarith
      have htie : |y.size - n| = |x.size - n| := by
        rw [hsize, abs_of_nonneg (by linarith), abs_of_nonpos (by linarith)]
        linarith
      have hne : y ≠ x := by
        rintro rfl
        linarith
      have heven := h.even y hpositive hnumber hne htie
      rw [toNat_bits h.positive, hodd hx] at heven
      cases heven
    · rw [abs_of_nonpos (by linarith)] at hclosest
      linarith
  · intro hlt
    obtain ⟨y, hpositive, hnumber, hsize⟩ :=
      exists_size_eq (n := 2 ^ 63 - 1024) ⟨2 ^ 53 - 1, 10, by norm_num, by norm_num⟩ (by norm_num)
    rw [Nat.cast_sub (by norm_num), Nat.cast_pow, Nat.cast_ofNat, Nat.cast_ofNat] at hsize
    have hclosest := h.closest y hpositive hnumber
    generalize (2 : ℚ) ^ 63 = bound at *
    by_contra hge
    have hdistance : |y.size - n| < bound - n := abs_lt.2 ⟨by linarith, by linarith⟩
    rw [abs_of_nonneg (by linarith)] at hclosest
    linarith

/-! ## Numbers as shifts -/

/-- The number that a pattern stands for is its size with a sign. -/
theorem abs_of_value? {v : ℚ} (h : x.value? = some v) : |v| = x.size := by
  unfold value? at h
  rw [size]
  cases hmeaning : x.meaning with
  | nan => simp [hmeaning] at h
  | infinite negative => simp [hmeaning] at h
  | finite negative significand exponent =>
    rw [hmeaning] at h
    obtain rfl := Option.some.inj h
    have hpos : (0 : ℚ) ≤ significand * 2 ^ exponent := by positivity
    cases negative with
    | false => exact abs_of_nonneg hpos
    | true => exact (abs_neg _).trans (abs_of_nonneg hpos)

/-- A number without a sign that is smaller than `2 ^ 63` is its size. -/
theorem value?_eq_size (hpositive : x.isNegative = false) (hnumber : x.isNaN = false)
    (hlt : x.size < 2 ^ 63) : x.value? = some x.size := by
  rw [value?]
  cases hmeaning : x.meaning with
  | nan => cases hnumber.symm.trans (isNaN_iff.2 hmeaning)
  | infinite negative =>
    rw [size, hmeaning] at hlt
    exact absurd hlt (not_lt.2 (pow_le_pow_right₀ one_le_two (by norm_num)))
  | finite negative significand exponent =>
    obtain rfl := (isNegative_of_meaning hmeaning).symm.trans hpositive
    rw [size, hmeaning]
    rfl

/-- The number nearest to a whole number is read as a whole number. -/
theorem IsNearest.exists_toInt? (h : x.IsNearest n) (hn : n < 2 ^ 63 - 512) :
    ∃ m : ℕ, x.size = m ∧ m < 2 ^ 63 ∧ x.toInt? = some (m : ℤ) := by
  have hlt := h.size_lt_iff.2 hn
  obtain ⟨m, hm⟩ := h.exists_nat
  have hvalue := value?_eq_size h.positive h.number hlt
  rw [hm] at hlt hvalue
  exact ⟨m, hm, by exact_mod_cast hlt, toInt?_eq_some_iff.2 (by rw [hvalue, Int.cast_natCast])⟩

/-- From the middle of `2 ^ 63` and the number before it on, a whole number is too large for a shift. -/
theorem IsNearest.le_natAbs_of_toInt? (h : x.IsNearest n) (hn : 2 ^ 63 - 512 ≤ n) {k : ℤ}
    (hk : x.toInt? = some k) : 2 ^ 63 ≤ k.natAbs := by
  have hsize := abs_of_value? (toInt?_eq_some_iff.1 hk)
  have hle : 2 ^ 63 ≤ x.size := not_lt.1 fun hlt => absurd (h.size_lt_iff.1 hlt) (not_lt.2 hn)
  rw [← hsize, ← Int.cast_abs, Int.abs_eq_natAbs, Int.cast_natCast] at hle
  exact_mod_cast hle

end StagedTangent.Binary64
