import Mathlib.Data.Rat.Floor
import StagedTangent.Proofs.Number.Rounding

/-!
# Whole numbers

`Binary64.value?` is the number that a pattern stands for, with its sign, and says nothing of how
the pattern is taken apart. A pattern is read as a whole number exactly if its number is one
(`toInt?_eq_some_iff`), and `IsShift` states which patterns can be amounts of a shift.
-/

namespace StagedTangent.Binary64

/-- The number that a pattern stands for, if it stands for one. -/
def value? (x : Binary64) : Option ℚ :=
  match x.meaning with
  | .nan | .infinite _ => none
  | .finite negative significand exponent =>
    some (if negative then -(significand * 2 ^ exponent) else significand * 2 ^ exponent)

/-- The number has no fractional part and is smaller than `2 ^ 63` without its sign. -/
def IsShift (x : Binary64) : Prop := ∃ v, x.value? = some v ∧ Int.fract v = 0 ∧ |v| < 2 ^ 63

variable {x : Binary64}

theorem isNegative_of_meaning {negative : Bool} {significand : Nat} {exponent : Int}
    (h : x.meaning = .finite negative significand exponent) : x.isNegative = negative := by
  unfold meaning at h
  dsimp only at h
  split at h
  · split at h <;> cases h
  · split at h <;> cases h <;> rfl

/-- A fraction is a whole number exactly if nothing is left of the division. -/
theorem div_eq_intCast_iff {num den : Nat} (hden : 0 < den) {n : ℤ} :
    (num : ℚ) / den = n ↔ num % den = 0 ∧ ((num / den : ℕ) : ℤ) = n := by
  have hne : (den : ℚ) ≠ 0 := Nat.cast_ne_zero.2 hden.ne'
  constructor
  · intro h
    have hmul : (num : ℤ) = n * den := by
      rw [div_eq_iff hne] at h
      exact_mod_cast h
    have hmod : num % den = 0 :=
      Nat.mod_eq_zero_of_dvd (Int.natCast_dvd_natCast.1 ⟨n, by rw [hmul, mul_comm]⟩)
    refine ⟨hmod, ?_⟩
    rw [Int.natCast_ediv, hmul, Int.mul_ediv_cancel n (Int.natCast_ne_zero.2 hden.ne')]
  · rintro ⟨hmod, rfl⟩
    rw [div_eq_add_mod num hden, hmod, Nat.cast_zero, zero_div, add_zero, Int.cast_natCast]

/-- A pattern is read as a whole number exactly if it stands for this number. -/
theorem toInt?_eq_some_iff {n : ℤ} : x.toInt? = some n ↔ x.value? = some (n : ℚ) := by
  cases hmeaning : x.meaning with
  | nan => simp [toInt?, fraction?, value?, hmeaning]
  | infinite negative => simp [toInt?, fraction?, value?, hmeaning]
  | finite negative significand exponent =>
    have hsign := isNegative_of_meaning hmeaning
    have hfraction : x.fraction? = some (scaleDown 2 significand 1 (-exponent)) := by
      rw [fraction?, hmeaning]
    have hquotient := scaleDown_eq 2 significand 1 (-exponent)
    have hpos : 0 < (scaleDown 2 significand 1 (-exponent)).2 :=
      scaleDown_pos Nat.two_pos Nat.one_pos _
    rw [Nat.cast_one, div_one, Nat.cast_ofNat, zpow_neg, div_inv_eq_mul] at hquotient
    generalize scaleDown 2 significand 1 (-exponent) = quotient at hfraction hquotient hpos
    have hwhole : ∀ n : ℤ, (significand * 2 ^ exponent : ℚ) = n ↔
        quotient.1 % quotient.2 = 0 ∧ ((quotient.1 / quotient.2 : ℕ) : ℤ) = n := by
      intro n
      rw [← hquotient, div_eq_intCast_iff hpos]
    rw [toInt?, hfraction, hsign, value?, hmeaning]
    cases negative with
    | false => simp [hwhole]
    | true =>
      have hopposite := hwhole (-n)
      rw [Int.cast_neg] at hopposite
      simp [hopposite, neg_eq_iff_eq_neg]

theorem isShift_iff : x.IsShift ↔ ∃ n : ℤ, x.toInt? = some n ∧ n.natAbs < 2 ^ 63 := by
  have hsize : ∀ n : ℤ, |(n : ℚ)| < 2 ^ 63 ↔ n.natAbs < 2 ^ 63 := by
    intro n
    rw [← Int.cast_abs, Int.abs_eq_natAbs]
    norm_cast
  constructor
  · rintro ⟨v, hv, hfract, hlt⟩
    obtain ⟨n, rfl⟩ := Int.fract_eq_zero_iff.1 hfract
    exact ⟨n, toInt?_eq_some_iff.2 hv, (hsize n).1 hlt⟩
  · rintro ⟨n, hn, hlt⟩
    exact ⟨n, toInt?_eq_some_iff.1 hn, Int.fract_intCast n, (hsize n).2 hlt⟩

end StagedTangent.Binary64
