import StagedTangent.Number.Shortest
import StagedTangent.Proofs.Number.Rounding

/-!
# Shortest digits read back

The digits that a number is written with are chosen among those that read back as the number, and if
none of the short ones does, they are its exact value. Either way the number is the one nearest to
them (`shortest_isNearest`), so that numbers of one sign with the same digits are the same number
(`eq_of_shortest_value_eq`).
-/

namespace StagedTangent

/-! ## Signs -/

namespace Binary64

variable {x y : Binary64} {m : Nat} {negative : Bool}

/-- A number without its sign. -/
def unsigned (x : Binary64) : Binary64 := ofMagnitude false x.magnitude

/-- The sign makes no difference to the bits below it. -/
theorem magnitude_ofMagnitude_of_sign (h : m ≤ infiniteMagnitude) (negative : Bool) :
    (ofMagnitude negative m).magnitude = m := by
  cases negative with
  | false => exact magnitude_ofMagnitude h
  | true =>
    have hlt := infiniteMagnitude_lt
    rw [magnitude, ofMagnitude, if_pos rfl, Nat.pow_eq,
      UInt64.toNat_ofNat_of_lt' (by norm_num [UInt64.size]; omega)]
    omega

/-- Two numbers with the same sign and the same bits below it are the same. -/
theorem eq_of_isNegative_eq (hsign : x.isNegative = y.isNegative)
    (hmagnitude : x.magnitude = y.magnitude) : x = y := by
  cases hx : x.isNegative with
  | false => exact eq_of_magnitude hx (hsign.symm.trans hx) hmagnitude
  | true =>
    have hy := hsign.symm.trans hx
    rw [isNegative, decide_eq_true_eq, Nat.pow_eq] at hx hy
    rw [magnitude, magnitude, Nat.pow_eq] at hmagnitude
    have hbound := x.bits.toNat_lt
    have hbound' := y.bits.toNat_lt
    obtain ⟨bits⟩ := x
    obtain ⟨bits'⟩ := y
    exact congrArg mk (UInt64.toNat_inj.1 (by dsimp only at *; omega))

theorem isNaN_eq_false_iff : x.isNaN = false ↔ x.meaning ≠ .nan := by
  rw [Ne, ← isNaN_iff, Bool.not_eq_true]

/-- All infinities have the same bits below the sign. -/
theorem magnitude_of_infinite (h : x.meaning = .infinite negative) :
    x.magnitude = infiniteMagnitude := by
  have hinfinite : infiniteMagnitude = 2047 * 2 ^ 52 := rfl
  unfold meaning at h
  dsimp only [Nat.pow_eq] at h
  split at h
  · split at h
    · omega
    · cases h
  · split at h <;> cases h

section Unsigned

variable (h : x.isNaN = false)

include h

theorem isNegative_unsigned : x.unsigned.isNegative = false :=
  isNegative_ofMagnitude (magnitude_le h)

theorem isNaN_unsigned : x.unsigned.isNaN = false := isNaN_ofMagnitude (magnitude_le h)

theorem magnitude_unsigned : x.unsigned.magnitude = x.magnitude :=
  magnitude_ofMagnitude (magnitude_le h)

/-- A number is nearest to its own size. -/
theorem unsigned_isNearest_size : x.unsigned.IsNearest x.size := by
  have hpositive := isNegative_unsigned h
  have hnumber := isNaN_unsigned h
  have hsize : x.unsigned.size = x.size := by
    rw [size_eq hnumber, size_eq h, magnitude_unsigned h]
  rw [← hsize]
  generalize x.unsigned = y at hpositive hnumber
  refine ⟨hpositive, hnumber, fun z _ _ => ?_, fun z hpositive' hnumber' hne htie => ?_⟩
  · rw [sub_self, abs_zero]
    exact abs_nonneg _
  · rw [sub_self, abs_zero, abs_eq_zero, sub_eq_zero] at htie
    have hle := (size_le_iff hnumber' hnumber).1 htie.le
    have hge := (size_le_iff hnumber hnumber').1 htie.ge
    exact absurd (eq_of_magnitude hpositive' hpositive (Nat.le_antisymm hle hge)) hne

end Unsigned

end Binary64

/-! ## Decimals -/

namespace Decimal

variable {d : Decimal} {x : Binary64} {negative : Bool}

/-- The sign that a decimal is read with only sets the sign. -/
theorem exists_toBinary64_eq (d : Decimal) : ∃ m ≤ Binary64.infiniteMagnitude,
    ∀ negative, d.toBinary64 negative = .ofMagnitude negative m := by
  unfold toBinary64
  split
  · exact ⟨0, Nat.zero_le _, fun _ => rfl⟩
  · dsimp only
    split
    · exact ⟨_, Nat.le_refl _, fun _ => rfl⟩
    · split
      · exact ⟨0, Nat.zero_le _, fun _ => rfl⟩
      · unfold Binary64.nearest
        split
        · exact ⟨0, Nat.zero_le _, fun _ => rfl⟩
        · exact ⟨_, Nat.min_le_right _ _, fun _ => rfl⟩

/-- What a decimal reads back as is nearest to it, apart from the sign. -/
theorem unsigned_isNearest (h : d.toBinary64 negative = x) : x.unsigned.IsNearest d.value := by
  obtain ⟨m, hm, hread⟩ := d.exists_toBinary64_eq
  obtain rfl := (hread negative).symm.trans h
  rw [Binary64.unsigned, Binary64.magnitude_ofMagnitude_of_sign hm, ← hread]
  exact d.toBinary64_isNearest

/-- Zeros at the end of the digits go into the exponent. -/
theorem value_dropZeros (fuel : Nat) (d : Decimal) : (d.dropZeros fuel).value = d.value := by
  induction fuel generalizing d with
  | zero => rfl
  | succ fuel ih =>
    rw [dropZeros]
    split
    · next h =>
      have hdigits : d.digits = d.digits / 10 * 10 := by omega
      have hten : (10 : ℚ) ≠ 0 := by norm_num
      rw [ih, value, value, zpow_add_one₀ hten]
      conv_rhs => rw [hdigits]
      dsimp only
      push_cast
      ring
    · rfl

theorem value_ofPowerOfTwo (significand : Nat) (exponent : Int) :
    (ofPowerOfTwo significand exponent).value = significand * 2 ^ exponent := by
  cases exponent with
  | ofNat n => simp [ofPowerOfTwo, value]
  | negSucc n =>
    have hfive : ((5 : ℚ) ^ (n + 1)) ≠ 0 := by positivity
    have hexponent : -((n : ℤ) + 1) = Int.negSucc n := rfl
    rw [ofPowerOfTwo, value]
    dsimp only
    rw [hexponent, zpow_negSucc, zpow_negSucc, Nat.cast_mul, Nat.pow_eq, Nat.cast_pow,
      Nat.cast_ofNat, show (10 : ℚ) = 5 * 2 by norm_num, mul_pow, mul_inv, mul_assoc,
      mul_inv_cancel_left₀ hfive]

end Decimal

namespace Binary64

variable {x y : Binary64} {negative negative' : Bool} {significand significand' : Nat}
  {exponent exponent' : Int}

/-- A finite number is the one nearest to its shortest digits. -/
theorem shortest_isNearest (h : x.meaning = .finite negative significand exponent) (tie : Tie) :
    x.unsigned.IsNearest (x.shortest tie).value := by
  have hnumber : x.isNaN = false := isNaN_eq_false_iff.2 (by rw [h]; exact nofun)
  have hexact : x.unsigned.IsNearest (significand * 2 ^ exponent) := by
    have hsize := unsigned_isNearest_size hnumber
    rwa [size, h] at hsize
  rw [shortest, h]
  dsimp only
  split
  · next hzero =>
    rw [hzero, Nat.cast_zero, zero_mul] at hexact
    rwa [Decimal.value, Nat.cast_zero, zero_mul]
  · rw [Decimal.value_dropZeros]
    generalize hfound : List.findSome? _ _ = found
    cases found with
    | none =>
      rw [Option.getD_none, Decimal.value_ofPowerOfTwo]
      exact hexact
    | some d =>
      -- Whatever grid the digits are on, they have been read back.
      obtain ⟨power, -, hgrid⟩ := List.exists_of_findSome?_eq_some hfound
      have hread := List.find?_some hgrid
      rw [decide_eq_true_eq] at hread
      exact Decimal.unsigned_isNearest hread

/-- Finite numbers of one sign whose shortest digits have the same value are the same. -/
theorem eq_of_shortest_value_eq (hx : x.meaning = .finite negative significand exponent)
    (hy : y.meaning = .finite negative' significand' exponent')
    (hsign : x.isNegative = y.isNegative) {tie : Tie}
    (h : (x.shortest tie).value = (y.shortest tie).value) : x = y := by
  have hnearest := shortest_isNearest hx tie
  rw [h] at hnearest
  have hunsigned := hnearest.unique (shortest_isNearest hy tie)
  refine eq_of_isNegative_eq hsign ?_
  have hx : x.isNaN = false := isNaN_eq_false_iff.2 (by rw [hx]; exact nofun)
  have hy : y.isNaN = false := isNaN_eq_false_iff.2 (by rw [hy]; exact nofun)
  rw [← magnitude_unsigned hx, hunsigned, magnitude_unsigned hy]

end Binary64

end StagedTangent
