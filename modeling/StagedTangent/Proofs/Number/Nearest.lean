import Mathlib.Algebra.Order.Field.Power
import Mathlib.Algebra.Order.Ring.Abs
import Mathlib.Data.Rat.Cast.Order
import Mathlib.Order.Monotone.Basic
import Mathlib.Tactic.Linarith
import Mathlib.Tactic.Positivity
import Mathlib.Tactic.Ring
import StagedTangent.Number.Binary64

/-!
# The nearest binary number

`Binary64.IsNearest` says which binary number a positive number is rounded to, without a word about
how it is found: no other is closer, and of two that are equally close it is the even one. Every
finite number is a whole number of steps of `2 ^ (-1074)`, and the steps grow with the bits that
stand for them, so that there is only one nearest number (`IsNearest.unique`) and it is one of the
two between which the number lies (`isNearest_of_rounds`).
-/

namespace StagedTangent.Binary64

/-- The number that the bits below the sign stand for. The infinity counts as the power of two
behind the greatest finite number. -/
def size (x : Binary64) : ℚ :=
  match x.meaning with
  | .nan => 0
  | .infinite _ => 2 ^ 1024
  | .finite _ significand exponent => significand * 2 ^ exponent

/-- Rounding to nearest: a number without a sign to which no other such number is closer than it, and
of two that are equally close the one whose last bit is zero. -/
structure IsNearest (r : ℚ) (x : Binary64) : Prop where
  positive : x.isNegative = false
  number : x.isNaN = false
  closest : ∀ y : Binary64, y.isNegative = false → y.isNaN = false → |x.size - r| ≤ |y.size - r|
  even : ∀ y : Binary64, y.isNegative = false → y.isNaN = false → y ≠ x →
    |y.size - r| = |x.size - r| → x.bits.toNat % 2 = 0

/-! ## Bits -/

/-- Without a sign the bits are those below the sign. -/
theorem toNat_bits {x : Binary64} (h : x.isNegative = false) : x.bits.toNat = x.magnitude := by
  rw [isNegative, decide_eq_false_iff_not, Nat.not_le] at h
  exact (Nat.mod_eq_of_lt h).symm

theorem eq_of_magnitude {x y : Binary64} (hx : x.isNegative = false) (hy : y.isNegative = false)
    (h : x.magnitude = y.magnitude) : x = y := by
  obtain ⟨bits⟩ := x
  obtain ⟨bits'⟩ := y
  rw [← toNat_bits hx, ← toNat_bits hy] at h
  exact congrArg mk (UInt64.toNat_inj.1 h)

theorem magnitude_le {x : Binary64} (h : x.isNaN = false) : x.magnitude ≤ infiniteMagnitude := by
  rw [isNaN, decide_eq_false_iff_not, Nat.not_lt] at h
  exact h

theorem infiniteMagnitude_lt : infiniteMagnitude < 2 ^ 63 := by decide

theorem isNaN_iff {x : Binary64} : x.isNaN = true ↔ x.meaning = .nan := by
  have hinfinite : infiniteMagnitude = 2047 * 2 ^ 52 := rfl
  have hbound : x.magnitude < 2 ^ 63 := Nat.mod_lt _ (Nat.two_pow_pos 63)
  rw [isNaN, decide_eq_true_eq, meaning]
  dsimp only [Nat.pow_eq]
  split
  · split
    · exact iff_of_false (by omega) nofun
    · exact iff_of_true (by omega) rfl
  · split <;> exact iff_of_false (by omega) nofun

section OfMagnitude

variable {m : Nat} (h : m ≤ infiniteMagnitude)

include h

theorem toNat_ofMagnitude : (ofMagnitude false m).bits.toNat = m := by
  have := infiniteMagnitude_lt
  exact UInt64.toNat_ofNat_of_lt' (by norm_num [UInt64.size]; omega)

theorem isNegative_ofMagnitude : (ofMagnitude false m).isNegative = false := by
  have := infiniteMagnitude_lt
  rw [isNegative, toNat_ofMagnitude h, decide_eq_false_iff_not, Nat.not_le]
  exact Nat.lt_of_le_of_lt h this

theorem magnitude_ofMagnitude : (ofMagnitude false m).magnitude = m := by
  rw [← toNat_bits (isNegative_ofMagnitude h), toNat_ofMagnitude h]

theorem isNaN_ofMagnitude : (ofMagnitude false m).isNaN = false := by
  rw [isNaN, magnitude_ofMagnitude h, decide_eq_false_iff_not, Nat.not_lt]
  exact h

end OfMagnitude

/-! ## Steps -/

/-- The least positive number. -/
def unit : ℚ := 2 ^ (-1074 : ℤ)

theorem unit_pos : 0 < unit := by
  rw [unit]
  positivity

/-- How many of the least positive number the bits below the sign stand for. -/
def steps (magnitude : Nat) : Nat :=
  if magnitude / 2 ^ 52 = 0 then magnitude
  else (2 ^ 52 + magnitude % 2 ^ 52) * 2 ^ (magnitude / 2 ^ 52 - 1)

/-- A significand of at most 53 bits with an exponent stands for what it says, the carry into the
next exponent included. -/
theorem steps_add {exponent significand : Nat} (hmax : significand ≤ 2 ^ 53)
    (hmin : 2 ^ 52 ≤ significand ∨ exponent = 0) :
    steps (exponent * 2 ^ 52 + significand) = significand * 2 ^ exponent := by
  rcases Nat.lt_or_ge significand (2 ^ 52) with hlt | hge
  · obtain rfl : exponent = 0 := by omega
    rw [steps, if_pos (by omega)]
    omega
  · rcases Nat.lt_or_eq_of_le hmax with hlt | rfl
    · have hfield : (exponent * 2 ^ 52 + significand) / 2 ^ 52 = exponent + 1 := by omega
      have hfraction : 2 ^ 52 + (exponent * 2 ^ 52 + significand) % 2 ^ 52 = significand := by omega
      rw [steps, hfield, hfraction, if_neg (by omega), Nat.add_sub_cancel]
    · have hfield : (exponent * 2 ^ 52 + 2 ^ 53) / 2 ^ 52 = exponent + 2 := by omega
      have hfraction : (exponent * 2 ^ 52 + 2 ^ 53) % 2 ^ 52 = 0 := by omega
      rw [steps, hfield, hfraction, if_neg (by omega)]
      have hexponent : exponent + 2 - 1 = exponent + 1 := rfl
      rw [hexponent, Nat.pow_succ 2 exponent]
      ring

/-- Every magnitude is a significand with an exponent. -/
theorem exists_significand (n : Nat) : ∃ exponent significand, n = exponent * 2 ^ 52 + significand ∧
    significand < 2 ^ 53 ∧ (2 ^ 52 ≤ significand ∨ exponent = 0) := by
  rcases Nat.eq_zero_or_pos (n / 2 ^ 52) with hzero | hpos
  · exact ⟨0, n, by omega, by omega, .inr rfl⟩
  · exact ⟨n / 2 ^ 52 - 1, 2 ^ 52 + n % 2 ^ 52, by omega, by omega, .inl (by omega)⟩

theorem strictMono_steps : StrictMono steps := by
  refine strictMono_nat_of_lt_succ fun n => ?_
  obtain ⟨exponent, significand, rfl, hmax, hmin⟩ := exists_significand n
  rw [Nat.add_assoc, steps_add (by omega) hmin, steps_add (by omega) (hmin.imp_left (by omega))]
  exact Nat.mul_lt_mul_of_pos_right (Nat.lt_succ_self _) (Nat.two_pow_pos _)

/-- The size of a number in steps. -/
theorem size_eq {x : Binary64} (h : x.isNaN = false) : x.size = steps x.magnitude * unit := by
  have hle := magnitude_le h
  have hinfinite : infiniteMagnitude = 2047 * 2 ^ 52 := rfl
  have hscale : ∀ k n : ℕ, ((k * 2 ^ n : ℕ) : ℚ) * unit = k * 2 ^ ((n : ℤ) - 1074) := by
    intro k n
    rw [Nat.cast_mul, mul_assoc, Nat.cast_pow, Nat.cast_ofNat, unit, ← zpow_natCast,
      ← zpow_add₀ (by norm_num), sub_eq_add_neg]
  rw [size, meaning]
  dsimp only [Nat.pow_eq]
  by_cases hinf : x.magnitude / 2 ^ 52 = 2047
  · have hmagnitude : x.magnitude = 2046 * 2 ^ 52 + 2 ^ 52 := by omega
    have hfraction : x.magnitude % 2 ^ 52 = 0 := by omega
    rw [if_pos hinf, if_pos hfraction, hmagnitude, steps_add (by norm_num) (.inl le_rfl)]
    have hexponent : ((2046 : ℕ) : ℤ) - 1074 = (972 : ℕ) := rfl
    dsimp only
    rw [hscale, Nat.cast_pow, Nat.cast_ofNat, hexponent, zpow_natCast, ← pow_add]
  · rw [if_neg hinf]
    by_cases hzero : x.magnitude / 2 ^ 52 = 0
    · have hfraction : x.magnitude % 2 ^ 52 = x.magnitude := by omega
      rw [if_pos hzero, hfraction, steps, if_pos hzero]
      rfl
    · rw [if_neg hzero, steps, if_neg hzero]
      dsimp only
      rw [hscale]
      congr 2
      omega

theorem size_le_iff {x y : Binary64} (hx : x.isNaN = false) (hy : y.isNaN = false) :
    x.size ≤ y.size ↔ x.magnitude ≤ y.magnitude := by
  rw [size_eq hx, size_eq hy, mul_le_mul_iff_left₀ unit_pos, Nat.cast_le, strictMono_steps.le_iff_le]

/-! ## The nearest of two neighbours -/

/-- Of two neighbours with a number between them, `m` is the one that it is rounded to: the closer
one, or the even one if it is in the middle. -/
structure Rounds (r : ℚ) (n m : Nat) : Prop where
  below : steps n * unit ≤ r
  above : r < steps (n + 1) * unit
  down : 2 * r < steps n * unit + steps (n + 1) * unit → m = n
  up : steps n * unit + steps (n + 1) * unit < 2 * r → m = n + 1
  middle : 2 * r = steps n * unit + steps (n + 1) * unit → m % 2 = 0
  neighbour : m = n ∨ m = n + 1

section Rounds

variable {r : ℚ} {n m : Nat}

theorem mul_unit_lt {i j : Nat} (h : i < j) : (steps i : ℚ) * unit < steps j * unit :=
  mul_lt_mul_of_pos_right (Nat.cast_lt.2 (strictMono_steps h)) unit_pos

theorem mul_unit_le {i j : Nat} (h : i ≤ j) : (steps i : ℚ) * unit ≤ steps j * unit :=
  mul_le_mul_of_nonneg_right (Nat.cast_le.2 (strictMono_steps.monotone h)) unit_pos.le

/-- How far it is to the numbers up to the lower neighbour. -/
theorem Rounds.distance_below (h : Rounds r n m) {i : Nat} (hi : i ≤ n) :
    |steps i * unit - r| = r - steps i * unit := by
  have hle := mul_unit_le hi
  rw [abs_of_nonpos (by linarith [h.below]), neg_sub]

/-- How far it is to the numbers from the upper neighbour on. -/
theorem Rounds.distance_above (h : Rounds r n m) {i : Nat} (hi : n + 1 ≤ i) :
    |steps i * unit - r| = steps i * unit - r := by
  have hle := mul_unit_le hi
  rw [abs_of_nonneg (by linarith [h.above])]

/-- The neighbour that a number is rounded to is closer than any other number, or just as close and
even. -/
theorem Rounds.closer (h : Rounds r n m) {i : Nat} (hi : i ≠ m) :
    |steps m * unit - r| < |steps i * unit - r| ∨
      |steps m * unit - r| = |steps i * unit - r| ∧ m % 2 = 0 := by
  rcases h.neighbour with rfl | rfl
  · have hdown : 2 * r ≤ steps m * unit + steps (m + 1) * unit := by
      by_contra hnot
      have := h.up (not_le.1 hnot)
      omega
    rw [h.distance_below le_rfl]
    rcases Nat.lt_or_gt_of_ne hi with hlt | hgt
    · rw [h.distance_below hlt.le]
      exact .inl (by linarith [mul_unit_lt hlt])
    · have hle := mul_unit_le (Nat.succ_le_of_lt hgt)
      rw [h.distance_above hgt]
      rcases lt_or_eq_of_le hdown with hlt | heq
      · exact .inl (by linarith)
      · rcases lt_or_eq_of_le hle with hlt | heq'
        · exact .inl (by linarith)
        · exact .inr ⟨by linarith, h.middle heq⟩
  · have hup : steps n * unit + steps (n + 1) * unit ≤ 2 * r := by
      by_contra hnot
      have := h.down (not_le.1 hnot)
      omega
    rw [h.distance_above le_rfl]
    rcases Nat.lt_or_gt_of_ne hi with hlt | hgt
    · have hle := mul_unit_le (Nat.le_of_lt_succ hlt)
      rw [h.distance_below (Nat.le_of_lt_succ hlt)]
      rcases lt_or_eq_of_le hup with hlt | heq
      · exact .inl (by linarith)
      · rcases lt_or_eq_of_le hle with hlt | heq'
        · exact .inl (by linarith)
        · exact .inr ⟨by linarith, h.middle heq.symm⟩
    · rw [h.distance_above hgt.le]
      exact .inl (by linarith [mul_unit_lt hgt])

/-- Beyond the infinity every number is below, the infinity the last of them. -/
theorem infinity_isNearest (h : steps infiniteMagnitude * unit ≤ r) :
    IsNearest r (infinity false) := by
  have hmagnitude := magnitude_ofMagnitude (Nat.le_refl infiniteMagnitude)
  have hnumber := isNaN_ofMagnitude (Nat.le_refl infiniteMagnitude)
  have hpositive := isNegative_ofMagnitude (Nat.le_refl infiniteMagnitude)
  have hdistance : ∀ {y : Binary64}, y.isNaN = false → |y.size - r| = r - y.size := by
    intro y hnumber'
    have hle := mul_unit_le (magnitude_le hnumber')
    rw [size_eq hnumber', abs_of_nonpos (by linarith), neg_sub]
  rw [infinity]
  generalize ofMagnitude false infiniteMagnitude = x at *
  refine ⟨hpositive, hnumber, fun y _ hnumber' => ?_, fun y hpositive' hnumber' hne htie => ?_⟩
  · rw [hdistance hnumber, hdistance hnumber']
    have hsize := (size_le_iff hnumber' hnumber).2 (hmagnitude ▸ magnitude_le hnumber')
    linarith
  · rw [hdistance hnumber, hdistance hnumber'] at htie
    have hsize := (size_le_iff hnumber hnumber').1 (by linarith)
    have hle := magnitude_le hnumber'
    exact absurd (eq_of_magnitude hpositive' hpositive (by omega)) hne

/-- The neighbour that a number is rounded to is nearest, or the infinity beyond the greatest finite
number. -/
theorem isNearest_of_rounds (h : Rounds r n m) :
    IsNearest r (ofMagnitude false (min m infiniteMagnitude)) := by
  rcases Nat.lt_or_ge n infiniteMagnitude with hlt | hge
  · have hle : m ≤ infiniteMagnitude := by
      rcases h.neighbour with rfl | rfl <;> omega
    have hmagnitude := magnitude_ofMagnitude hle
    have hnumber := isNaN_ofMagnitude hle
    have hpositive := isNegative_ofMagnitude hle
    have hbits := toNat_ofMagnitude hle
    rw [Nat.min_eq_left hle]
    generalize ofMagnitude false m = x at *
    subst hmagnitude
    refine ⟨hpositive, hnumber, fun y _ hnumber' => ?_, fun y hpositive' hnumber' hy htie => ?_⟩
    · rw [size_eq hnumber, size_eq hnumber']
      by_cases hy : y.magnitude = x.magnitude
      · rw [hy]
      · exact (h.closer hy).elim le_of_lt fun heq => le_of_eq heq.1
    · have hne : y.magnitude ≠ x.magnitude := fun heq =>
        hy (eq_of_magnitude hpositive' hpositive heq)
      rw [hbits]
      rw [size_eq hnumber, size_eq hnumber'] at htie
      exact (h.closer hne).elim (fun hcloser => absurd htie hcloser.ne') fun heq => heq.2
  · have hge' : infiniteMagnitude ≤ m := by
      rcases h.neighbour with rfl | rfl <;> omega
    rw [Nat.min_eq_right hge']
    exact infinity_isNearest (le_trans (mul_unit_le hge) h.below)

end Rounds

/-- There is only one nearest number. -/
theorem IsNearest.unique {r : ℚ} {x y : Binary64} (h : IsNearest r x) (h' : IsNearest r y) :
    x = y := by
  by_contra hxy
  wlog hlt : x.magnitude < y.magnitude generalizing x y
  · refine this h' h (Ne.symm hxy) ?_
    have hne : x.magnitude ≠ y.magnitude := fun heq =>
      hxy (eq_of_magnitude h.positive h'.positive heq)
    omega
  have htie : |x.size - r| = |y.size - r| :=
    le_antisymm (h.closest y h'.positive h'.number) (h'.closest x h.positive h.number)
  have heven := h.even y h'.positive h'.number (Ne.symm hxy) htie.symm
  have heven' := h'.even x h.positive h.number hxy htie
  rw [toNat_bits h.positive] at heven
  rw [toNat_bits h'.positive] at heven'
  -- Two even numbers have an odd one between them, which is closer than both.
  have hle : x.magnitude + 1 ≤ infiniteMagnitude :=
    Nat.le_trans hlt (magnitude_le h'.number)
  have hbetween := h.closest (ofMagnitude false (x.magnitude + 1)) (isNegative_ofMagnitude hle)
    (isNaN_ofMagnitude hle)
  have hbelow := mul_unit_lt (Nat.lt_add_one x.magnitude)
  have habove := mul_unit_lt (i := x.magnitude + 1) (j := y.magnitude) (by omega)
  rw [size_eq h.number, size_eq h'.number] at htie
  rw [size_eq h.number, size_eq (isNaN_ofMagnitude hle), magnitude_ofMagnitude hle] at hbetween
  rcases abs_eq_abs.1 htie with heq | heq
  · linarith
  · rw [abs_of_neg (by linarith), neg_sub] at hbetween
    exact absurd hbetween (not_le.2 (abs_lt.2 ⟨by linarith, by linarith⟩))

end StagedTangent.Binary64
