import StagedTangent.Json.Basic
import StagedTangent.Number.Decimal

/-!
# What a JSON numeral stands for

A numeral is a sign, digits before and behind the point, and an exponent. One without point and
exponent that fits 64 bits is an integer. Any other is a binary number, found in one of two ways:
the exact value is rounded once, or the leading digits that fit 64 bits are scaled by a power of
ten with a rounding at each step. The second way may be off by a little in the last place.
-/

namespace StagedTangent.Json

/-- How a numeral is rounded to a binary number. -/
inductive Rounding where
  /-- The exact value is rounded once, to nearest. -/
  | once
  /-- The leading digits, the power of ten and what they come to are rounded to nearest each. -/
  | stepwise
deriving DecidableEq, Repr

/-- The greatest exponent that is added to the place of the point; a larger one decides alone. -/
def exponentLimit : Nat := 2147483647

/-- An exponent: a number, or larger than the limit with the sign that it has. -/
inductive Exponent where
  | moderate (value : Int)
  | huge (negative : Bool)
deriving DecidableEq, Repr

/-- The parts of a numeral. -/
structure Numeral where
  negative : Bool
  /-- The digits before the point. -/
  whole : List Char
  /-- The digits behind the point, if there is one. -/
  fraction : Option (List Char)
  exponent : Option Exponent
deriving DecidableEq, Repr

/-- Put digits behind a significand while it stays below `2 ^ 64`. The first digit that makes it
too large is left over, and so are all behind it. -/
def appendDigits (significand : Nat) : List Char → Nat × List Char
  | [] => (significand, [])
  | c :: rest =>
    let longer := 10 * significand + (c.toNat - 48)
    if longer < Nat.pow 2 64 then appendDigits longer rest else (significand, c :: rest)

/-- The greatest power of ten that is finite when it is rounded. -/
def powerLimit : Nat := 308

/-- Ten to a power, rounded to nearest. -/
def powerOfTen (n : Nat) : Binary64 := .nearest false (Nat.pow 10 n) 1

/-- A number divided by ten to a power. The power is split when it is beyond the limit, until the
quotient is zero. -/
def divideByPower? (x : Binary64) (n : Nat) : Option Binary64 :=
  if n ≤ powerLimit then x.div? (powerOfTen n)
  else if x.magnitude = 0 then some x
  else (x.div? (powerOfTen powerLimit)).bind fun y => divideByPower? y (n - powerLimit)
termination_by n
decreasing_by
  have : 0 < powerLimit := by decide
  omega

namespace Numeral

/-- The digits behind the point. -/
def fractionDigits (n : Numeral) : List Char := n.fraction.getD []

/-- The exact value without the sign, given the exponent. -/
def exactDecimal (n : Numeral) (exponent : Int) : Decimal :=
  let unscaled := Decimal.ofNumeral n.whole n.fractionDigits
  ⟨unscaled.digits, unscaled.exponent + exponent⟩

/-- What the leading digits come to without the sign, given the exponent. Digits left over before
the point still count for its place, and the digits behind the point follow at once. -/
def leadingDecimal (n : Numeral) (exponent : Int) : Decimal :=
  let (significand, wholeLeft) := appendDigits 0 n.whole
  let (significand, fractionLeft) := appendDigits significand n.fractionDigits
  let behindPoint : Int := n.fractionDigits.length - fractionLeft.length
  ⟨significand, wholeLeft.length - behindPoint + exponent⟩

/-- The leading digits, rounded, times or divided by the power of ten, rounded; absent when the
power of ten is too large. -/
def stepwise? (n : Numeral) (exponent : Int) : Option Binary64 :=
  let d := n.leadingDecimal exponent
  let significand := Binary64.nearest n.negative d.digits 1
  match d.exponent with
  | .ofNat e =>
    if e ≤ powerLimit then significand.mul? (powerOfTen e)
    else if d.digits = 0 then some significand
    else none
  | .negSucc e => divideByPower? significand (e + 1)

/-- The binary number of a numeral; absent beyond the greatest finite number. An exponent beyond
the limit leaves a zero: with a positive one only the digits of zero are a numeral. -/
def toBinary64? (rounding : Rounding) (n : Numeral) : Option Binary64 :=
  let found := match n.exponent.getD (.moderate 0), rounding with
    | .huge _, _ => some (Binary64.zero n.negative)
    | .moderate e, .once => some ((n.exactDecimal e).toBinary64 n.negative)
    | .moderate e, .stepwise => n.stepwise? e
  found.filter Binary64.isFinite

/-- The integer of a numeral without point and exponent, if it fits 64 bits with its sign. A zero
with a minus sign is no integer. -/
def toInt? (n : Numeral) : Option Int :=
  if n.fraction.isSome || n.exponent.isSome then none
  else
    let size := naturalOfDigits n.whole
    if n.negative then
      if size = 0 ∨ Nat.pow 2 63 < size then none else some (-(size : Int))
    else if size < Nat.pow 2 64 then some size
    else none

/-- The value of a numeral; absent beyond the greatest finite number. -/
def toJson? (rounding : Rounding) (n : Numeral) : Option Json :=
  match n.toInt? with
  | some value => some (.int value)
  | none => (n.toBinary64? rounding).map .real

end Numeral

end StagedTangent.Json
