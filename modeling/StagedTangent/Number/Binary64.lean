/-!
# Binary floating-point numbers

A constant of a program is a number of the 64-bit binary format, kept as its bit pattern. This
module decodes a pattern into the exact number `±m · 2 ^ q` that it stands for and rounds an exact
fraction to the nearest pattern. Everything is done on natural numbers, so that nothing here
depends on the arithmetic of the machine.
-/

namespace StagedTangent

/-- A 64-bit binary floating-point number, kept as its bit pattern. Equality is equality of bits:
the two zeros differ, and a NaN equals itself. -/
structure Binary64 where
  bits : UInt64
deriving DecidableEq, Repr, Inhabited

/-- Twice the numerator is compared with the denominator: an exact half goes to the even
neighbour. The denominator is assumed positive. -/
def roundHalfEven (num den : Nat) : Nat :=
  let below := num / den
  let left := num % den
  if 2 * left < den then below
  else if den < 2 * left then below + 1
  else if below % 2 = 0 then below
  else below + 1

/-- The fraction `num / den` divided by `base ^ power`, again as a fraction. -/
def scaleDown (base num den : Nat) (power : Int) : Nat × Nat :=
  match power with
  | .ofNat n => (num, den * base.pow n)
  | .negSucc n => (num * base.pow (n + 1), den)

namespace Binary64

/-- What a bit pattern stands for. -/
inductive Meaning where
  | nan
  | infinite (negative : Bool)
  /-- The number `±significand · 2 ^ exponent`. -/
  | finite (negative : Bool) (significand : Nat) (exponent : Int)
deriving DecidableEq, Repr

/-- The pattern whose bits below the sign are `magnitude`. -/
def ofMagnitude (negative : Bool) (magnitude : Nat) : Binary64 :=
  ⟨UInt64.ofNat (if negative then Nat.pow 2 63 + magnitude else magnitude)⟩

/-- The magnitude of an infinity: every exponent bit set, every fraction bit clear. -/
def infiniteMagnitude : Nat := 2047 * Nat.pow 2 52

def zero (negative : Bool) : Binary64 := ofMagnitude negative 0

def infinity (negative : Bool) : Binary64 := ofMagnitude negative infiniteMagnitude

/-- The bits below the sign. -/
def magnitude (x : Binary64) : Nat := x.bits.toNat % Nat.pow 2 63

def isNegative (x : Binary64) : Bool := decide (Nat.pow 2 63 ≤ x.bits.toNat)

def isNaN (x : Binary64) : Bool := decide (infiniteMagnitude < x.magnitude)

def isFinite (x : Binary64) : Bool := decide (x.magnitude < infiniteMagnitude)

/-- Decode a pattern. Patterns with a zero exponent field have no hidden leading bit. -/
def meaning (x : Binary64) : Meaning :=
  let fraction : Nat := x.magnitude % Nat.pow 2 52
  let field : Nat := x.magnitude / Nat.pow 2 52
  if field = 2047 then
    if fraction = 0 then .infinite x.isNegative else .nan
  else if field = 0 then .finite x.isNegative fraction (-1074)
  else .finite x.isNegative (Nat.pow 2 52 + fraction) ((field : Int) - 1075)

/-- The greatest `e` with `2 ^ e ≤ num / den`, for positive `num` and `den`. -/
def floorLog2 (num den : Nat) : Int :=
  let guess : Int := (Nat.log2 num : Int) - (Nat.log2 den : Int)
  let scaled := scaleDown 2 num den guess
  if scaled.2 ≤ scaled.1 then guess else guess - 1

/-- The number nearest to `±num / den`, ties to the even significand; beyond the greatest finite
number it is an infinity. The exponent `q` is chosen so that the quotient by `2 ^ q` has 53 binary
digits, or is the least one there is; a significand that rounds up to `2 ^ 53` carries into the
exponent field by itself. -/
def nearest (negative : Bool) (num den : Nat) : Binary64 :=
  if num = 0 then zero negative
  else
    let q := max (floorLog2 num den - 52) (-1074)
    let scaled := scaleDown 2 num den q
    let magnitude := (q + 1074).toNat * Nat.pow 2 52 + roundHalfEven scaled.1 scaled.2
    ofMagnitude negative (min magnitude infiniteMagnitude)

/-- The number nearest to an integer. -/
def ofInt (n : Int) : Binary64 := nearest (decide (n < 0)) n.natAbs 1

/-- A finite number without its sign, as a fraction. -/
def fraction? (x : Binary64) : Option (Nat × Nat) :=
  match x.meaning with
  | .nan | .infinite _ => none
  | .finite _ significand exponent => some (scaleDown 2 significand 1 (-exponent))

/-- The product of two finite numbers, rounded to nearest. -/
def mul? (x y : Binary64) : Option Binary64 := do
  let a ← x.fraction?
  let b ← y.fraction?
  return nearest (x.isNegative != y.isNegative) (a.1 * b.1) (a.2 * b.2)

/-- The quotient of two finite numbers, rounded to nearest; the divisor must not be zero. -/
def div? (x y : Binary64) : Option Binary64 := do
  let a ← x.fraction?
  let b ← y.fraction?
  if b.1 = 0 then none
  else return nearest (x.isNegative != y.isNegative) (a.1 * b.2) (a.2 * b.1)

/-- The integer that a pattern stands for, if it stands for one. Both zeros are `0`. -/
def toInt? (x : Binary64) : Option Int := do
  let (num, den) ← x.fraction?
  if num % den = 0 then
    let size : Int := (num / den : Nat)
    return if x.isNegative then -size else size
  else none

end Binary64

end StagedTangent
