import StagedTangent.Number.Binary64

/-!
# Decimal numerals

A decimal is a natural number with a power of ten. Reading one gives the nearest binary number,
however long the numeral or large its exponent.
-/

namespace StagedTangent

/-- The number `digits · 10 ^ exponent`. -/
structure Decimal where
  digits : Nat
  exponent : Int
deriving DecidableEq, Repr, Inhabited

/-- How many decimal digits a natural number is written with; zero has one. -/
def decimalLength (n : Nat) : Nat := (Nat.toDigits 10 n).length

/-- The natural number written by a list of decimal digits, most significant first. -/
def naturalOfDigits (cs : List Char) : Nat :=
  cs.foldl (fun n c => 10 * n + (c.toNat - 48)) 0

namespace Decimal

/-- The decimal written as `whole` or `whole.fraction`. -/
def ofNumeral (whole : List Char) (fraction : List Char) : Decimal :=
  ⟨naturalOfDigits (whole ++ fraction), -(fraction.length : Int)⟩

/-- The value as a fraction. -/
def toFraction (d : Decimal) : Nat × Nat := scaleDown 10 d.digits 1 (-d.exponent)

/-- The binary number nearest to `±d`. A decimal of `10 ^ 309` or more is beyond every finite
number and one below `10 ^ (-324)` is nearer to zero than to any other, so that exponents of any
size are read without computing their powers. -/
def toBinary64 (negative : Bool) (d : Decimal) : Binary64 :=
  if d.digits = 0 then .zero negative
  else
    let leading := d.exponent + decimalLength d.digits
    if 309 < leading then .infinity negative
    else if leading < -323 then .zero negative
    else .nearest negative d.toFraction.1 d.toFraction.2

end Decimal

end StagedTangent
