import StagedTangent.Number.Decimal

/-!
# The fewest digits that read back

A finite number is written with the fewest decimal digits that read back to it; among those, with
the ones nearest to it. Grids of ever finer powers of ten are tried from the leading digit on, and
on each only the two neighbours of the number: if any point of a grid reads back, so does one of
these.
-/

namespace StagedTangent

/-- Which of two equally near neighbours is preferred. -/
inductive Tie where
  /-- The larger one. -/
  | up
  /-- The one with an even last digit. -/
  | even
deriving DecidableEq, Repr

namespace Decimal

/-- The neighbours of `num / den` among the natural numbers, nearer first. A natural number is its
own only neighbour. -/
def neighbours (tie : Tie) (num den : Nat) : List Nat :=
  let below := num / den
  let left := num % den
  if left = 0 then [below]
  else if 2 * left < den then [below, below + 1]
  else if den < 2 * left then [below + 1, below]
  else match tie with
    | .up => [below + 1, below]
    | .even => if below % 2 = 0 then [below, below + 1] else [below + 1, below]

/-- The power of ten of the leading digit of `num / den`, for positive `num` and `den`. -/
def leadingPower (num den : Nat) : Int :=
  let guess : Int := (decimalLength num : Int) - (decimalLength den : Int)
  let scaled := scaleDown 10 num den guess
  if scaled.2 ≤ scaled.1 then guess else guess - 1

/-- The nearest neighbour of `num / den` on the grid of multiples of `10 ^ power` that reads back
as `x`, if one does. -/
def onGrid? (tie : Tie) (x : Binary64) (num den : Nat) (power : Int) : Option Decimal :=
  let scaled := scaleDown 10 num den power
  let points := (neighbours tie scaled.1 scaled.2).map (fun digits => Decimal.mk digits power)
  points.find? (fun d => decide (d.toBinary64 x.isNegative = x))

/-- The same number without the zeros at the end of its digits, of which `fuel` are removed at
most. -/
def dropZeros (fuel : Nat) (d : Decimal) : Decimal :=
  match fuel with
  | 0 => d
  | fuel + 1 =>
    if d.digits ≠ 0 ∧ d.digits % 10 = 0 then dropZeros fuel ⟨d.digits / 10, d.exponent + 1⟩ else d

/-- The exact value `significand · 2 ^ exponent` as a decimal. -/
def ofPowerOfTwo (significand : Nat) (exponent : Int) : Decimal :=
  match exponent with
  | .ofNat n => ⟨significand * Nat.pow 2 n, 0⟩
  | .negSucc n => ⟨significand * Nat.pow 5 (n + 1), -((n : Int) + 1)⟩

end Decimal

namespace Binary64

/-- The fewest digits that read back as `x` up to its sign, the nearest such ones, and of two
equally near the one that `tie` prefers. Seventeen digits always suffice; the exact value stands
behind them, so that the answer reads back whatever `x` is. The sign is left to the caller, and a
number that is not finite has no digits. -/
def shortest (tie : Tie) (x : Binary64) : Decimal :=
  match x.meaning with
  | .nan | .infinite _ => ⟨0, 0⟩
  | .finite _ significand exponent =>
    if significand = 0 then ⟨0, 0⟩
    else
      let value := scaleDown 2 significand 1 (-exponent)
      let top := Decimal.leadingPower value.1 value.2
      let grids := (List.range 17).map (fun (k : Nat) => top - (k : Int))
      let found := grids.findSome? (Decimal.onGrid? tie x value.1 value.2)
      let d := found.getD (Decimal.ofPowerOfTwo significand exponent)
      d.dropZeros (decimalLength d.digits)

end Binary64

end StagedTangent
