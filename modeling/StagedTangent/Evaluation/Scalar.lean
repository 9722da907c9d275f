import StagedTangent.Number.Binary64

/-!
# Scalars

The evaluator needs of its scalars only the operations below. It runs on the numbers of the
machine, and can be read over any other type that has such operations: a field with functions of
any kind in the place of the elementary ones, or pairs of a value and a tangent.
-/

namespace StagedTangent

/-- The operations on scalars that the evaluation of code uses. No law is asked of them. -/
class Scalar (α : Type) where
  /-- The scalar that a constant of a program stands for. -/
  literal : Binary64 → α
  /-- What an operation that keeps only the shape yields. -/
  zero : α
  /-- What sums start from. -/
  emptySum : α
  add : α → α → α
  sub : α → α → α
  mul : α → α → α
  div : α → α → α
  neg : α → α
  sin : α → α
  cos : α → α
  exp : α → α
  log : α → α
  sqrt : α → α
  abs : α → α
  sign : α → α

namespace Binary64

/-- The number of the machine with this bit pattern. -/
def toFloat (x : Binary64) : Float := Float.ofBits x.bits

/-- The bit pattern of a number of the machine. -/
def ofFloat (x : Float) : Binary64 := ⟨x.toBits⟩

end Binary64

/-- One with the sign of a number; zero for either zero and a NaN for a NaN. -/
def signOf (x : Float) : Float :=
  if x == 0 then 0 else if x > 0 then 1 else if x < 0 then -1 else x

/-- The numbers of the machine. Sums start from the negative zero, which adding to a number leaves
any number as it is. -/
instance : Scalar Float where
  literal := Binary64.toFloat
  zero := 0
  emptySum := -0.0
  add := fun x y => x + y
  sub := fun x y => x - y
  mul := fun x y => x * y
  div := fun x y => x / y
  neg := fun x => -x
  sin := Float.sin
  cos := Float.cos
  exp := Float.exp
  log := Float.log
  sqrt := Float.sqrt
  abs := Float.abs
  sign := signOf

end StagedTangent
