import StagedTangent.Derivative.Fragment

/-!
# Derivative rules

The rule of an operation at one of its operands records the factor that depends on values of the
function alone and leaves a linear map: a recipe that takes the tangent of that operand to the
contribution it makes to the tangent of the result. The rules of this module cover every operation
that has a derivative wherever it is defined.
-/

namespace StagedTangent

/-- A map from a tangent to what it contributes, as nodes to be recorded. -/
structure TangentMap where
  apply : Nat → Fragment Nat

namespace TangentMap

/-- The tangent itself. -/
def keep : TangentMap := ⟨fun tangent => pure tangent⟩

/-- An operation of one operand, applied to the tangent. -/
def applying (op : Op) : TangentMap := ⟨fun tangent => .record op [tangent]⟩

/-- The tangent multiplied by a recorded factor. -/
def times (factor : Nat) : TangentMap := ⟨fun tangent => .record .mul [tangent, factor]⟩

/-- The tangent as the first of two operands. -/
def before (op : Op) (second : Nat) : TangentMap := ⟨fun tangent => .record op [tangent, second]⟩

/-- The tangent as the second of two operands. -/
def after (op : Op) (first : Nat) : TangentMap := ⟨fun tangent => .record op [first, tangent]⟩

end TangentMap

/-- The derivative of an operation at one of its operands: given the operation and the references
of all its operands, record the factor and give the map. -/
abbrev Rule := Op → List Nat → Fragment TangentMap

namespace Rule

/-- The first of the operands of a call. -/
def first (operands : List Nat) : Nat := operands.getD 0 0

/-- The second of the operands of a call. -/
def second (operands : List Nat) : Nat := operands.getD 1 0

/-- Sums pass a tangent on, and so does a difference at its first operand. -/
def pass : Rule := fun _ _ => pure .keep

/-- A difference negates the tangent of its second operand. -/
def opposite : Rule := fun _ _ => pure (.applying .neg)

/-- A linear operation of one operand is its own derivative. -/
def again : Rule := fun op _ => pure (.applying op)

/-- A locally constant operation has a tangent of zeros. -/
def flat : Rule := fun _ _ => pure (.applying .zeroLike)

/-- An operation that is linear in its first operand is applied to the tangent in its place. -/
def replaceFirst (linear : Op) : Rule := fun _ operands =>
  pure (.before linear (second operands))

/-- An operation that is linear in its second operand is applied to the tangent in its place. -/
def replaceSecond (linear : Op) : Rule := fun _ operands =>
  pure (.after linear (first operands))

/-- The quotient `a / b` changes with `b` by the factor `-((a / b) / b)`. -/
def divisor : Rule := fun _ operands => do
  let quotient ← .record .div [first operands, second operands]
  let scaled ← .record .div [quotient, second operands]
  let factor ← .record .neg [scaled]
  return .times factor

/-- The sine changes by the cosine. -/
def sine : Rule := fun _ operands => do
  let factor ← .record .cos [first operands]
  return .times factor

/-- The cosine changes by the negated sine. -/
def cosine : Rule := fun _ operands => do
  let sine ← .record .sin [first operands]
  let factor ← .record .neg [sine]
  return .times factor

/-- The exponential changes by itself. -/
def exponential : Rule := fun _ operands => do
  let factor ← .record .exp [first operands]
  return .times factor

/-- The logarithm divides the tangent by its operand. -/
def logarithm : Rule := fun _ operands => pure (.before .div (first operands))

/-- The square root divides the tangent by twice itself. -/
def squareRoot : Rule := fun _ operands => do
  let root ← .record .sqrt [first operands]
  let twice ← .record .add [root, root]
  return .before .div twice

end Rule

end StagedTangent
