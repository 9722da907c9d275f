import StagedTangent.Evaluation.Value

/-!
# Applying an operation to values

Elementwise operations take scalars and vectors and pair a scalar with every element of a vector;
two vectors must have one length. The other operations say below what they take.
-/

namespace StagedTangent

/-- What an operation takes. -/
inductive Operands where
  | scalarOrVector
  | vector
  | ofOneKind
deriving DecidableEq, Repr

def Operands.description : Operands → String
  | .scalarOrVector => "a scalar or vector"
  | .vector => "a vector"
  | .ofOneKind => "operands of matching kind"

/-- Why a run stops without a value. -/
inductive RunError where
  /-- A stage, or an operation, got another number of values than it takes. -/
  | valueCount (stage expected found : Nat)
  /-- Two vectors of different lengths. -/
  | unequalLengths (op : Opcode) (left right : Nat)
  | pastEnd (place length : Nat)
  | wrongKind (op : Opcode) (expected : Operands) (found : Kind)
  | notAClosure (kind : Kind)
  | unboundName (symbol : Symbol)
deriving DecidableEq, Repr

def RunError.message : RunError → String
  | .valueCount stage expected found =>
    s!"stage {stage} expects {expected} argument(s), got {found}"
  | .unequalLengths op left right => s!"{op.name}: length mismatch ({left} vs {right})"
  | .pastEnd place length =>
    s!"index {place} out of range for vector of length {length}"
  | .wrongKind op expected found =>
    s!"{op.name} expects {expected.description}, got {found.name}"
  | .notAClosure kind => s!"value of kind '{kind.name}' is not callable"
  | .unboundName symbol => s!"symbol {symbol.text} is not bound"

namespace Value

variable {α : Type}

/-- A function of one number, elementwise. -/
def mapElements (op : Opcode) (f : α → α) : Value α → Except RunError (Value α)
  | .scalar x => .ok (.scalar (f x))
  | .vector xs => .ok (.vector (xs.map f))
  | .closure _ => .error (.wrongKind op .scalarOrVector .closure)

/-- A function of two numbers, elementwise. A scalar goes with every element of a vector. -/
def zipElements (op : Opcode) (f : α → α → α) : Value α → Value α → Except RunError (Value α)
  | .scalar x, .scalar y => .ok (.scalar (f x y))
  | .scalar x, .vector ys => .ok (.vector (ys.map (f x)))
  | .vector xs, .scalar y => .ok (.vector (xs.map (fun x => f x y)))
  | .vector xs, .vector ys =>
    if xs.length = ys.length then .ok (.vector (xs.zipWith f ys))
    else .error (.unequalLengths op xs.length ys.length)
  | .closure _, _ => .error (.wrongKind op .scalarOrVector .closure)
  | _, .closure _ => .error (.wrongKind op .scalarOrVector .closure)

/-- The vector rotated by `shift` places toward its end, where what passes the end comes in at the
front: the element at place `i` is that of place `i - shift`, modulo the length. -/
def rotate (xs : List α) (shift : Int) : List α :=
  let places := ((-shift) % (xs.length : Int)).toNat
  xs.drop places ++ xs.take places

variable [Scalar α]

/-- The sum of a list, from left to right. -/
def total (xs : List α) : α := xs.foldl Scalar.add Scalar.emptySum

/-- The product of two scalars, or the sum of the products of two vectors. -/
def dotProduct : Value α → Value α → Except RunError (Value α)
  | .scalar x, .scalar y => .ok (.scalar (Scalar.mul x y))
  | .vector xs, .vector ys =>
    if xs.length = ys.length then .ok (.scalar (total (xs.zipWith Scalar.mul ys)))
    else .error (.unequalLengths .dot xs.length ys.length)
  | .vector _, other => .error (.wrongKind .dot .ofOneKind other.kind)
  | other, _ => .error (.wrongKind .dot .ofOneKind other.kind)

/-- The sum of a vector. A scalar is its own sum. -/
def sumElements : Value α → Except RunError (Value α)
  | .scalar x => .ok (.scalar x)
  | .vector xs => .ok (.scalar (total xs))
  | .closure _ => .error (.wrongKind .sum .scalarOrVector .closure)

/-- The element at a place of a vector. -/
def element (place : Nat) : Value α → Except RunError (Value α)
  | .vector xs =>
    match xs[place]? with
    | some x => .ok (.scalar x)
    | none => .error (.pastEnd place xs.length)
  | other => .error (.wrongKind .index .vector other.kind)

/-- A vector rotated toward its end. A scalar stays as it is. -/
def circshift (shift : Int) : Value α → Except RunError (Value α)
  | .scalar x => .ok (.scalar x)
  | .vector xs => .ok (.vector (rotate xs shift))
  | .closure _ => .error (.wrongKind .circshift .scalarOrVector .closure)

/-- Apply an operation to the values of its operands. -/
def apply (op : Op) (operands : List (Value α)) : Except RunError (Value α) :=
  match op, operands with
  | .constant c, [] => .ok (.scalar (Scalar.literal c))
  | .add, [a, b] => zipElements .add Scalar.add a b
  | .sub, [a, b] => zipElements .sub Scalar.sub a b
  | .mul, [a, b] => zipElements .mul Scalar.mul a b
  | .div, [a, b] => zipElements .div Scalar.div a b
  | .neg, [a] => mapElements .neg Scalar.neg a
  | .sin, [a] => mapElements .sin Scalar.sin a
  | .cos, [a] => mapElements .cos Scalar.cos a
  | .exp, [a] => mapElements .exp Scalar.exp a
  | .log, [a] => mapElements .log Scalar.log a
  | .sqrt, [a] => mapElements .sqrt Scalar.sqrt a
  | .abs, [a] => mapElements .abs Scalar.abs a
  | .sign, [a] => mapElements .sign Scalar.sign a
  | .zeroLike, [a] => mapElements .zeroLike (fun _ => Scalar.zero) a
  | .dot, [a, b] => dotProduct a b
  | .sum, [a] => sumElements a
  | .index place, [a] => element place a
  | .circshift shift, [a] => circshift shift a
  | op, operands => .error (.valueCount 0 op.arity operands.length)

end Value

end StagedTangent
