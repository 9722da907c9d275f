import StagedTangent.Evaluation.Scalar
import StagedTangent.Staging.Code

/-!
# Values

Running code yields scalars, vectors and closures. A closure holds the scope that is still to be
run and everything that the stages around it have bound, and it remembers which run made it: two
closures are the same only if they come from one run.
-/

namespace StagedTangent

/-- The kinds of values. -/
inductive Kind where
  | scalar
  | vector
  | closure
deriving DecidableEq, Repr

def Kind.name : Kind → String
  | .scalar => "scalar"
  | .vector => "vector"
  | .closure => "closure"

/-- Values by name, those bound last first. -/
abbrev Env (V : Type) := List (Symbol × V)

/-- A partially applied stage over values of a type. -/
structure Closure (V : Type) where
  /-- The number of the run that made it. -/
  run : Nat
  /-- What is still to be run. -/
  scope : Scope
  /-- What the stages around it have bound. -/
  env : List (Symbol × V)

namespace Closure

variable {V : Type}

/-- The stage that the closure runs when it is called. -/
def stage (c : Closure V) : Nat := c.scope.stage

/-- The value that a stage around the closure has bound to a name, if any. -/
def bound? (c : Closure V) (s : Symbol) : Option V := c.env.lookup s

end Closure

/-- What running code yields and takes. -/
inductive Value (α : Type) where
  | scalar (x : α)
  | vector (xs : List α)
  | closure (c : Closure (Value α))

namespace Value

variable {α : Type}

def kind : Value α → Kind
  | .scalar _ => .scalar
  | .vector _ => .vector
  | .closure _ => .closure

def scalar? : Value α → Option α
  | .scalar x => some x
  | _ => none

def vector? : Value α → Option (List α)
  | .vector xs => some xs
  | _ => none

def closure? : Value α → Option (Closure (Value α))
  | .closure c => some c
  | _ => none

/-- Equality of values: numbers are compared as numbers, and closures are equal if they are copies
of one closure. -/
def same (v w : Value Float) : Bool :=
  match v, w with
  | .scalar x, .scalar y => x == y
  | .vector xs, .vector ys => xs == ys
  | .closure c, .closure d => decide (c.run = d.run ∧ c.stage = d.stage)
  | _, _ => false

end Value

end StagedTangent
