import StagedTangent.Op.Basic

/-!
# Staged code

Code is a nest of closures, one per stage. Each layer takes the arguments of its stage and binds
what can be computed once they are known; the innermost yields the result, every other a closure
over the next stage that captures all that has been bound.
-/

namespace StagedTangent

/-- The name of a parameter or binding. Names are numbered from one in the order of the code. -/
structure Symbol where
  number : Nat
deriving DecidableEq, Repr

def Symbol.text (s : Symbol) : String := "s" ++ toString s.number

/-- A parameter of a closure and the argument node that it stands for. -/
structure Param where
  symbol : Symbol
  node : Nat
deriving DecidableEq, Repr

/-- A named operation on named values, and the node that it computes. -/
structure Binding where
  symbol : Symbol
  node : Nat
  op : Op
  args : List Symbol
deriving DecidableEq, Repr

/-- What one stage takes and binds, in order. -/
structure Layer where
  stage : Nat
  params : List Param
  bindings : List Binding
deriving DecidableEq, Repr

/-- A nest of closures from some stage on. -/
inductive Scope where
  /-- The last stage yields a value. -/
  | innermost (layer : Layer) (result : Symbol)
  /-- Any other stage yields a closure. -/
  | enclosing (layer : Layer) (inner : Scope)
deriving DecidableEq, Repr

namespace Scope

/-- What the outermost stage takes and binds. -/
def layer : Scope → Layer
  | .innermost layer _ => layer
  | .enclosing layer _ => layer

/-- The stage of the outermost closure. -/
def stage (scope : Scope) : Nat := scope.layer.stage

/-- The closure inside the outermost one. -/
def inner? : Scope → Option Scope
  | .innermost .. => none
  | .enclosing _ inner => some inner

/-- The scopes of a nest, from the outside in. -/
def nest : Scope → List Scope
  | .innermost layer result => [.innermost layer result]
  | .enclosing layer inner => .enclosing layer inner :: inner.nest

/-- The number of closures inside the outermost one. -/
def depth : Scope → Nat
  | .innermost .. => 0
  | .enclosing _ inner => inner.depth + 1

theorem length_nest (scope : Scope) : scope.nest.length = scope.depth + 1 := by
  induction scope with
  | innermost layer result => rfl
  | enclosing layer inner ih => simp [nest, depth, ih]

end Scope

/-- The code of a program. -/
structure Code where
  root : Scope
  /-- How many names are used. -/
  symbols : Nat
deriving DecidableEq, Repr

namespace Code

/-- The scopes from the outside in. -/
def scopes (code : Code) : List Scope := code.root.nest

/-- The scope of a stage. -/
def scope? (code : Code) (stage : Nat) : Option Scope := code.scopes[stage]?

/-- The number of closures inside the outermost one. -/
def order (code : Code) : Nat := code.root.depth

/-- Every binding, from the outside in. -/
def bindings (code : Code) : List Binding :=
  code.scopes.flatMap (fun scope => scope.layer.bindings)

end Code

end StagedTangent
