import StagedTangent.Program.Tape

/-!
# Programs

A program is a recorded function: a tape, the nodes of its arguments and the node of its result.
The first arguments are those of the function as it was recorded; every differentiation adds one
more, the direction of the derivative. The value of an argument becomes known at its stage: all base
arguments at stage zero, then one direction per stage.
-/

namespace StagedTangent

/-- A recorded function. Nothing is required of the parts here. -/
structure Program where
  tape : Tape
  arguments : List Nat
  result : Nat
  /-- The number of arguments of the function as it was recorded. -/
  baseArity : Nat
deriving DecidableEq, Repr

namespace Program

/-- Every node, in the order of recording. -/
def nodes (p : Program) : List Node := p.tape.nodes

/-- The number of nodes. -/
def size (p : Program) : Nat := p.tape.size

/-- The node that a reference names. -/
def node? (p : Program) (node : Nat) : Option Node := p.tape.get? node

/-- The number of directions that differentiation has added. -/
def order (p : Program) : Nat := p.arguments.length - p.baseArity

/-- The stage at which the argument at a position becomes known. -/
def stageOfArgument (p : Program) (position : Nat) : Nat :=
  if position < p.baseArity then 0 else position - p.baseArity + 1

theorem size_eq_length (p : Program) : p.size = p.nodes.length := p.tape.size_eq_length

theorem node?_eq (p : Program) (node : Nat) : p.node? node = p.nodes[node]? :=
  p.tape.get?_eq node

end Program

end StagedTangent
