import StagedTangent.Program.Basic

/-!
# Reach of a node

Operands stand before the nodes that use them, so one pass over the tape finds everything that
depends on a node, and one pass backward everything that a node needs. The passes are total: on a
program that is not well formed they take the operands as they are and skip those off the tape.
-/

namespace StagedTangent.Program

/-- Whether the node at the next place depends on `source`, given that of the nodes before it. -/
def dependsOn (source : Nat) (reached : Array Bool) (node : Node) : Bool :=
  if reached.size ≤ source then decide (reached.size = source)
  else node.operands.any (fun operand => reached.getD operand false)

/-- For each node, whether it is `source` or uses it, directly or through others. -/
def reachedFrom (p : Program) (source : Nat) : Array Bool :=
  if p.size ≤ source then Array.replicate p.size false
  else p.nodes.foldl (fun reached node => reached.push (dependsOn source reached node)) #[]

/-- Mark every node of a list; references off the tape are skipped. -/
def mark (needed : Array Bool) (nodes : List Nat) : Array Bool :=
  nodes.foldl (fun needed node => needed.setIfInBounds node true) needed

/-- Mark the operands of the node at a place, if that place is marked. -/
def markOperands (needed : Array Bool) (entry : Node × Nat) : Array Bool :=
  if needed.getD entry.2 false then mark needed entry.1.operands else needed

/-- For each node, whether it is `sink` or is used by it, directly or through others. -/
def neededFor (p : Program) (sink : Nat) : Array Bool :=
  let none := Array.replicate p.size false
  if p.size ≤ sink then none
  else (p.nodes.zipIdx.take (sink + 1)).reverse.foldl markOperands (none.setIfInBounds sink true)

end StagedTangent.Program
