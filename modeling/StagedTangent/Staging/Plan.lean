import StagedTangent.Program.Reach

/-!
# Plans

A plan says of every node whether the result needs it, and from which stage on its value can be
computed: an argument from its own stage, a call from the latest stage of its operands.
-/

namespace StagedTangent

/-- When the nodes of a program are computed, and which of them are needed. -/
structure Plan where
  /-- For each node, whether the result needs it. -/
  needed : Array Bool
  /-- For each node, the stage from which on its value is known. -/
  stages : Array Nat
  /-- The last stage. -/
  last : Nat
deriving DecidableEq, Repr

namespace Program

/-- The stage of a node, given those of the nodes before it. Operands that do not stand before the
node do not delay it. -/
def stageOf (p : Program) (stages : Array Nat) : Node → Nat
  | .argument position => p.stageOfArgument position
  | .call _ operands => (operands.map (fun operand => stages.getD operand 0)).foldl max 0

/-- The stage of every node. -/
def stages (p : Program) : Array Nat :=
  p.nodes.foldl (fun stages node => stages.push (p.stageOf stages node)) #[]

/-- The plan of a program. -/
def plan (p : Program) : Plan := ⟨p.neededFor p.result, p.stages, p.order⟩

end Program

namespace Plan

/-- The needed nodes of a stage, in the order of recording. -/
def neededAt (s : Plan) (stage : Nat) : List Nat :=
  (List.range s.stages.size).filter fun node =>
    decide (s.stages.getD node 0 = stage) && s.needed.getD node false

/-- The number of needed nodes. -/
def neededCount (s : Plan) : Nat := s.needed.toList.count true

end Plan

end StagedTangent
