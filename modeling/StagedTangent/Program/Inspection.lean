import StagedTangent.Machine
import StagedTangent.Program.Text
import StagedTangent.Program.WellFormed
import StagedTangent.Staging.Plan

/-!
# Inspecting programs with machine words

A program can be checked, listed, searched and scheduled before anything is known about it. Here
this is done as a machine does it, on arrays that are filled in place and with numbers of 64 bits, so
that a fault can come of any access, sum or difference.
-/

namespace StagedTangent.Machine

variable (m : Machine) (p : Program)

/-! ## Checking -/

/-- The node at a place of a list of segments. -/
def getIn? : List (Array Node) → Nat → Except Fault (Option Node)
  | [], _ => .ok none
  | segment :: rest, place =>
    if place < segment.size then do
      let node ← readAt segment place
      .ok (some node)
    else do
      let offset ← m.sub place segment.size
      getIn? rest offset

/-- What is wrong with the entry of the argument list at a position. -/
def entryDefect? (entry : Nat × Nat) : Except Fault (Option Defect) := do
  let node ← m.getIn? p.tape.segments entry.1
  .ok (if node = some (.argument entry.2) then none
    else some (.misplacedArgument entry.2 entry.1))

/-- The first thing that is wrong with a program. -/
def defect? : Except Fault (Option Defect) :=
  match p.arityDefect? with
  | some defect => .ok (some defect)
  | none => do
    match ← findFirst (m.entryDefect? p) p.arguments.zipIdx with
    | some defect => .ok (some defect)
    | none => .ok ((p.nodes.zipIdx.findSome? p.nodeDefect?).or p.resultDefect?)

/-! ## Listing -/

/-- The stage at which the argument at a position becomes known. -/
def stageOfArgument (position : Nat) : Except Fault Nat :=
  if position < p.baseArity then .ok 0
  else do
    let direction ← m.sub position p.baseArity
    m.add direction 1

/-- What a node is, on the right of the equality sign of its line. -/
def nodeText : Node → Except Fault String
  | .argument position => do
    let stage ← m.stageOfArgument p position
    .ok (argumentText position stage)
  | .call op operands => .ok (callText op operands)

/-- The line of the node at a place. -/
def lineOf (entry : Node × Nat) : Except Fault String := do
  let text ← m.nodeText p entry.1
  .ok (nodeLine entry.2 text)

/-- The text of a program. -/
def text : Except Fault String := do
  let lines ← p.nodes.zipIdx.mapM (m.lineOf p)
  .ok (p.frame lines)

/-! ## Searching -/

/-- Mark the node at a place if it uses a marked one. -/
def markUser (reached : Array Bool) (entry : Node × Nat) : Except Fault (Array Bool) :=
  if entry.1.operands.any (fun operand => reached.getD operand false) then
    writeAt reached entry.2 true
  else .ok reached

/-- For each node, whether it is `source` or uses it, directly or through others. -/
def reachedFrom (source : Nat) : Except Fault (Array Bool) :=
  let reached := Array.replicate p.size false
  if reached.size ≤ source then .ok reached
  else do
    let reached ← writeAt reached source true
    let next ← m.add source 1
    (p.nodes.zipIdx.drop next).foldlM markUser reached

/-- Mark the operands of the node at a place of a tape, if that place is marked. -/
def markUsed (nodes : Array Node) (needed : Array Bool) (place : Nat) :
    Except Fault (Array Bool) := do
  if ← readAt needed place then
    let node ← readAt nodes place
    .ok (Program.mark needed node.operands)
  else .ok needed

/-- For each node, whether it is `sink` or is used by it, directly or through others. -/
def neededFor (sink : Nat) : Except Fault (Array Bool) :=
  let needed := Array.replicate p.size false
  if needed.size ≤ sink then .ok needed
  else do
    let needed ← writeAt needed sink true
    (List.range (sink + 1)).reverse.foldlM (markUsed p.nodes.toArray) needed

/-! ## Scheduling -/

/-- The stage of a node, given those of the nodes before it. -/
def stageOf (stages : Array Nat) : Node → Except Fault Nat
  | .argument position => m.stageOfArgument p position
  | .call _ operands => .ok ((operands.map fun operand => stages.getD operand 0).foldl max 0)

/-- Enter the stage of the node at a place. -/
def enterStage (stages : Array Nat) (entry : Node × Nat) : Except Fault (Array Nat) := do
  let stage ← m.stageOf p stages entry.1
  writeAt stages entry.2 stage

/-- The plan of a program. -/
def plan : Except Fault Plan := do
  let needed ← neededFor p p.result
  let stages ← p.nodes.zipIdx.foldlM (m.enterStage p) (Array.replicate p.size 0)
  .ok ⟨needed, stages, p.order⟩

end StagedTangent.Machine
