import StagedTangent.Derivative.RuleTable
import StagedTangent.Machine
import StagedTangent.Program.Reach

/-!
# Directional derivatives

Differentiating a program extends it by a new argument, the direction, and by the nodes that
compute the derivative of the result along it. One pass over the tape gives a tangent to every node
that depends on the chosen argument and is needed for the result; a node without a tangent does not
change with that argument. The derivative is a program again and can be differentiated further. Where
a whole chain of derivatives is asked for, the block that holds them is asked for before the first.
-/

namespace StagedTangent

/-- Why there is no chain of derivatives. -/
inductive ChainError where
  /-- The chain breaks off before anything is differentiated. -/
  | fault (fault : Fault)
  /-- One of the programs has no derivative. -/
  | derivative (error : DerivativeError)
deriving DecidableEq, Repr

namespace Program

/-- The state of the pass: what has been recorded, and the tangents of the nodes passed so far. -/
structure TangentPass where
  recorder : Recorder
  tangents : Array (Option Nat)

/-- Add what one operand contributes to the tangent of a call. The operand comes with its place in
the operand list; without a tangent it contributes nothing and needs no rule. -/
def addContribution (rules : RuleTable) (op : Op) (operands : List Nat)
    (tangents : Array (Option Nat)) (total : Option Nat × Recorder) (operand : Nat × Nat) :
    Except DerivativeError (Option Nat × Recorder) :=
  match tangents.getD operand.1 none with
  | none => .ok total
  | some tangent => do
    let rule ← rules.get op.opcode (operand.2 + 1)
    let (map, recorder) := (rule op operands).run total.2
    let (contribution, recorder) := (map.apply tangent).run recorder
    match total.1 with
    | none => .ok (some contribution, recorder)
    | some sum =>
      let (sum, recorder) := recorder.call .add [sum, contribution]
      .ok (some sum, recorder)

/-- The tangent of a call: the sum of what its operands contribute, from left to right. -/
def callTangent (rules : RuleTable) (op : Op) (operands : List Nat) (pass : TangentPass) :
    Except DerivativeError (Option Nat × Recorder) :=
  operands.zipIdx.foldlM (addContribution rules op operands pass.tangents) (none, pass.recorder)

/-- Pass one node. `relevant` says of each place whether its node depends on the argument and is
needed for the result; the argument itself has its tangent from the start. -/
def passNode (rules : RuleTable) (argument direction : Nat) (relevant : Nat → Bool)
    (pass : TangentPass) (node : Node) : Except DerivativeError TangentPass :=
  let place := pass.tangents.size
  if place = argument then
    .ok { pass with tangents := pass.tangents.push (some direction) }
  else
    match node, relevant place with
    | .call op operands, true => do
      let (tangent, recorder) ← callTangent rules op operands pass
      .ok ⟨recorder, pass.tangents.push tangent⟩
    | _, _ => .ok { pass with tangents := pass.tangents.push none }

/-- Record the derivative of a well-formed program with respect to the argument at a node. A result
that does not depend on it has zeros for its derivative. -/
def recordDerivative (rules : RuleTable) (p : Program) (argument : Nat) :
    Except DerivativeError (Nat × Recorder) := do
  let reached := p.reachedFrom argument
  let needed := p.neededFor p.result
  let relevant := fun place => reached.getD place false && needed.getD place false
  let (direction, recorder) := (Recorder.resume p).pushArgument
  let pass ← p.nodes.foldlM (passNode rules argument direction relevant) ⟨recorder, #[]⟩
  match pass.tangents.getD p.result none with
  | some tangent => .ok (tangent, pass.recorder)
  | none => .ok (pass.recorder.call .zeroLike [p.result])

/-- The derivative of a program with respect to the argument at a position, by given rules. -/
def derivativeBy (rules : RuleTable) (p : Program) (position : Nat) :
    Except DerivativeError Program := do
  p.check.mapError .illFormed
  match p.arguments[position]? with
  | none => .error (.noArgument position p.arguments.length)
  | some argument =>
    let (result, recorder) ← recordDerivative rules p argument
    (recorder.close result).mapError .illFormed

/-- The derivative of a program with respect to the argument at a position, by the standard
rules. -/
def derivative (p : Program) (position : Nat) : Except DerivativeError Program :=
  p.derivativeBy .standard position

/-- Differentiate as often as asked for with respect to one argument. -/
def chain (p : Program) (position : Nat) (order : Nat) : Except DerivativeError (List Program) :=
  match order with
  | 0 => .ok []
  | order + 1 => do
    let derivative ← p.derivative position
    let rest ← derivative.chain position order
    .ok (derivative :: rest)

/-- The bytes of the record of a program, which are nine words: three for each of the lists of its
segments and of its arguments, and one each for its size, its result and its base arity. -/
def bytes : Nat := 9 * 8

/-- The derivatives of the orders one to `order` with respect to one argument, in one block. -/
def derivatives (p : Program) (position : Nat) (order : Nat) : Except ChainError (List Program) := do
  (reserve order bytes).mapError .fault
  (p.chain position order).mapError .derivative

variable {p : Program} {position order : Nat}

theorem derivatives_eq_chain (h : order * bytes < blockBound) :
    p.derivatives position order = (p.chain position order).mapError .derivative := by
  rw [derivatives, reserve, if_pos h]
  rfl

theorem derivatives_eq_fault (h : blockBound ≤ order * bytes) :
    p.derivatives position order = .error (.fault (.capacity order bytes)) := by
  rw [derivatives, reserve, if_neg (Nat.not_lt.2 h)]
  rfl

end Program

end StagedTangent
