import StagedTangent.Program.Basic

/-!
# Well-formed programs

In a well-formed program every call has as many operands as its operation takes, each recorded
before the call; the argument list names exactly the argument nodes, each at its position; the base
arity does not exceed the number of arguments; and the result is on the tape. `Program.defect?`
finds the first of these that fails: the base arity, then the argument list by position, then the
nodes by place (in a call the operand count before the operands), then the result.
-/

namespace StagedTangent

/-- How a program fails to be well formed. -/
inductive Defect where
  /-- An operand that is not on the tape. -/
  | danglingOperand (node operand : Nat)
  /-- An operand that is the node itself or a later one. -/
  | laterOperand (node operand : Nat)
  /-- A number of operands that the operation does not take. -/
  | operandCount (node : Nat) (op : Opcode) (expected found : Nat)
  /-- A result that is not on the tape. -/
  | danglingResult (result : Nat) (size : Nat)
  /-- An entry of the argument list that is not the argument of its position. -/
  | misplacedArgument (position : Nat) (node : Nat)
  /-- An argument node that the argument list does not name. -/
  | strayArgument (node : Nat)
  /-- More base arguments than arguments. -/
  | missingBaseArguments (baseArity arguments : Nat)
  /-- An operand without a name at the place where code for its node is laid out. -/
  | unnamedOperand (node operand : Nat) (stage : Nat)
deriving DecidableEq, Repr

def Defect.message : Defect → String
  | .danglingOperand node operand =>
    s!"node {referenceText node} uses {referenceText operand}, which is outside the arena"
  | .laterOperand node operand =>
    s!"node {referenceText node} uses {referenceText operand}, which is not defined before it"
  | .operandCount node op expected found =>
    s!"node {referenceText node} applies {op.name} to {found} operands, expected {expected}"
  | .danglingResult result size =>
    s!"return value {referenceText result} is outside the arena of {size} nodes"
  | .misplacedArgument position node =>
    s!"argument {position} refers to {referenceText node}, which is not argument {position}"
  | .strayArgument node =>
    s!"argument node {referenceText node} is not listed as a program argument"
  | .missingBaseArguments baseArity arguments =>
    s!"base arity {baseArity} exceeds the {arguments} recorded arguments"
  | .unnamedOperand node operand stage =>
    s!"node {referenceText node} at stage {stage} uses {referenceText operand}, " ++
      "which is not in scope"

namespace Program

/-- What is wrong with the base arity. -/
def arityDefect? (p : Program) : Option Defect :=
  if p.arguments.length < p.baseArity then
    some (.missingBaseArguments p.baseArity p.arguments.length)
  else none

/-- What is wrong with the entry of the argument list at a position. -/
def entryDefect? (p : Program) (entry : Nat × Nat) : Option Defect :=
  if p.node? entry.1 = some (.argument entry.2) then none
  else some (.misplacedArgument entry.2 entry.1)

/-- What is wrong with an operand of a node on a tape of a given size. -/
def operandDefect? (size : Nat) (node operand : Nat) : Option Defect :=
  if size ≤ operand then some (.danglingOperand node operand)
  else if node ≤ operand then some (.laterOperand node operand)
  else none

/-- What is wrong with the node at a place. -/
def nodeDefect? (p : Program) (entry : Node × Nat) : Option Defect :=
  match entry.1 with
  | .argument position =>
    if p.arguments[position]? = some entry.2 then none else some (.strayArgument entry.2)
  | .call op operands =>
    if operands.length ≠ op.arity then
      some (.operandCount entry.2 op.opcode op.arity operands.length)
    else operands.findSome? (operandDefect? p.size entry.2)

/-- What is wrong with the result. -/
def resultDefect? (p : Program) : Option Defect :=
  if p.size ≤ p.result then some (.danglingResult p.result p.size) else none

/-- The first thing that is wrong with a program. -/
def defect? (p : Program) : Option Defect :=
  (p.arityDefect?).or <|
    (p.arguments.zipIdx.findSome? p.entryDefect?).or <|
      (p.nodes.zipIdx.findSome? p.nodeDefect?).or p.resultDefect?

/-- Nothing is wrong with the program. -/
def WellFormed (p : Program) : Prop := p.defect? = none

instance (p : Program) : Decidable p.WellFormed := inferInstanceAs (Decidable (_ = none))

/-- Fail with the first thing that is wrong. -/
def check (p : Program) : Except Defect Unit :=
  match p.defect? with
  | some defect => .error defect
  | none => .ok ()

theorem check_eq_ok_iff (p : Program) : p.check = .ok () ↔ p.WellFormed := by
  unfold check WellFormed
  split <;> simp_all

end Program

end StagedTangent
