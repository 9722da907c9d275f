import StagedTangent.Staging.Code
import StagedTangent.Staging.Plan
import StagedTangent.Program.WellFormed

/-!
# Laying a program out as code

The stages are laid out one after another. At each, the arguments of the stage become parameters
and the needed calls of the stage bindings, all in the order of recording; each gets the next
number as its name. Calls that the result does not need are left out, parameters never. So the
names of a program are the list of the nodes that have one, and the name of a node is its place in
that list.
-/

namespace StagedTangent

/-- The nodes that have a name already, in the order of their names. -/
abbrev Naming := Array Nat

namespace Naming

/-- The name of a node, if it has one. -/
def symbol? (named : Naming) (node : Nat) : Option Symbol :=
  (named.idxOf? node).map (fun place => ⟨place + 1⟩)

/-- The name that is given next. -/
def fresh (named : Naming) : Symbol := ⟨named.size + 1⟩

/-- The names of the operands of a node, or the first operand that has none. -/
def args (named : Naming) (stage node : Nat) (operands : List Nat) :
    Except Defect (List Symbol) :=
  operands.mapM fun operand =>
    match named.symbol? operand with
    | some symbol => .ok symbol
    | none => .error (.unnamedOperand node operand stage)

end Naming

namespace Program

/-- The arguments that become known at a stage, in the order of their positions. -/
def argumentsAt (p : Program) (stage : Nat) : List Nat :=
  (p.arguments.zipIdx.filter (fun entry => decide (p.stageOfArgument entry.2 = stage))).map
    (fun entry => entry.1)

/-- Name a list of arguments. -/
def layOutParams (named : Naming) : List Nat → List Param × Naming
  | [] => ([], named)
  | node :: rest =>
    let symbol := named.fresh
    let (params, final) := layOutParams (named.push node) rest
    (⟨symbol, node⟩ :: params, final)

/-- Name the calls among a list of nodes. -/
def layOutBindings (p : Program) (stage : Nat) (named : Naming) :
    List Nat → Except Defect (List Binding × Naming)
  | [] => .ok ([], named)
  | node :: rest =>
    match p.node? node with
    | some (.call op operands) => do
      let symbol := named.fresh
      let args ← named.args stage node operands
      let (bindings, final) ← layOutBindings p stage (named.push node) rest
      .ok (⟨symbol, node, op, args⟩ :: bindings, final)
    | _ => layOutBindings p stage named rest

/-- Lay one stage out. -/
def layOutLayer (p : Program) (s : Plan) (stage : Nat) (named : Naming) :
    Except Defect (Layer × Naming) := do
  let (params, named) := layOutParams named (p.argumentsAt stage)
  let (bindings, named) ← layOutBindings p stage named (s.neededAt stage)
  .ok (⟨stage, params, bindings⟩, named)

/-- Lay a stage and the `inner` ones after it out. -/
def layOutFrom (p : Program) (s : Plan) (stage : Nat) (named : Naming) (inner : Nat) :
    Except Defect (Scope × Naming) := do
  let (layer, named) ← layOutLayer p s stage named
  match inner with
  | 0 =>
    match named.symbol? p.result with
    | some result => .ok (.innermost layer result, named)
    | none => .error (.unnamedOperand p.result p.result stage)
  | inner + 1 =>
    let (scope, named) ← layOutFrom p s (stage + 1) named inner
    .ok (.enclosing layer scope, named)

/-- The code of a program: a closure over the base arguments and one closure per direction, even
where the result does not depend on it. -/
def toCode (p : Program) : Except Defect Code := do
  p.check
  let s := p.plan
  let (root, named) ← layOutFrom p s 0 #[] s.last
  .ok ⟨root, named.size⟩

end Program

end StagedTangent
