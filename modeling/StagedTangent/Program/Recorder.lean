import StagedTangent.Program.WellFormed

/-!
# Recorders

A recorder holds the nodes that a program has already and those recorded behind them since. It only
ever appends: a reference, once given out, names the same node in every later state and in the
finished program. Closing it packs the new nodes into one segment and checks the whole program.
-/

namespace StagedTangent

/-- A program under construction. -/
structure Recorder where
  /-- The nodes that were there when recording began. -/
  settled : Tape
  /-- The nodes recorded since. -/
  fresh : Array Node
  arguments : List Nat
  baseArity : Nat
deriving DecidableEq, Repr

namespace Recorder

/-- Every node, in the order of recording. -/
def nodes (r : Recorder) : List Node := r.settled.nodes ++ r.fresh.toList

/-- The number of nodes; the next node recorded gets it as its reference. -/
def size (r : Recorder) : Nat := r.settled.size + r.fresh.size

/-- The node that a reference names. -/
def node? (r : Recorder) (node : Nat) : Option Node :=
  if node < r.settled.size then r.settled.get? node else r.fresh[node - r.settled.size]?

/-- Append a node. -/
def push (r : Recorder) (node : Node) : Recorder := { r with fresh := r.fresh.push node }

/-- Record the next argument. -/
def pushArgument (r : Recorder) : Nat × Recorder :=
  (r.size, { r.push (.argument r.arguments.length) with arguments := r.arguments ++ [r.size] })

/-- Record an operation applied to nodes. -/
def call (r : Recorder) (op : Op) (operands : List Nat) : Nat × Recorder :=
  (r.size, r.push (.call op operands))

/-- Record as many further arguments as asked for. -/
def pushArguments (r : Recorder) : Nat → Recorder
  | 0 => r
  | n + 1 => (r.pushArgument.2).pushArguments n

/-- A recorder whose first nodes are the arguments of a function of the given arity. -/
def start (arity : Nat) : Recorder :=
  (Recorder.mk .empty #[] [] arity).pushArguments arity

/-- Continue after the last node of a program. -/
def resume (p : Program) : Recorder := ⟨p.tape, #[], p.arguments, p.baseArity⟩

/-- The program recorded so far, with nothing checked. -/
def toProgram (r : Recorder) (result : Nat) : Program :=
  ⟨r.settled.append r.fresh, r.arguments, result, r.baseArity⟩

/-- The finished program, if it is well formed. -/
def close (r : Recorder) (result : Nat) : Except Defect Program := do
  let p := r.toProgram result
  p.check
  return p

theorem size_eq_length (r : Recorder) : r.size = r.nodes.length := by
  simp [size, nodes, Tape.size_eq_length]

theorem node?_eq (r : Recorder) (node : Nat) : r.node? node = r.nodes[node]? := by
  simp only [node?, nodes, Tape.size_eq_length, Tape.get?_eq]
  split
  · rw [List.getElem?_append_left (by assumption)]
  · rw [List.getElem?_append_right (by omega), Array.getElem?_toList]

@[simp] theorem nodes_push (r : Recorder) (node : Node) :
    (r.push node).nodes = r.nodes ++ [node] := by
  simp [nodes, push]

@[simp] theorem nodes_call (r : Recorder) (op : Op) (operands : List Nat) :
    (r.call op operands).2.nodes = r.nodes ++ [.call op operands] := nodes_push r _

@[simp] theorem nodes_pushArgument (r : Recorder) :
    r.pushArgument.2.nodes = r.nodes ++ [.argument r.arguments.length] := by
  simp [pushArgument, nodes, push]

@[simp] theorem nodes_resume (p : Program) : (resume p).nodes = p.nodes := by
  simp [resume, nodes, Program.nodes]

@[simp] theorem nodes_toProgram (r : Recorder) (result : Nat) :
    (r.toProgram result).nodes = r.nodes := by
  simp [toProgram, nodes, Program.nodes]

end Recorder

end StagedTangent
