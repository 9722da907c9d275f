import StagedTangent.Program.Recorder

/-!
# Recording with placeholders

A function can be recorded by computing with placeholders in the place of numbers: each stands for
a node of one recording, and every operation on placeholders records a call. A number among the
operands is recorded as a constant just before the call. Placeholders of different recordings cannot
be combined. The computation is kept as the list of its steps, each of which gives a placeholder
that later steps name by its place: first the arguments, then one for each step.
-/

namespace StagedTangent

/-- A node of the recording with a given number. The function's own recording has number zero. -/
structure Placeholder where
  recording : Nat
  node : Nat
deriving DecidableEq, Repr

namespace Placeholder

/-- The placeholder as a listing shows it. -/
def listing (p : Placeholder) : String := "Traced(" ++ referenceText p.node ++ ")"

end Placeholder

/-- What a placeholder can be asked for by itself. -/
inductive Method where
  | neg
  | sin
  | cos
  | exp
  /-- The natural logarithm. -/
  | ln
  | sqrt
  | abs
  | sign
  | sum
  | zeroLike
  | index (place : Nat)
  | circshift (shift : Int)
deriving DecidableEq, Repr

namespace Method

/-- The operation that a method records. -/
def op : Method → Op
  | .neg => .neg
  | .sin => .sin
  | .cos => .cos
  | .exp => .exp
  | .ln => .log
  | .sqrt => .sqrt
  | .abs => .abs
  | .sign => .sign
  | .sum => .sum
  | .zeroLike => .zeroLike
  | .index place => .index place
  | .circshift shift => .circshift shift

theorem arity_op (m : Method) : m.op.arity = 1 := by
  cases m <;> rfl

end Method

/-- One step of a computation with placeholders. -/
inductive TraceStep where
  /-- Any operation applied to placeholders, of which there is one at least. -/
  | apply (op : Op) (first : Nat) (rest : List Nat)
  /-- An operator with placeholders on both sides. -/
  | between (operator : Operator) (left right : Nat)
  /-- An operator with a number before it and a placeholder behind it. -/
  | numberBefore (operator : Operator) (number : Binary64) (place : Nat)
  /-- An operator with a placeholder before it and a number behind it. -/
  | numberBehind (operator : Operator) (place : Nat) (number : Binary64)
  | dot (left right : Nat)
  | method (method : Method) (place : Nat)
  /-- A constant of the recording that a placeholder belongs to. -/
  | constant (place : Nat) (value : Binary64)
  /-- The argument of another recording that is finished already. What is recorded through it goes
  to a recording of its own, which is empty at first. -/
  | foreign
  /-- The computation gives up. -/
  | fail (reason : String)
deriving DecidableEq, Repr

/-- Why a computation with placeholders has no program. -/
inductive TraceError where
  /-- Placeholders of different recordings among the operands of one operation. -/
  | mixed
  /-- A result that belongs to another recording. -/
  | foreignResult
  /-- A place that has no placeholder. -/
  | missing (place : Nat)
  | failed (reason : String)
  | illFormed (defect : Defect)
deriving DecidableEq, Repr

def TraceError.message : TraceError → String
  | .mixed => "placeholders from different recordings cannot be combined"
  | .foreignResult => "the recorded function returned a placeholder from another recording"
  | .missing place => s!"there is no placeholder {place}"
  | .failed reason => reason
  | .illFormed defect => defect.message

/-- The recordings in progress, by number, and the placeholders so far. -/
structure Trace where
  recorders : List Recorder
  placeholders : List Placeholder
deriving DecidableEq, Repr

namespace Trace

/-- The placeholders of the arguments, before any step. -/
def start (arity : Nat) : Trace :=
  let r := Recorder.start arity
  ⟨[r], r.arguments.map (fun node => ⟨0, node⟩)⟩

/-- The placeholder at a place. -/
def get (t : Trace) (place : Nat) : Except TraceError Placeholder :=
  match t.placeholders[place]? with
  | some p => .ok p
  | none => .error (.missing place)

/-- Record a call in one of the recordings. -/
def record (t : Trace) (recording : Nat) (op : Op) (operands : List Nat) : Nat × Trace :=
  let (node, r) := (t.recorders.getD recording (Recorder.start 0)).call op operands
  (node, { t with recorders := t.recorders.set recording r })

/-- Add a placeholder. -/
def add (t : Trace) (p : Placeholder) : Trace := { t with placeholders := t.placeholders ++ [p] }

/-- Record a call and add the placeholder of its result. -/
def addCall (t : Trace) (recording : Nat) (op : Op) (operands : List Nat) : Trace :=
  let (node, t) := t.record recording op operands
  t.add ⟨recording, node⟩

/-- The node of a placeholder, which must belong to a given recording. -/
def nodeIn (recording : Nat) (p : Placeholder) : Except TraceError Nat :=
  if p.recording = recording then .ok p.node else .error .mixed

/-- Record an operation applied to the placeholders at some places, which must all be of the
recording of the first. -/
def applyTo (t : Trace) (op : Op) (first : Nat) (rest : List Nat) : Except TraceError Trace := do
  let p ← t.get first
  let others ← rest.mapM t.get
  let nodes ← others.mapM (nodeIn p.recording)
  .ok (t.addCall p.recording op (p.node :: nodes))

/-- Carry one step out. -/
def step (t : Trace) : TraceStep → Except TraceError Trace
  | .apply op first rest => t.applyTo op first rest
  | .between operator left right => t.applyTo operator.op left [right]
  | .dot left right => t.applyTo .dot left [right]
  | .method m place => t.applyTo m.op place []
  | .numberBefore operator number place => do
    let p ← t.get place
    let (constant, t) := t.record p.recording (.constant number) []
    .ok (t.addCall p.recording operator.op [constant, p.node])
  | .numberBehind operator place number => do
    let p ← t.get place
    let (constant, t) := t.record p.recording (.constant number) []
    .ok (t.addCall p.recording operator.op [p.node, constant])
  | .constant place value => do
    let p ← t.get place
    .ok (t.addCall p.recording (.constant value) [])
  | .foreign =>
    .ok ({ t with recorders := t.recorders ++ [Recorder.start 0] }.add ⟨t.recorders.length, 0⟩)
  | .fail reason => .error (.failed reason)

/-- Carry steps out until one fails. -/
def steps (t : Trace) : List TraceStep → Trace × Option TraceError
  | [] => (t, none)
  | s :: rest =>
    match t.step s with
    | .ok t => t.steps rest
    | .error e => (t, some e)

/-- The program of the function whose result is the placeholder at a place. -/
def close (t : Trace) (result : Nat) : Except TraceError Program := do
  let p ← t.get result
  if p.recording = 0 then
    ((t.recorders.getD 0 (.start 0)).close p.node).mapError .illFormed
  else .error .foreignResult

/-- Record a function as a program, from the steps that it takes on the placeholders of its arguments
and the place of its result. -/
def tryRecord (arity : Nat) (steps : List TraceStep) (result : Nat) : Except TraceError Program :=
  match (start arity).steps steps with
  | (t, none) => t.close result
  | (_, some e) => .error e

end Trace

end StagedTangent
