import StagedTangent.Source.Diagnostic
import StagedTangent.Program.Recorder

/-!
# Recording a function as a program

The parameters of a function become the arguments of a program and its body is recorded from the
inside out, operands and arguments of calls from left to right. Names are resolved on the way: the
first thing that has no meaning ends the recording. The shift of `circshift` is no argument but
must be written as a whole number.
-/

namespace StagedTangent.Source

/-- Why a function has no program. -/
inductive RecordError where
  | unknownName (name : String) (span : Span)
  | notAFunction (name : String) (span : Span)
  | argumentCount (callee : String) (expected found : Nat) (span : Span)
  | notAShift (span : Span)
  | parameterless (name : String) (span : Span)
  | repeatedParameter (name : String) (span : Span)
  | illFormed (defect : Defect)
deriving DecidableEq, Repr

namespace RecordError

def message : RecordError → String
  | .unknownName name _ => s!"unknown variable '{name}'"
  | .notAFunction name _ => s!"unknown function '{name}'"
  | .argumentCount callee expected found _ =>
    s!"'{callee}' expects {expected} argument(s), got {found}"
  | .notAShift _ => "circshift amount must be an integer literal within isize range"
  | .parameterless name _ => s!"function '{name}' must take at least one parameter"
  | .repeatedParameter name _ => s!"parameter '{name}' is declared twice"
  | .illFormed defect => defect.message

/-- The characters that the error is about. -/
def span? : RecordError → Option Span
  | .unknownName _ span | .notAFunction _ span | .argumentCount _ _ _ span
  | .notAShift span | .parameterless _ span | .repeatedParameter _ span => some span
  | .illFormed _ => none

def diagnostic (source : String) (e : RecordError) : Diagnostic :=
  .ofSpan source e.message (e.span?.getD ⟨0, 0⟩)

end RecordError

/-- The functions that a body can call. -/
inductive Builtin where
  | circshift
  | dot
  /-- A function of one argument. -/
  | unary (op : Op)
deriving DecidableEq, Repr

namespace Builtin

def ofName? (name : String) : Option Builtin :=
  match name with
  | "circshift" => some .circshift
  | "dot" => some .dot
  | "sin" => some (.unary .sin)
  | "cos" => some (.unary .cos)
  | "exp" => some (.unary .exp)
  | "log" => some (.unary .log)
  | "sqrt" => some (.unary .sqrt)
  | "abs" => some (.unary .abs)
  | "sign" => some (.unary .sign)
  | "sum" => some (.unary .sum)
  | "zero_like" => some (.unary .zeroLike)
  | _ => none

def arity : Builtin → Nat
  | .circshift | .dot => 2
  | .unary _ => 1

end Builtin

/-- A step of recording: it may fail, and else gives a value and what has been recorded. -/
abbrev Recording := StateT Recorder (Except RecordError)

namespace Recording

/-- Record a call. -/
def call (op : Op) (operands : List Nat) : Recording Nat := fun r => .ok (r.call op operands)

def fail {α : Type} (e : RecordError) : Recording α := fun _ => .error e

end Recording

/-- Shifts are smaller than this bound in absolute value. -/
def shiftBound : Nat := Nat.pow 2 63

/-- The whole number that a numeral stands for, as an amount of a shift. -/
def shiftOfNumeral (value : Binary64) (span : Span) : Except RecordError Int :=
  match value.toInt? with
  | some n => if n.natAbs < shiftBound then .ok n else .error (.notAShift span)
  | none => .error (.notAShift span)

/-- The shift that an expression stands for: a numeral, or a numeral behind one minus sign. -/
def shiftOf : Expr → Except RecordError Int
  | .numeral value span => shiftOfNumeral value span
  | .negation (.numeral value span) _ => (shiftOfNumeral value span).map (fun n => -n)
  | .negation inner _ => .error (.notAShift inner.span)
  | e => .error (.notAShift e.span)

/-- The nodes of the parameters, by name. -/
abbrev Names := List (String × Nat)

/-- Record an expression and give the node of its value. -/
def Expr.record (names : Names) : Expr → Recording Nat
  | .numeral value _ => .call (.constant value) []
  | .ident name span =>
    match names.lookup name with
    | some node => pure node
    | none => .fail (.unknownName name span)
  | .negation inner _ => do
    let operand ← inner.record names
    .call .neg [operand]
  | .binary op left right _ => do
    let lhs ← left.record names
    let rhs ← right.record names
    .call op.op [lhs, rhs]
  | .element base place _ => do
    let vector ← base.record names
    .call (.index place) [vector]
  | .call callee args span =>
    match Builtin.ofName? callee, args with
    | some (.unary op), [arg] => do
      let operand ← arg.record names
      .call op [operand]
    | some .dot, [left, right] => do
      let lhs ← left.record names
      let rhs ← right.record names
      .call .dot [lhs, rhs]
    | some .circshift, [arg, shift] => do
      let vector ← arg.record names
      let amount ← shiftOf shift
      .call (.circshift amount) [vector]
    | some builtin, args => .fail (.argumentCount callee builtin.arity args.length span)
    | none, _ => .fail (.notAFunction callee span)

namespace Function

/-- The first parameter whose name an earlier one has. -/
def repeated? (params : List Param) : Option Param :=
  let entry? := params.zipIdx.find? fun entry =>
    (params.take entry.2).any (fun earlier => decide (earlier.name = entry.1.name))
  entry?.map (fun entry => entry.1)

/-- The parameters of a function with the nodes of a recorder's arguments. -/
def names (f : Function) (r : Recorder) : Names :=
  (f.params.map Param.name).zip r.arguments

/-- The program that a function stands for. -/
def toProgram (f : Function) : Except RecordError Program :=
  if f.params.isEmpty then .error (.parameterless f.name f.span)
  else
    match repeated? f.params with
    | some param => .error (.repeatedParameter param.name param.span)
    | none => do
      let start := Recorder.start f.params.length
      let (result, r) ← f.body.record (f.names start) start
      (r.close result).mapError .illFormed

end Function

end StagedTangent.Source
