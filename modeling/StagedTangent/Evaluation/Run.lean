import StagedTangent.Evaluation.Apply

/-!
# Running code

Calling a closure binds its arguments, computes its bindings in order and yields the result or the
closure of the next stage, which keeps all that is bound so far: what a stage has computed is not
computed again for another direction. The meaning of the operations is a parameter; everything here
holds for any function in its place.
-/

namespace StagedTangent

variable {α : Type}

/-- What an operation does to the values of its operands. -/
abbrev Interpretation (α : Type) := Op → List (Value α) → Except RunError (Value α)

namespace Env

/-- The value of a name. -/
def get (env : Env (Value α)) (s : Symbol) : Except RunError (Value α) :=
  match env.lookup s with
  | some value => .ok value
  | none => .error (.unboundName s)

/-- Bind parameters to as many values. -/
def bindParams (env : Env (Value α)) (params : List Param) (args : List (Value α)) :
    Env (Value α) :=
  (params.zip args).foldl (fun env entry => (entry.1.symbol, entry.2) :: env) env

/-- Compute a binding. -/
def bind (interpret : Interpretation α) (env : Env (Value α)) (b : Binding) :
    Except RunError (Env (Value α)) := do
  let operands ← b.args.mapM env.get
  let value ← interpret b.op operands
  .ok ((b.symbol, value) :: env)

end Env

/-- Run one stage: take its arguments and compute its bindings. -/
def Layer.run (interpret : Interpretation α) (layer : Layer) (env : Env (Value α))
    (args : List (Value α)) : Except RunError (Env (Value α)) :=
  if args.length = layer.params.length then
    layer.bindings.foldlM (Env.bind interpret) (env.bindParams layer.params args)
  else .error (.valueCount layer.stage layer.params.length args.length)

/-- Run the outermost stage of a scope. `run` is the number of this run, kept by a closure that it
makes. -/
def Scope.call (interpret : Interpretation α) (run : Nat) (scope : Scope) (env : Env (Value α))
    (args : List (Value α)) : Except RunError (Value α) := do
  let env ← scope.layer.run interpret env args
  match scope with
  | .innermost _ result => env.get result
  | .enclosing _ inner => .ok (.closure ⟨run, inner, env⟩)

/-- Call a closure with the arguments of its stage. -/
def Closure.call (interpret : Interpretation α) (run : Nat) (c : Closure (Value α))
    (args : List (Value α)) : Except RunError (Value α) :=
  c.scope.call interpret run c.env args

/-- Call a value with one argument. Only closures can be called. -/
def Value.call (interpret : Interpretation α) (run : Nat) (value arg : Value α) :
    Except RunError (Value α) :=
  match value with
  | .closure c => c.call interpret run [arg]
  | other => .error (.notAClosure other.kind)

namespace Code

/-- Run the outer closure of code on the base arguments. -/
def run (interpret : Interpretation α) (run : Nat) (code : Code) (args : List (Value α)) :
    Except RunError (Value α) :=
  code.root.call interpret run [] args

/-- Run code on the base arguments and the result on one direction per stage. -/
def runAlong (interpret : Interpretation α) (run : Nat) (code : Code)
    (args directions : List (Value α)) : Except RunError (Value α) := do
  let value ← code.run interpret run args
  directions.foldlM (Value.call interpret run) value

end Code

end StagedTangent
