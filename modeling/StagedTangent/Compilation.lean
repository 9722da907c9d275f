import StagedTangent.Derivative.Directional
import StagedTangent.Staging.Placement
import StagedTangent.Source.Grammar
import StagedTangent.Source.Recording

/-!
# From source text to code

A source text is parsed and recorded as a program, the program is differentiated as often as asked
for with respect to one parameter, and the last derivative is laid out as code.
-/

namespace StagedTangent

/-- What to do with a function. -/
structure CompileOptions where
  /-- How often to differentiate. -/
  order : Nat
  /-- The parameter to differentiate with respect to; the first if none is named. -/
  parameter : Option String
deriving DecidableEq, Repr

/-- What a source text is compiled to. -/
structure Compiled where
  function : Source.Function
  /-- The program of the function itself. -/
  recorded : Program
  /-- The derivatives, of ascending order. -/
  derivatives : List Program
  /-- The code of the last derivative, or of the function if there is none. -/
  code : Code

namespace Compiled

/-- The program that the code was made from. -/
def program (c : Compiled) : Program := c.derivatives.getLastD c.recorded

end Compiled

/-- Why a source text is not compiled. -/
inductive CompileError where
  | parse (failure : Source.Failure)
  | record (error : Source.RecordError)
  | noSuchParameter (name : String)
  | derivative (error : DerivativeError)
  | placement (defect : Defect)
  /-- Compiling does not come to an end. -/
  | fault (fault : Fault)
deriving DecidableEq, Repr

namespace CompileError

def message : CompileError → String
  | .parse _ => "parse error"
  | .record e => e.message
  | .noSuchParameter name => s!"function has no parameter named '{name}'"
  | .derivative e => "autodiff failed: " ++ e.message
  | .placement defect => "emission failed: " ++ defect.message
  | .fault e => e.message

/-- Why there is no code if there is no chain of derivatives. -/
def ofChain : ChainError → CompileError
  | .fault e => .fault e
  | .derivative e => .derivative e

/-- The error as a diagnostic. Errors without a place in the source are shown at its beginning. -/
def diagnostic (source : String) : CompileError → Source.Diagnostic
  | .parse failure => .ofFailure source failure
  | .record e => e.diagnostic source
  | e => .ofSpan source e.message ⟨0, 0⟩

end CompileError

/-- The position of the parameter to differentiate with respect to. -/
def parameterPosition (f : Source.Function) : Option String → Except CompileError Nat
  | none => .ok 0
  | some name =>
    match f.params.findIdx? (fun param => decide (param.name = name)) with
    | some position => .ok position
    | none => .error (.noSuchParameter name)

/-- Compile a source text. -/
def compile (source : String) (options : CompileOptions) : Except CompileError Compiled := do
  let function ← (Source.parse source).mapError .parse
  let recorded ← function.toProgram.mapError .record
  let position ← parameterPosition function options.parameter
  let derivatives ← (recorded.derivatives position options.order).mapError .ofChain
  let code ← (derivatives.getLastD recorded).toCode.mapError .placement
  return ⟨function, recorded, derivatives, code⟩

end StagedTangent
