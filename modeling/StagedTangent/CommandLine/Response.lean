import StagedTangent.CommandLine.Options
import StagedTangent.Compilation
import StagedTangent.Evaluation.Run
import StagedTangent.Evaluation.Format
import StagedTangent.Json.Reading
import StagedTangent.Program.Inspection
import StagedTangent.Staging.Text

/-!
# What a command line is answered

A command line names a source text, which is compiled; then the program or the code are printed,
and the code is evaluated if a point is given. A command line may also ask for a screen about the
program itself. Everything but reading the file is a function of the options and the source text.
-/

namespace StagedTangent.CommandLine

/-- The answer to a command line. -/
structure Response where
  exit : Nat
  output : String
  errors : String
deriving DecidableEq, Repr

/-- Where the source text of a command line is. -/
inductive SourcePlace where
  | inline (source : String)
  | file (path : String)
  | missing
deriving DecidableEq, Repr

def Options.source (o : Options) : SourcePlace :=
  match o.expr, o.file with
  | some source, _ => .inline source
  | .none, some path => .file path
  | .none, .none => .missing

/-- Why code is not evaluated. -/
inductive EvaluationError where
  /-- The arguments are no JSON, or are no values. -/
  | invalidPoint (reason : String)
  /-- A direction is no JSON, or is no value. -/
  | invalidDirection (reason : String)
  | directionCount (expected found : Nat)
  | run (error : RunError)
  | value (error : ValueError)

def EvaluationError.message : EvaluationError → String
  | .invalidPoint reason => "invalid --at: " ++ reason
  | .invalidDirection reason => "invalid --along: " ++ reason
  | .directionCount expected found => s!"expected {expected} --along value(s), got {found}"
  | .run e => e.message
  | .value e => e.message

/-- The value of a JSON text, or what is wrong with it. -/
def readValue (s : String) : Except String (Value Float) := do
  let json ← (Json.parse s).mapError (Json.Mistake.message s)
  (Value.ofJson json).mapError ValueError.message

/-- The values of a JSON text that is an array, or what is wrong with it. -/
def readValues (s : String) : Except String (List (Value Float)) := do
  match ← (Json.parse s).mapError (Json.Mistake.message s) with
  | .array items => items.mapM fun item => (Value.ofJson item).mapError ValueError.message
  | _ => .error "expected a JSON array with one entry per parameter"

/-- Evaluate the code of a function at a point along directions, and report the value. -/
def evaluationReport (compiled : Compiled) (point : String) (along : List String) :
    Except EvaluationError Json := do
  let args ← (readValues point).mapError .invalidPoint
  let directions ← along.mapM fun s => (readValue s).mapError .invalidDirection
  let order := compiled.code.order
  if directions.length ≠ order then .error (.directionCount order directions.length)
  else
    let value ← (compiled.code.runAlong Value.apply 0 args directions).mapError .run
    let json ← value.toJson.mapError .value
    .ok (.object [("function", .text compiled.function.name), ("order", .int order),
      ("value", json)])

/-- What is printed of the program itself. Like all of the library it is run on a machine that breaks
off at a number that is not a word. -/
def programText (o : Options) (compiled : Compiled) : Except Fault String :=
  if o.showProgram then do
    let text ← Machine.checked.text compiled.program
    .ok (text ++ "\n")
  else .ok ""

/-- The answer if a fault breaks the program off. -/
def brokenOff (fault : Fault) : Response := ⟨101, "", fault.message ++ "\n"⟩

/-- The answer for a source text. -/
def respondTo (o : Options) (source : String) : Response :=
  match compile source ⟨o.order.getD 0, o.parameter⟩ with
  | .error (.fault e) => brokenOff e
  | .error e => ⟨1, "", (e.diagnostic source).render source ++ "\n"⟩
  | .ok compiled =>
    if o.checkOnly then ⟨0, "", ""⟩
    else
      match programText o compiled with
      | .error e => brokenOff e
      | .ok program =>
        let showCode := o.showCode || (!o.showProgram && o.point.isNone)
        let code := if showCode then compiled.code.text else ""
        match o.point with
        | .none => ⟨0, program ++ code, ""⟩
        | some point =>
          match evaluationReport compiled point o.along with
          | .ok report => ⟨0, program ++ code ++ report.write ++ "\n", ""⟩
          | .error e => ⟨1, program ++ code, "error[eval]: " ++ e.message ++ "\n"⟩

/-- Why a file cannot be read. -/
inductive FileError where
  | missing
  | denied
  | notADirectory
  | isADirectory
  | nameTooLong
  /-- The bytes of the file are no text. -/
  | notText
  /-- Another reason of the operating system, with its number. -/
  | other (code : Nat) (reason : String)
deriving DecidableEq, Repr

def FileError.message : FileError → String
  | .missing => "No such file or directory (os error 2)"
  | .denied => "Permission denied (os error 13)"
  | .notADirectory => "Not a directory (os error 20)"
  | .isADirectory => "Is a directory (os error 21)"
  | .nameTooLong => "File name too long (os error 36)"
  | .notText => "stream did not contain valid UTF-8"
  | .other code reason => s!"{reason} (os error {code})"

/-- The answer when a file cannot be read. -/
def unreadable (path : String) (e : FileError) : Response :=
  ⟨1, "", s!"failed to read {path}: {e.message}\n"⟩

/-- The answer when no source text is named. -/
def noSource : Response := ⟨1, "", "error[cli]: expected an input file or --expr\n"⟩

/-- The lines of a screen. -/
def Screen.lines : Screen → List String
  | .version => ["frechetc 0.1.0"]
  | .help => [
    "Differentiate a function and emit it as nested closures",
    "",
    "Usage: frechetc [OPTIONS] [FILE]",
    "",
    "Arguments:",
    "  [FILE]  File containing a function such as `fn f(x) = x * sin(x)`",
    "",
    "Options:",
    "      --expr <SRC>     Function source given inline instead of a file",
    "      --order <ORDER>  Number of times to differentiate [default: 0]",
    "      --wrt <NAME>     Parameter to differentiate with respect to (defaults to the first)",
    "      --emit-ir        Print the IR of the final program",
    "      --emit-code      Print the emitted nested closures",
    "      --at <JSON>      JSON array with one value per parameter, e.g. `[2.0, [1, 2, 3]]`",
    "      --along <JSON>   JSON value of a tangent direction; repeat once per order",
    "      --verify-only    Only check that the pipeline succeeds",
    "  -h, --help           Print help",
    "  -V, --version        Print version"]

/-- The answer to a command line that asks for a screen. -/
def screenResponse (screen : Screen) : Response :=
  ⟨0, String.join (screen.lines.map (· ++ "\n")), ""⟩

/-- The answer to a command line that makes no sense. -/
def misuse : Response :=
  ⟨2, "", "error: the command line is not understood\n"⟩

end StagedTangent.CommandLine
