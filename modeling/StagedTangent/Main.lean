import StagedTangent.CommandLine.Response

/-!
# The command line program

Reads the source text, answers the command line and leaves with the exit code of the answer.
-/

namespace StagedTangent.CommandLine

/-- The reason with this number of the operating system. The number is negative where the system
was not asked directly. -/
def FileError.ofCode (code : UInt32) (reason : String) : FileError :=
  let number := code.toInt32.toInt.natAbs
  match number with
  | 2 => .missing
  | 13 => .denied
  | 20 => .notADirectory
  | 21 => .isADirectory
  | 36 => .nameTooLong
  | _ => .other number reason

/-- The reason why reading a file failed. -/
def FileError.ofError : IO.Error → FileError
  | .alreadyExists _ code reason | .otherError code reason | .resourceBusy code reason
  | .resourceVanished code reason | .unsupportedOperation code reason
  | .hardwareFault code reason | .unsatisfiedConstraints code reason
  | .illegalOperation code reason | .protocolError code reason | .timeExpired code reason
  | .interrupted _ code reason | .noFileOrDirectory _ code reason
  | .invalidArgument _ code reason | .permissionDenied _ code reason
  | .resourceExhausted _ code reason | .inappropriateType _ code reason
  | .noSuchThing _ code reason => .ofCode code reason
  | .unexpectedEof | .userError _ => .notText

/-- Answer a command line, reading the file that it names. -/
def answer (words : List String) : IO Response := do
  match Options.parse words with
  | none => return misuse
  | some (.screen screen) => return screenResponse screen
  | some (.run o) =>
    match o.source with
    | .inline source => return respondTo o source
    | .missing => return noSource
    | .file path =>
      try
        let source ← IO.FS.readFile path
        return respondTo o source
      catch e => return unreadable path (.ofError e)

end StagedTangent.CommandLine

/-- Answer the command line on the standard streams. -/
def main (words : List String) : IO UInt32 := do
  let response ← StagedTangent.CommandLine.answer words
  (← IO.getStdout).putStr response.output
  (← IO.getStderr).putStr response.errors
  return UInt32.ofNat response.exit
