/-!
# Command line options

The words of a command line are taken from left to right. An option with a value takes it from
behind an equality sign or from the next word, which must not look like an option; what stands
behind a lone `--` is no option. An option is given once, but for `--along`. The first word that
asks for a screen decides: the words behind it are not read.
-/

namespace StagedTangent.CommandLine

/-- The options that have a value. -/
inductive Valued where
  | expr
  | order
  | parameter
  | atPoint
  | along
deriving DecidableEq, Repr

/-- The options that have none. -/
inductive Flag where
  | showProgram
  | showCode
  | checkOnly
deriving DecidableEq, Repr

/-- The texts about the program itself. -/
inductive Screen where
  | help
  | version
deriving DecidableEq, Repr

/-- What is given on a command line. -/
structure Options where
  /-- The file that holds the source text. -/
  file : Option String
  /-- The source text itself. -/
  expr : Option String
  order : Option Nat
  parameter : Option String
  /-- The arguments of the function. -/
  point : Option String
  /-- The directions, in order. -/
  along : List String
  showProgram : Bool
  showCode : Bool
  checkOnly : Bool
deriving DecidableEq, Repr

/-- What a command line asks for. -/
inductive Request where
  | run (options : Options)
  | screen (screen : Screen)
deriving DecidableEq, Repr

namespace Options

/-- Nothing is given. -/
def none : Options := ⟨.none, .none, .none, .none, .none, [], false, false, false⟩

/-- Set an option that may be given once. -/
def once {α : Type} (old : Option α) (new : α) : Option (Option α) :=
  if old.isSome then .none else some (some new)

/-- A natural number below `2 ^ 64`, perhaps behind a plus sign. -/
def natural? (s : String) : Option Nat :=
  let digits := match s.toList with
    | '+' :: rest => rest
    | cs => cs
  if digits.isEmpty ∨ ¬ digits.all Char.isDigit then .none
  else
    let n := digits.foldl (fun n c => 10 * n + (c.toNat - 48)) 0
    if n < Nat.pow 2 64 then some n else .none

/-- Give an option its value. -/
def setValue (o : Options) (name : Valued) (value : String) : Option Options :=
  match name with
  | .expr => (once o.expr value).map fun expr => { o with expr }
  | .order => do
    let n ← natural? value
    (once o.order n).map fun order => { o with order }
  | .parameter => (once o.parameter value).map fun parameter => { o with parameter }
  | .atPoint => (once o.point value).map fun point => { o with point }
  | .along => some { o with along := o.along ++ [value] }

/-- Give a flag. -/
def setFlag (o : Options) : Flag → Option Options
  | .showProgram => if o.showProgram then .none else some { o with showProgram := true }
  | .showCode => if o.showCode then .none else some { o with showCode := true }
  | .checkOnly => if o.checkOnly then .none else some { o with checkOnly := true }

/-- Name the file. -/
def setFile (o : Options) (file : String) : Option Options :=
  (once o.file file).map fun file => { o with file }

def valued? : String → Option Valued
  | "expr" => some .expr
  | "order" => some .order
  | "wrt" => some .parameter
  | "at" => some .atPoint
  | "along" => some .along
  | _ => .none

def flag? : String → Option Flag
  | "emit-ir" => some .showProgram
  | "emit-code" => some .showCode
  | "verify-only" => some .checkOnly
  | _ => .none

/-- The screen that a word asks for. Of a word with a single minus sign the first letter counts. -/
def screen? (word : String) : Option Screen :=
  match word.toList with
  | '-' :: 'h' :: _ => some .help
  | '-' :: 'V' :: _ => some .version
  | _ =>
    if word = "--help" then some .help
    else if word = "--version" then some .version
    else .none

/-- Whether a word looks like an option: it begins with a minus sign and does not end there. -/
def isOptionLike (word : String) : Bool :=
  match word.toList with
  | '-' :: _ :: _ => true
  | _ => false

/-- The name of a long option and the value behind its equality sign, if there is one. -/
def long? (word : String) : Option (String × Option String) :=
  match word.toList with
  | '-' :: '-' :: rest =>
    let name := rest.takeWhile (fun c => decide (c ≠ '='))
    let value := match rest.drop name.length with
      | [] => .none
      | _ :: value => some (String.ofList value)
    some (String.ofList name, value)
  | _ => .none

/-- What the words of a command line ask for, after the options in `o`. -/
def parseFrom (o : Options) : List String → Option Request
  | [] => some (.run o)
  | word :: rest =>
    if word = "--" then (rest.foldlM setFile o).map .run
    else
      match screen? word, long? word with
      | some screen, _ => some (.screen screen)
      | .none, .none =>
        if isOptionLike word then .none else (o.setFile word).bind (parseFrom · rest)
      | .none, some (name, value) =>
        match valued? name, flag? name, value, rest with
        | some v, _, some value, rest => (o.setValue v value).bind (parseFrom · rest)
        | some v, _, .none, value :: rest =>
          if isOptionLike value then .none else (o.setValue v value).bind (parseFrom · rest)
        | .none, some f, .none, rest => (o.setFlag f).bind (parseFrom · rest)
        | _, _, _, _ => .none

/-- What a command line asks for. A file and a source text exclude each other. -/
def parse (words : List String) : Option Request := do
  match ← none.parseFrom words with
  | .run o => if o.file.isSome && o.expr.isSome then .none else some (.run o)
  | .screen screen => some (.screen screen)

end Options

end StagedTangent.CommandLine
