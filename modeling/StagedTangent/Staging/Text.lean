import StagedTangent.Staging.Code
import StagedTangent.Op.Text

/-!
# The text of code

Closures are shown with their parameters between bars, one binding per line, each stage indented by
four spaces more than the one around it.
-/

namespace StagedTangent

/-- Names separated by commas. -/
def Symbol.listText (symbols : List Symbol) : String :=
  ", ".intercalate (symbols.map Symbol.text)

/-- The space before a line at a depth. -/
def indentation (depth : Nat) : String := String.ofList (List.replicate (4 * depth) ' ')

/-- The line of a binding. -/
def Binding.line (depth : Nat) (b : Binding) : String :=
  indentation depth ++ "let " ++ b.symbol.text ++ " = " ++ b.op.text ++ "(" ++
    Symbol.listText b.args ++ ");\n"

/-- The line that opens a closure, and the lines of its bindings. -/
def Layer.text (depth : Nat) (layer : Layer) : String :=
  "|" ++ Symbol.listText (layer.params.map Param.symbol) ++ "| \x7b\n" ++
    String.join (layer.bindings.map (Binding.line (depth + 1)))

/-- A closure from its bars to its closing brace, where `depth` closures stand around it. -/
def Scope.text (depth : Nat) : Scope → String
  | .innermost layer result =>
    layer.text depth ++ indentation (depth + 1) ++ result.text ++ "\n" ++
      indentation depth ++ "\x7d"
  | .enclosing layer inner =>
    layer.text depth ++ indentation (depth + 1) ++ "move " ++ inner.text (depth + 1) ++ "\n" ++
      indentation depth ++ "\x7d"

/-- The text of code. -/
def Code.text (code : Code) : String := code.root.text 0 ++ "\n"

end StagedTangent
