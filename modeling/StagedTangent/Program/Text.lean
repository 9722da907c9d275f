import StagedTangent.Program.Basic
import StagedTangent.Op.Text

/-!
# The text of a program

One line per node, between a line that lists the arguments and lines for the result and the order.
The text of a well-formed program determines it, up to the pattern of a NaN.
-/

namespace StagedTangent

/-- References separated by commas. -/
def referenceListText (nodes : List Nat) : String :=
  ", ".intercalate (nodes.map referenceText)

/-- What an argument node is, on the right of the equality sign of its line. -/
def argumentText (position stage : Nat) : String := s!"arg {position} stage={stage}"

/-- What a call is, on the right of the equality sign of its line. -/
def callText (op : Op) : List Nat → String
  | [] => op.text
  | operands => op.text ++ " " ++ referenceListText operands

/-- The line of the node at a place. -/
def nodeLine (place : Nat) (nodeText : String) : String :=
  "  " ++ referenceText place ++ " = " ++ nodeText ++ "\n"

namespace Program

/-- What a node is, on the right of the equality sign of its line. -/
def nodeText (p : Program) : Node → String
  | .argument position => argumentText position (p.stageOfArgument position)
  | .call op operands => callText op operands

/-- The text around the lines of the nodes. -/
def frame (p : Program) (lines : List String) : String :=
  "program(" ++ referenceListText p.arguments ++ ") \x7b\n" ++
    String.join lines ++
    "  return " ++ referenceText p.result ++ "\n" ++
    "\x7d  // order = " ++ toString p.order ++ "\n"

/-- The text of a program. -/
def text (p : Program) : String :=
  p.frame (p.nodes.zipIdx.map fun (node, place) => nodeLine place (p.nodeText node))

end Program

end StagedTangent
