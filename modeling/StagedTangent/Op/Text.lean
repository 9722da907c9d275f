import StagedTangent.Op.Basic
import StagedTangent.Number.Layout

/-!
# The text of an operation

Static parameters stand in brackets after the name. Constants are written so that the text tells
every two numbers apart, except for NaNs.
-/

namespace StagedTangent

/-- Constants are written without an exponent from a ten-thousandth up to sixteen digits; whole
ones end in `.0`, and of two equally near digits the larger is taken. -/
def constantLayout : Layout :=
  { tie := .up, positionalFrom := some (-4), positionalTo := some 15, wholePoint := true,
    plusSign := false }

namespace Op

/-- The static parameter of an operation, if it has one. -/
def parameter? : Op → Option String
  | .constant value => some (constantLayout.write value)
  | .index place => some (toString place)
  | .circshift shift => some (toString shift)
  | _ => none

/-- The operation as programs and code show it. -/
def text (op : Op) : String :=
  match op.parameter? with
  | some p => op.opcode.name ++ "[" ++ p ++ "]"
  | none => op.opcode.name

/-- The operation as a structural listing shows it. -/
def listing (op : Op) : String :=
  match op.parameter? with
  | some p => op.opcode.label ++ "(" ++ p ++ ")"
  | none => op.opcode.label

end Op

end StagedTangent
