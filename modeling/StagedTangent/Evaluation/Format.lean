import StagedTangent.Evaluation.Value
import StagedTangent.Json.Writing

/-!
# Values as text and as JSON

Scalars and vectors have a JSON form, a number or an array of numbers, and are read from it.
Closures have none.
-/

namespace StagedTangent

/-- Why a value has no JSON form, or a JSON text no value. -/
inductive ValueError where
  | noJsonForm
  /-- The item that is not a number. -/
  | notAValue (item : Json)

def ValueError.message : ValueError → String
  | .noJsonForm => "closures cannot be converted to JSON"
  | .notAValue item => "invalid JSON value: " ++ item.write

/-- In the text of a value numbers have no exponent, however long they get, and whole numbers no
point; of two equally near digits the larger is taken. -/
def valueLayout : Layout :=
  { tie := .up, positionalFrom := none, positionalTo := none, wholePoint := false,
    plusSign := false }

/-- A closure as a listing shows it. -/
def Closure.listing {V : Type} (c : Closure V) : String := s!"Closure(stage {c.stage})"

namespace Value

/-- The text of a number. -/
def scalarText (x : Float) : String := valueLayout.write (.ofFloat x)

/-- The text of a value. -/
def text : Value Float → String
  | .scalar x => scalarText x
  | .vector xs => "[" ++ ", ".intercalate (xs.map scalarText) ++ "]"
  | .closure c => s!"<closure stage {c.stage}>"

/-- The number that a JSON item stands for. -/
def scalarOfJson (item : Json) : Except ValueError Float :=
  match item.toNumber? with
  | some x => .ok x.toFloat
  | none => .error (.notAValue item)

/-- The value that a JSON value stands for: a number, or an array of numbers. -/
def ofJson : Json → Except ValueError (Value Float)
  | .array items => (items.mapM scalarOfJson).map .vector
  | item => (scalarOfJson item).map .scalar

/-- The JSON form of a value. -/
def toJson : Value Float → Except ValueError Json
  | .scalar x => .ok (.ofNumber (.ofFloat x))
  | .vector xs => .ok (.array (xs.map (fun x => .ofNumber (.ofFloat x))))
  | .closure _ => .error .noJsonForm

end Value

end StagedTangent
