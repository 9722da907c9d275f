import StagedTangent.Json.Basic
import StagedTangent.Number.Layout

/-!
# Writing JSON

The compact form, without spaces. Strings escape the quote, the backslash and the controls below
the space; every other character stands for itself.
-/

namespace StagedTangent.Json

/-- Numbers are written without an exponent when their leading digit stands between the fifth
place after the point and the sixteenth before it; a positive exponent has a sign, a whole number
a point, and of two equally near digits the even one is taken. -/
def numberLayout : Layout :=
  { tie := .even, positionalFrom := some (-5), positionalTo := some 15, wholePoint := true,
    plusSign := true }

/-- A control character without an escape of its own: four digits in base sixteen. -/
def controlEscape (c : Char) : String :=
  let digits := Nat.toDigits 16 c.toNat
  "\\u" ++ String.ofList (List.replicate (4 - digits.length) '0' ++ digits)

/-- A character as it stands in a string. -/
def writeChar (c : Char) : String :=
  if c = '\x22' then "\\\""
  else if c = '\\' then "\\\\"
  else if c = '\x08' then "\\b"
  else if c = '\x0c' then "\\f"
  else if c = '\n' then "\\n"
  else if c = '\r' then "\\r"
  else if c = '\t' then "\\t"
  else if c.toNat < 0x20 then controlEscape c
  else String.singleton c

/-- A string between quotes. -/
def writeText (s : String) : String :=
  "\"" ++ String.join (s.toList.map writeChar) ++ "\""

mutual

/-- The compact text of a value. -/
def write : Json → String
  | .null => "null"
  | .bool true => "true"
  | .bool false => "false"
  | .int n => toString n
  | .real x => numberLayout.write x
  | .text s => writeText s
  | .array items => "[" ++ ",".intercalate (writeItems items) ++ "]"
  | .object members => "\x7b" ++ ",".intercalate (writeMembers members) ++ "\x7d"

/-- The texts of the items of an array. -/
def writeItems : List Json → List String
  | [] => []
  | item :: rest => write item :: writeItems rest

/-- The texts of the members of an object. -/
def writeMembers : List (String × Json) → List String
  | [] => []
  | (name, value) :: rest => (writeText name ++ ":" ++ write value) :: writeMembers rest

end

end StagedTangent.Json
