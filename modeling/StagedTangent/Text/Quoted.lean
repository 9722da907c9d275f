import StagedTangent.Text.Hidden

/-!
# Quoted characters

How a message quotes a single character: between double quotes, and escaped where it would break
the quotation or would not be recognised.
-/

namespace StagedTangent.Text

/-- The digits of a code point in base sixteen. -/
def hexadecimal (n : Nat) : String := String.ofList (Nat.toDigits 16 n)

/-- A character as it stands between double quotes. -/
def escaped (c : Char) : String :=
  if c = '\t' then "\\t"
  else if c = '\n' then "\\n"
  else if c = '\r' then "\\r"
  else if c = '\x00' then "\\0"
  else if c = '\x22' then "\\\""
  else if c = '\\' then "\\\\"
  else if isHidden c then "\\u\x7b" ++ hexadecimal c.toNat ++ "\x7d"
  else String.singleton c

/-- A character between double quotes. -/
def quoted (c : Char) : String := "\"" ++ escaped c ++ "\""

end StagedTangent.Text
