import StagedTangent.Number.Binary64

/-!
# JSON values

Numbers keep the kind they were written in: a numeral without point and exponent that fits 64 bits
is an integer, any other is a binary floating-point number. The members of an object are kept in
the order of their names, each name once.
-/

namespace StagedTangent

/-- A JSON value. -/
inductive Json where
  | null
  | bool (value : Bool)
  | int (value : Int)
  | real (value : Binary64)
  | text (value : String)
  | array (items : List Json)
  | object (members : List (String × Json))
deriving Inhabited

namespace Json

/-- Set a member, keeping the members in the order of their names. A name that is present already
gets the new value. -/
def insertMember (name : String) (value : Json) : List (String × Json) → List (String × Json)
  | [] => [(name, value)]
  | (other, old) :: rest =>
    if name = other then (name, value) :: rest
    else if name < other then (name, value) :: (other, old) :: rest
    else (other, old) :: insertMember name value rest

/-- The object with these members; of two with one name the later counts. -/
def ofMembers (members : List (String × Json)) : Json :=
  .object (members.foldl (fun sorted m => insertMember m.1 m.2 sorted) [])

/-- A number as JSON: only finite numbers have a form, the others become `null`. -/
def ofNumber (x : Binary64) : Json := if x.isFinite then .real x else .null

/-- The number that a JSON number stands for, integers rounded to nearest. -/
def toNumber? : Json → Option Binary64
  | .int n => some (.ofInt n)
  | .real x => some x
  | _ => none

end Json

end StagedTangent
