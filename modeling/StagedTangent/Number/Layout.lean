import StagedTangent.Number.Shortest

/-!
# Layouts of a number's text

Once the digits of a number are chosen, a layout says where the point goes, when a power of ten is
written instead, and how whole numbers look. Each kind of text that the library writes has one
record of these choices, defined where that text is written.
-/

namespace StagedTangent

/-- The choices of one number format. -/
structure Layout where
  /-- Which of two equally near digit strings is taken. -/
  tie : Tie
  /-- Least power of ten of the leading digit that is written without an exponent; unbounded if
  absent. -/
  positionalFrom : Option Int
  /-- Greatest power of ten of the leading digit that is written without an exponent; unbounded if
  absent. -/
  positionalTo : Option Int
  /-- Whether a whole number written without an exponent ends in `.0`. -/
  wholePoint : Bool
  /-- Whether a positive exponent carries a plus sign. -/
  plusSign : Bool
deriving DecidableEq, Repr

namespace Layout

/-- Whether a number whose leading digit has this power of ten is written without an exponent. -/
def isPositional (layout : Layout) (power : Int) : Bool :=
  layout.positionalFrom.all (fun least => decide (least ≤ power)) &&
    layout.positionalTo.all (fun greatest => decide (power ≤ greatest))

def zeros (n : Nat) : List Char := List.replicate n '0'

/-- Digits with the point after the one of power zero, filled up with zeros on either side. -/
def positional (layout : Layout) (digits : List Char) (power : Int) : List Char :=
  match power with
  | .negSucc n => ['0', '.'] ++ zeros n ++ digits
  | .ofNat n =>
    if digits.length ≤ n + 1 then
      digits ++ zeros (n + 1 - digits.length) ++ if layout.wholePoint then ['.', '0'] else []
    else digits.take (n + 1) ++ ['.'] ++ digits.drop (n + 1)

/-- Digits with the point after the first, and the power of ten of that first digit. -/
def scientific (layout : Layout) (digits : List Char) (power : Int) : List Char :=
  let point := if digits.length ≤ 1 then [] else ['.']
  let sign := if layout.plusSign && decide (0 ≤ power) then ['+'] else []
  digits.take 1 ++ point ++ digits.drop 1 ++ ['e'] ++ sign ++ (toString power).toList

/-- The text of a nonnegative decimal. -/
def decimal (layout : Layout) (d : Decimal) : List Char :=
  let digits := Nat.toDigits 10 d.digits
  let power := d.exponent + (digits.length : Int) - 1
  if layout.isPositional power then layout.positional digits power
  else layout.scientific digits power

/-- The text of a number in this layout. -/
def write (layout : Layout) (x : Binary64) : String :=
  let sign := if x.isNegative then "-" else ""
  match x.meaning with
  | .nan => "NaN"
  | .infinite _ => sign ++ "inf"
  | .finite .. => sign ++ String.ofList (layout.decimal (x.shortest layout.tie))

end Layout

end StagedTangent
