import StagedTangent.Source.Parser
import StagedTangent.Number.Decimal

/-!
# The grammar of functions

A source text is `fn name(parameters) = expression`. Products bind tighter than sums, a minus sign
tighter than products and indexing tighter than a minus sign; operators of one level associate to
the left. A name with a parenthesis behind it is a call. Blanks may stand around every token of an
expression, but not within names and numerals.
-/

namespace StagedTangent.Source

/-! ## Tokens -/

def isNameStart (c : Char) : Bool := c.isAlpha || decide (c = '_')

def isNamePart (c : Char) : Bool := c.isAlphanum || decide (c = '_')

def isNonzeroDigit (c : Char) : Bool := c.isDigit && decide (c ≠ '0')

namespace Parser

/-- A name: letters, digits and underscores, of which the first is no digit. -/
def name : Parser (List Char) := andThen List.cons (satisfy isNameStart) (many (satisfy isNamePart))

/-- The digits of a whole number: a zero stands alone. -/
def whole : Parser (List Char) :=
  orElse (andThen List.cons (satisfy isNonzeroDigit) (many (satisfy Char.isDigit)))
    (map (fun c => [c]) (char '0'))

/-- The digits behind a point, at least one. -/
def fraction : Parser (List Char) := right (char '.') (many1 (satisfy Char.isDigit))

/-- The name `fn` and no other. -/
def keyword : Parser Unit :=
  accept (fun letters _ => if letters = ['f', 'n'] then .ok () else .error .unexpected) name

/-- Indices are below this bound. -/
def indexBound : Nat := Nat.pow 2 64

/-- The number of a whole numeral, if it is in the bound of indices. -/
def place : Parser Nat :=
  accept (fun digits _ =>
    let n := naturalOfDigits digits
    if n < indexBound then .ok n else .error .indexTooLarge) whole

/-! ## Expressions -/

/-- A number, read to the nearest one there is. -/
def number : Parser Expr :=
  padded (mapSpan (fun numeral span =>
      .numeral ((Decimal.ofNumeral numeral.1 (numeral.2.getD [])).toBinary64 false) span)
    (pair whole (optional fraction)))

/-- The arguments of a call, given the parser of expressions. -/
def args (expr : Parser Expr) : Parser (List Expr) :=
  between (padded (char '(')) (padded (char ')')) (separated expr (padded (char ',')))

/-- A variable, or a call if arguments follow. -/
def named (expr : Parser Expr) : Parser Expr :=
  padded (mapSpan (fun found span =>
      match found.2 with
      | some args => .call (String.ofList found.1) args span
      | none => .ident (String.ofList found.1) span)
    (pair name (optional (args expr))))

/-- An expression in parentheses. The parentheses leave no trace in the tree. -/
def parenthesized (expr : Parser Expr) : Parser Expr :=
  between (padded (char '(')) (padded (char ')')) expr

def atom (expr : Parser Expr) : Parser Expr :=
  oneOfThree number (named expr) (parenthesized expr)

/-- An index in brackets, with the range of the brackets. -/
def bracketed : Parser (Nat × Span) :=
  padded (mapSpan Prod.mk (between (char '[') (char ']') (padded place)))

/-- An expression under an index. -/
def indexed (base : Expr) (index : Nat × Span) : Expr :=
  .element base index.1 ⟨base.span.start, index.2.stop⟩

def postfixed (expr : Parser Expr) : Parser Expr :=
  map (fun found => found.2.foldl indexed found.1) (pair (atom expr) (many bracketed))

/-- A minus sign, with the range that it was read from. -/
def minus : Parser Span := mapSpan (fun _ span => span) (padded (char '-'))

/-- An expression behind a minus sign. -/
def negated (sign : Span) (inner : Expr) : Expr := .negation inner ⟨sign.start, inner.span.stop⟩

def unary (expr : Parser Expr) : Parser Expr :=
  map (fun found => found.1.foldr negated found.2) (pair (many minus) (postfixed expr))

/-- An operator between two expressions. -/
def joined (left : Expr) (right : Operator × Expr) : Expr :=
  .binary right.1 left right.2 ⟨left.span.start, right.2.span.stop⟩

/-- The sign of an operator. -/
def operator (op : Operator) : Parser Operator := map (fun _ => op) (padded (char op.symbol))

/-- Operands with either of two operators between them. -/
def chain (first second : Operator) (operand : Parser Expr) : Parser Expr :=
  map (fun found => found.2.foldl joined found.1)
    (pair operand (many (pair (orElse (operator first) (operator second)) operand)))

/-- The grammar of expressions, given the parser of the expressions inside. -/
def expressionOver (expr : Parser Expr) : Parser Expr :=
  chain .add .sub (chain .mul .div (unary expr))

def expression : Parser Expr := fix expressionOver

/-! ## Functions -/

def param : Parser Param :=
  padded (mapSpan (fun letters span => ⟨String.ofList letters, span⟩) name)

/-- The parameters of a function. The parentheses and commas have no blanks around them but those
of the names and of the whole list. -/
def params : Parser (List Param) :=
  padded (between (char '(') (char ')') (separated param (char ',')))

def function : Parser Function :=
  mapSpan (fun found span => ⟨String.ofList found.1.1, found.1.2, found.2, span⟩)
    (left
      (pair (left (pair (right (padded keyword) (padded name)) params) (padded (char '=')))
        expression)
      endOfInput)

end Parser

/-- The function that a source text defines, or the failure of the reading that got furthest. -/
def parse (source : String) : Except Failure Function :=
  match Parser.function (Cursor.ofString source) with
  | .success function _ _ => .ok function
  | .failure failure => .error failure

end StagedTangent.Source
