import StagedTangent.Proofs.Number.Rounding
import StagedTangent.Source.Grammar

/-!
# Derivations

The grammar of functions, apart from any way of reading. A `Form` says which stretches of a text it
covers, from one place to another, and with which value; the forms are put together as the
productions of the grammar are. Nothing here says how far to look ahead or what to try first. Any
number of blanks may stand behind a token, and the range of characters in each part of the tree is
that of its stretch.

    function   := W 'fn' W name W '(' [parameter (',' parameter)* [',']] ')' W '=' W expression
    parameter  := W name W
    expression := product (('+' | '-') product)*
    product    := negated (('*' | '/') negated)*
    negated    := '-'* indexed
    indexed    := atom ('[' whole ']')*
    atom       := numeral | name ['(' [expression (',' expression)* [',']] ')'] | '(' expression ')'
-/

namespace StagedTangent.Source

/-- A form of text: the values of the stretches from one place to another. -/
abbrev Form (α : Type) := Cursor → α → Cursor → Prop

/-! ## Tokens -/

/-- Letters stand between two places. -/
structure Cursor.Spells (c : Cursor) (letters : List Char) (c' : Cursor) : Prop where
  rest : c.rest = letters ++ c'.rest
  position : c'.position = c.position + letters.length

/-- What stands at a place, if anything does, is of a class. -/
def Cursor.Meets (c : Cursor) (ok : Char → Prop) : Prop := ∀ d rest, c.rest = d :: rest → ok d

/-- Nothing but blanks stands between two places. -/
def Blanks (c c' : Cursor) : Prop :=
  ∃ blanks, (∀ b ∈ blanks, Text.isBlank b = true) ∧ c.Spells blanks c'

/-- Letters, and blanks behind them. -/
def Token (letters : List Char) (c c' : Cursor) : Prop := ∃ c₁, c.Spells letters c₁ ∧ Blanks c₁ c'

/-- A name: letters, digits and underscores, of which the first is no digit. -/
def IsName (letters : List Char) : Prop :=
  ∃ first more, letters = first :: more ∧ isNameStart first = true ∧
    ∀ d ∈ more, isNamePart d = true

/-- A whole number: a zero, or digits of which the first is no zero. -/
def IsWhole (digits : List Char) : Prop :=
  digits = ['0'] ∨ ∃ first more, digits = first :: more ∧ isNonzeroDigit first = true ∧
    ∀ d ∈ more, d.isDigit = true

/-- The numerals and the numbers they are written for. -/
inductive Numeral : List Char → ℚ → Prop
  | whole {digits : List Char} : IsWhole digits → Numeral digits (naturalOfDigits digits)
  | point {digits fraction : List Char} : IsWhole digits → fraction ≠ [] →
      (∀ d ∈ fraction, d.isDigit = true) → Numeral (digits ++ '.' :: fraction)
        (naturalOfDigits digits + naturalOfDigits fraction / 10 ^ fraction.length)

/-! ## Lists -/

/-- What may stand behind an item: further items, each behind a comma, and perhaps one more comma. -/
inductive Further {α : Type} (item : Form α) (comma : Cursor → Cursor → Prop) : Form (List α)
  | last (c : Cursor) : Further item comma c [] c
  | trailing {c c' : Cursor} : comma c c' → Further item comma c [] c'
  | more {c c₁ c₂ c' : Cursor} {a : α} {as : List α} :
      comma c c₁ → item c₁ a c₂ → Further item comma c₂ as c' → Further item comma c (a :: as) c'

/-- Items with commas between them and, if there are any, perhaps one at the end. -/
inductive Items {α : Type} (item : Form α) (comma : Cursor → Cursor → Prop) : Form (List α)
  | none (c : Cursor) : Items item comma c [] c
  | some {c c₁ c' : Cursor} {a : α} {as : List α} :
      item c a c₁ → Further item comma c₁ as c' → Items item comma c (a :: as) c'

/-! ## Expressions -/

/-- A numeral, a variable, a call, or an expression in parentheses. A numeral stands for the nearest
binary number, and the range of a call goes on to what comes behind it. -/
inductive Atom (expr : Form Expr) : Form Expr
  | numeral {c c₁ c' : Cursor} {letters : List Char} {r : ℚ} {x : Binary64} :
      Numeral letters r → x.IsNearest r → c.Spells letters c₁ → Blanks c₁ c' →
        Atom expr c (.numeral x ⟨c.position, c₁.position⟩) c'
  | ident {c c₁ c' : Cursor} {letters : List Char} :
      IsName letters → c.Spells letters c₁ → Blanks c₁ c' →
        Atom expr c (.ident (String.ofList letters) ⟨c.position, c₁.position⟩) c'
  | call {c c₁ c₂ c₃ c' : Cursor} {letters : List Char} {args : List Expr} :
      IsName letters → Token letters c c₁ → Token ['('] c₁ c₂ →
      Items expr (Token [',']) c₂ args c₃ → Token [')'] c₃ c' →
        Atom expr c (.call (String.ofList letters) args ⟨c.position, c'.position⟩) c'
  | parenthesized {c c₁ c₂ c' : Cursor} {e : Expr} :
      Token ['('] c c₁ → expr c₁ e c₂ → Token [')'] c₂ c' → Atom expr c e c'

/-- An operand under any number of indices, each below the bound of indices. -/
inductive Indexed (operand : Form Expr) : Form Expr
  | operand {c c' : Cursor} {e : Expr} : operand c e c' → Indexed operand c e c'
  | element {c c₁ c₂ c₃ c₄ c' : Cursor} {base : Expr} {digits : List Char} :
      Indexed operand c base c₁ → Token ['['] c₁ c₂ → IsWhole digits →
      naturalOfDigits digits < 2 ^ 64 → Token digits c₂ c₃ → c₃.Spells [']'] c₄ → Blanks c₄ c' →
        Indexed operand c
          (.element base (naturalOfDigits digits) ⟨base.span.start, c₄.position⟩) c'

/-- An operand behind any number of minus signs. -/
inductive Negated (operand : Form Expr) : Form Expr
  | operand {c c' : Cursor} {e : Expr} : operand c e c' → Negated operand c e c'
  | negation {c c₁ c' : Cursor} {inner : Expr} :
      Token ['-'] c c₁ → Negated operand c₁ inner c' →
        Negated operand c (.negation inner ⟨c.position, inner.span.stop⟩) c'

/-- Operands with either of two operators between them, joined from left to right. -/
inductive Chain (first second : Operator) (operand : Form Expr) : Form Expr
  | operand {c c' : Cursor} {e : Expr} : operand c e c' → Chain first second operand c e c'
  | joined {c c₁ c₂ c' : Cursor} {op : Operator} {left right : Expr} :
      Chain first second operand c left c₁ → op = first ∨ op = second → Token [op.symbol] c₁ c₂ →
      operand c₂ right c' →
        Chain first second operand c
          (.binary op left right ⟨left.span.start, right.span.stop⟩) c'

/-- Sums of products of negated and indexed atoms, in which expressions stand again. -/
inductive Expression : Form Expr
  | mk {c c' : Cursor} {e : Expr} :
      Chain .add .sub (Chain .mul .div (Negated (Indexed (Atom Expression)))) c e c' →
        Expression c e c'

/-! ## Functions -/

/-- A name with blanks around it. The range is that of the name. -/
inductive Parameter : Form Param
  | mk {c c₁ c₂ c' : Cursor} {letters : List Char} :
      Blanks c c₁ → IsName letters → c₁.Spells letters c₂ → Blanks c₂ c' →
        Parameter c ⟨String.ofList letters, ⟨c₁.position, c₂.position⟩⟩ c'

/-- The definition of a function. The `fn` at its beginning is no part of a longer name. -/
inductive Definition : Form Function
  | mk {c c₁ c₂ c₃ c₄ c₅ c₆ c₇ c₈ c' : Cursor} {letters : List Char} {params : List Param}
      {body : Expr} :
      Blanks c c₁ → c₁.Spells ['f', 'n'] c₂ → (c₂.Meets fun d => isNamePart d = false) →
      Blanks c₂ c₃ → IsName letters → Token letters c₃ c₄ →
      c₄.Spells ['('] c₅ → Items Parameter (fun d d' => d.Spells [','] d') c₅ params c₆ →
      Token [')'] c₆ c₇ → Token ['='] c₇ c₈ → Expression c₈ body c' →
        Definition c ⟨String.ofList letters, params, body, ⟨c.position, c'.position⟩⟩ c'

/-- A whole text is the definition of a function. -/
def Derives (source : String) (f : Function) : Prop :=
  ∃ stop, Definition (.ofString source) f stop ∧ stop.rest = []

end StagedTangent.Source
