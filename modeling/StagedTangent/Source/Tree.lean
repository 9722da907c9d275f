import StagedTangent.Op.Basic

/-!
# Syntax trees of functions

A source text defines one function, `fn name(parameters) = body`. Each part of its tree carries the
range of characters that it was read from.
-/

namespace StagedTangent.Source

/-- A range of characters, from `start` up to but not including `stop`. -/
structure Span where
  start : Nat
  stop : Nat
deriving DecidableEq, Repr, Inhabited

/-- The body of a function. -/
inductive Expr where
  | numeral (value : Binary64) (span : Span)
  | ident (name : String) (span : Span)
  | negation (inner : Expr) (span : Span)
  | binary (op : Operator) (left right : Expr) (span : Span)
  /-- The element at a place of a vector, counted from zero. -/
  | element (base : Expr) (place : Nat) (span : Span)
  | call (callee : String) (args : List Expr) (span : Span)
deriving Repr, Inhabited

/-- The range of an expression. -/
def Expr.span : Expr → Span
  | .numeral _ span | .ident _ span | .negation _ span | .binary _ _ _ span | .element _ _ span
  | .call _ _ span => span

/-- A parameter of a function. -/
structure Param where
  name : String
  span : Span
deriving DecidableEq, Repr

/-- A function as it was written. -/
structure Function where
  name : String
  params : List Param
  body : Expr
  span : Span
deriving Repr, Inhabited

end StagedTangent.Source
