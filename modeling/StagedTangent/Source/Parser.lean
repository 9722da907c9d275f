import StagedTangent.Source.Failure
import StagedTangent.Text.Blank

/-!
# Parsers

A parser takes a piece off the front of a text or fails. Along with a value it keeps the furthest
failure that it met on the way, so that a text that is refused in the end is refused for the
reading that got furthest. Whether a parser succeeds, with which value and which rest, does not
depend on the failures it keeps.
-/

namespace StagedTangent.Source

/-- The part of a text that is still to be read, and how many characters stand before it. -/
structure Cursor where
  position : Nat
  rest : List Char
deriving DecidableEq, Repr

namespace Cursor

/-- The beginning of a text. -/
def ofString (s : String) : Cursor := ⟨0, s.toList⟩

/-- Move past every blank. -/
def skipBlanks (c : Cursor) : Cursor :=
  ⟨c.position + (c.rest.takeWhile Text.isBlank).length, c.rest.dropWhile Text.isBlank⟩

/-- What stands at the cursor does not fit. At the end of the text nothing stands there. -/
def unexpected (c : Cursor) (expected : List Expectation) : Failure :=
  let width := if c.rest.isEmpty then 0 else 1
  ⟨c.position, ⟨c.position, c.position + width⟩, c.rest.head?, expected, .unexpected⟩

end Cursor

/-- What a parser comes to. -/
inductive Outcome (α : Type) where
  /-- A value, what is left to read, and the furthest failure met on the way. -/
  | success (value : α) (rest : Cursor) (failure : Option Failure)
  | failure (failure : Failure)

/-- A parser of values of a type. -/
def Parser (α : Type) := Cursor → Outcome α

namespace Parser

variable {α β γ : Type}

/-! ## Single characters -/

/-- One character of a class. A failure does not say what the class holds. -/
def satisfy (p : Char → Bool) : Parser Char := fun c =>
  match c.rest with
  | d :: rest => if p d then .success d ⟨c.position + 1, rest⟩ none else .failure (c.unexpected [])
  | [] => .failure (c.unexpected [])

/-- The character `d`. -/
def char (d : Char) : Parser Char := fun c =>
  match c.rest with
  | e :: rest =>
    if e = d then .success d ⟨c.position + 1, rest⟩ none else .failure (c.unexpected [.char d])
  | [] => .failure (c.unexpected [.char d])

/-- The end of the text. -/
def endOfInput : Parser Unit := fun c =>
  match c.rest with
  | [] => .success () c none
  | _ :: _ => .failure (c.unexpected [.endOfInput])

/-! ## Sequence and choice -/

/-- One parser after another, and a function of both values. -/
def andThen (f : α → β → γ) (p : Parser α) (q : Parser β) : Parser γ := fun c =>
  match p c with
  | .failure failure => .failure failure
  | .success a rest met =>
    match q rest with
    | .failure failure => .failure (failure.after? met)
    | .success b rest met' => .success (f a b) rest (Failure.join? met met')

/-- One parser after another, keeping both values. -/
def pair (p : Parser α) (q : Parser β) : Parser (α × β) := andThen Prod.mk p q

/-- One parser after another, keeping the first value. -/
def left (p : Parser α) (q : Parser β) : Parser α := andThen (fun a _ => a) p q

/-- One parser after another, keeping the second value. -/
def right (p : Parser α) (q : Parser β) : Parser β := andThen (fun _ b => b) p q

/-- The first parser that succeeds; its value stands alone. -/
def orElse (p q : Parser α) : Parser α := fun c =>
  match p c with
  | .success a rest met => .success a rest met
  | .failure first =>
    match q c with
    | .success a rest met => .success a rest met
    | .failure second => .failure (if first.reach < second.reach then second
        else first.furthest second)

/-- The first of three parsers that succeeds; if none does, later failures are preferred. -/
def oneOfThree (p q r : Parser α) : Parser α := fun c =>
  match p c with
  | .success a rest met => .success a rest met
  | .failure first =>
    match q c with
    | .success a rest met => .success a rest met
    | .failure second =>
      match r c with
      | .success a rest met => .success a rest met
      | .failure third => .failure (third.furthest (second.furthest first))

/-- A parser that may fail without reading anything. -/
def optional (p : Parser α) : Parser (Option α) := fun c =>
  match p c with
  | .success a rest met => .success (some a) rest met
  | .failure failure => .success none c (some failure)

/-! ## Values -/

/-- A function of the value. -/
def map (f : α → β) (p : Parser α) : Parser β := fun c =>
  match p c with
  | .success a rest met => .success (f a) rest met
  | .failure failure => .failure failure

/-- A function of the value and of the range it was read from, blanks included. -/
def mapSpan (f : α → Span → β) (p : Parser α) : Parser β := fun c =>
  match p c with
  | .success a rest met => .success (f a ⟨c.position, rest.position⟩) rest met
  | .failure failure => .failure failure

/-- A function of the value and its range that may refuse. What is refused has been read. -/
def accept (f : α → Span → Except Reason β) (p : Parser α) : Parser β := fun c =>
  match p c with
  | .failure failure => .failure failure
  | .success a rest met =>
    let span : Span := ⟨c.position, rest.position⟩
    match f a span with
    | .ok b => .success b rest met
    | .error reason => .failure ⟨rest.position, span, none, [], reason⟩

/-- A parser with blanks around what it reads. -/
def padded (p : Parser α) : Parser α := fun c =>
  match p c.skipBlanks with
  | .success a rest met => .success a rest.skipBlanks met
  | .failure failure => .failure failure

/-- A parser between two others. -/
def between (opening : Parser β) (closing : Parser γ) (p : Parser α) : Parser α :=
  left (right opening p) closing

/-! ## Repetition -/

/-- A parser as often as it succeeds, after `values` and `met`. A success that reads nothing ends
the repetition. -/
def manyFrom (p : Parser α) (values : List α) (met : Option Failure) (c : Cursor) :
    Outcome (List α) :=
  match p c with
  | .failure failure => .success values c (Failure.join? met (some failure))
  | .success a rest met' =>
    if _shorter : rest.rest.length < c.rest.length then
      manyFrom p (values ++ [a]) (Failure.join? met met') rest
    else .success values c met
termination_by c.rest.length

/-- A parser as often as it succeeds. -/
def many (p : Parser α) : Parser (List α) := manyFrom p [] none

/-- A parser as often as it succeeds, and at least once. -/
def many1 (p : Parser α) : Parser (List α) := fun c =>
  match p c with
  | .failure failure => .failure failure
  | .success .. => many p c

/-- The end of a separated list: a separator may stand behind its last item. -/
def trailing (separator : Parser β) (values : List α) (met : Option Failure) (last : Failure)
    (c : Cursor) : Outcome (List α) :=
  match separator c with
  | .failure failure =>
    .success values c (Failure.join? (Failure.join? met (some failure)) (some last))
  | .success _ rest met' =>
    .success values rest (Failure.join? (Failure.join? met met') (some last))

/-- Items behind those in `values`, each after a separator. A separator without an item behind it
is left to be read again. -/
def separatedFrom (item : Parser α) (separator : Parser β) (values : List α)
    (met : Option Failure) (c : Cursor) : Outcome (List α) :=
  match separator c with
  | .failure failure => trailing separator values met failure c
  | .success _ next met' =>
    match item next with
    | .failure failure => trailing separator values (Failure.join? met met') failure c
    | .success a rest met'' =>
      if _shorter : rest.rest.length < c.rest.length then
        separatedFrom item separator (values ++ [a])
          (Failure.join? (Failure.join? met met') met'') rest
      else .success values c met
termination_by c.rest.length

/-- Items with separators between them and, if there are any, perhaps one at the end. -/
def separated (item : Parser α) (separator : Parser β) : Parser (List α) := fun c =>
  match item c with
  | .failure failure => .success [] c (some failure)
  | .success a rest met => separatedFrom item separator [a] met rest

/-! ## Recursion -/

/-- The parser that is defined in terms of itself by `step`. The inner parser answers only behind
the place where the outer one began, so that every text is read in finitely many steps; a grammar
that reads something before it recurs never meets the difference. -/
def fix (step : Parser α → Parser α) (c : Cursor) : Outcome α :=
  step (fun inner =>
    if _shorter : inner.rest.length < c.rest.length then fix step inner
    else .failure (inner.unexpected [])) c
termination_by c.rest.length

end Parser

end StagedTangent.Source
