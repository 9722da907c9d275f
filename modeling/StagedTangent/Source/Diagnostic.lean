import StagedTangent.Source.Failure

/-!
# Diagnostics

A diagnostic ties a message to a range of a source text. The range is given by characters and kept
by bytes; lines and columns count from one, columns by characters. A diagnostic is shown with the
line it begins in and a row of carets under its range, as far as it lies in that line.
-/

namespace StagedTangent.Source

/-- A line and a column, both counted from one. -/
structure Location where
  line : Nat
  column : Nat
deriving DecidableEq, Repr

/-- A message about a part of a source text. -/
structure Diagnostic where
  message : String
  /-- The range of bytes that the message is about. -/
  span : Span
  start : Location
  stop : Location
deriving DecidableEq, Repr

/-! ## Bytes -/

/-- The number of bytes of a text. -/
def byteLength (cs : List Char) : Nat := (cs.map Char.utf8Size).foldr (· + ·) 0

/-- The byte at which a character begins. Behind the last character it is the end of the text. -/
def byteOffset (cs : List Char) (place : Nat) : Nat := byteLength (cs.take place)

/-- The longest beginning of a text that has at most a number of bytes. -/
def takeBytes : Nat → List Char → List Char
  | _, [] => []
  | n, c :: cs => if c.utf8Size ≤ n then c :: takeBytes (n - c.utf8Size) cs else []

/-- The beginning of a text up to a byte, unless this is within a character or behind the text. -/
def upTo? (cs : List Char) (stop : Nat) : Option (List Char) :=
  let front := takeBytes stop cs
  if byteLength front = stop then some front else none

/-- The part of a text between two bytes, unless one of them is within a character or behind the
text or they are in the wrong order. -/
def slice? (cs : List Char) (start stop : Nat) : Option (List Char) := do
  let before ← upTo? cs start
  let through ← upTo? cs stop
  if start ≤ stop then some (through.drop before.length) else none

/-- A number moved into a range, unless the range is in the wrong order. -/
def clamp? (n low high : Nat) : Option Nat :=
  if low ≤ high then some (max low (min n high)) else none

/-! ## Lines -/

/-- The byte behind the last line end of a text, or its beginning. -/
def lineStart (cs : List Char) : Nat :=
  byteLength (cs.reverse.dropWhile fun c => decide (c ≠ '\n')).reverse

/-- The byte of the first line end of a text, or its end. -/
def lineStop (cs : List Char) : Nat := byteLength (cs.takeWhile fun c => decide (c ≠ '\n'))

/-- The location of a byte. -/
def Location.of? (cs : List Char) (offset : Nat) : Option Location := do
  let before ← slice? cs 0 offset
  let line ← slice? before (lineStart before) (byteLength before)
  some ⟨before.count '\n' + 1, line.length + 1⟩

namespace Diagnostic

/-- A message about a range of characters. Both ends are moved back to the end of the text if they
lie behind it. -/
def ofSpan? (source : String) (message : String) (span : Span) : Option Diagnostic := do
  let cs := source.toList
  let bytes : Span := ⟨byteOffset cs span.start, byteOffset cs span.stop⟩
  let start ← Location.of? cs bytes.start
  let stop ← Location.of? cs bytes.stop
  some ⟨message, bytes, start, stop⟩

/-- A message about a range of characters, which always has a diagnostic (`ofSpan?_eq_some`). -/
def ofSpan (source : String) (message : String) (span : Span) : Diagnostic :=
  (ofSpan? source message span).getD ⟨message, span, ⟨1, 1⟩, ⟨1, 1⟩⟩

/-- A failure of parsing as a diagnostic. -/
def ofFailure (source : String) (failure : Failure) : Diagnostic :=
  ofSpan source failure.message failure.span

/-- A diagnostic as text: the message, the location, the line and the carets. There is one caret at
least. Nothing is shown if the range begins or ends within a character of the text. -/
def render? (source : String) (d : Diagnostic) : Option String := do
  let cs := source.toList
  let start := min d.span.start (byteLength cs)
  let before ← slice? cs 0 start
  let behind ← slice? cs start (byteLength cs)
  let first := lineStart before
  let last := start + lineStop behind
  let line ← slice? cs first last
  let stop ← clamp? d.span.stop start last
  let indent ← slice? cs first start
  let marked ← slice? cs start stop
  some ("error: " ++ d.message ++ "\n" ++
    s!"--> line {d.start.line}, col {d.start.column}\n" ++
    String.ofList line ++ "\n" ++
    String.ofList (List.replicate indent.length ' ') ++
    String.ofList (List.replicate (max 1 marked.length) '^'))

def render (source : String) (d : Diagnostic) : String := (d.render? source).getD ""

end Diagnostic

end StagedTangent.Source
