import StagedTangent.Json.Numeral

/-!
# Reading JSON

The reader takes the whole text or says what is wrong and where. Places are counted in bytes, as
the column of an error is. Arrays and objects may be nested up to a fixed depth. The rounding of
numerals is a parameter; one beyond the greatest finite number is refused.
-/

namespace StagedTangent.Json

/-- What can be wrong with a JSON text. -/
inductive Cause where
  | endInList
  | endInObject
  | endInString
  | endInValue
  | expectedColon
  | expectedListCommaOrEnd
  | expectedObjectCommaOrEnd
  | expectedWord
  | expectedValue
  | invalidEscape
  | invalidNumber
  | numberOutOfRange
  | controlInString
  | keyNotString
  | loneSurrogate
  | unfinishedSurrogate
  | trailingComma
  | trailingCharacters
  | nestedTooDeep
deriving DecidableEq, Repr

def Cause.message : Cause → String
  | .endInList => "EOF while parsing a list"
  | .endInObject => "EOF while parsing an object"
  | .endInString => "EOF while parsing a string"
  | .endInValue => "EOF while parsing a value"
  | .expectedColon => "expected `:`"
  | .expectedListCommaOrEnd => "expected `,` or `]`"
  | .expectedObjectCommaOrEnd => "expected `,` or `\x7d`"
  | .expectedWord => "expected ident"
  | .expectedValue => "expected value"
  | .invalidEscape => "invalid escape"
  | .invalidNumber => "invalid number"
  | .numberOutOfRange => "number out of range"
  | .controlInString =>
    "control character (\\u0000-\\u001F) found while parsing a string"
  | .keyNotString => "key must be a string"
  | .loneSurrogate => "lone leading surrogate in hex escape"
  | .unfinishedSurrogate => "unexpected end of hex escape"
  | .trailingComma => "trailing comma"
  | .trailingCharacters => "trailing characters"
  | .nestedTooDeep => "recursion limit exceeded"

/-- What is wrong and after how many bytes it was noticed. -/
structure Mistake where
  cause : Cause
  offset : Nat
deriving DecidableEq, Repr

/-- The part of the text that is still to be read, and how many bytes stand before it. -/
structure Input where
  offset : Nat
  rest : List Char

namespace Input

def ofString (s : String) : Input := ⟨0, s.toList⟩

/-- Move past the first `n` characters. -/
def advance (input : Input) (n : Nat) : Input :=
  let passed := input.rest.take n
  ⟨input.offset + (passed.map Char.utf8Size).foldr (· + ·) 0, input.rest.drop n⟩

/-- A mistake noticed between characters. -/
def mistake (input : Input) (cause : Cause) : Mistake := ⟨cause, input.offset⟩

/-- A mistake in the next byte; at the end of the text, a mistake at the end. -/
def mistakeAhead (input : Input) (cause : Cause) : Mistake :=
  ⟨cause, if input.rest.isEmpty then input.offset else input.offset + 1⟩

/-- Move past spaces, tabs and line ends. -/
def skipBlanks (input : Input) : Input :=
  input.advance (input.rest.takeWhile (fun c => c = ' ' || c = '\n' || c = '\t' || c = '\r')).length

end Input

/-- A reader takes a piece off the front of its input. -/
abbrev Reader (α : Type) := Input → Except Mistake (α × Input)

/-- What a round of a loop leads to. -/
inductive Round (σ : Type) where
  | again (state : σ) (input : Input)
  | finished (state : σ) (input : Input)

/-- Run `step` until it says that it is finished. A round that takes nothing off the input ends
the loop too, so that there are never more rounds than characters. -/
def rounds {σ : Type} (step : σ → Input → Except Mistake (Round σ)) (state : σ) (input : Input) :
    Except Mistake (σ × Input) :=
  match step state input with
  | .error mistake => .error mistake
  | .ok (.finished state' input') => .ok (state', input')
  | .ok (.again state' input') =>
    if _shorter : input'.rest.length < input.rest.length then rounds step state' input'
    else .ok (state', input')
termination_by input.rest.length

/-- The letters of a word whose first letter has been read already. -/
def word (letters : List Char) (value : Json) : Reader Json := fun input =>
  match letters with
  | [] => .ok (value, input)
  | c :: letters =>
    match input.rest with
    | [] => .error (input.mistake .endInValue)
    | d :: _ =>
      if c = d then word letters value (input.advance 1)
      else .error (input.mistakeAhead .expectedWord)

/-! ## Numbers -/

/-- Digits, as many as there are. -/
def digits (input : Input) : List Char × Input :=
  let ds := input.rest.takeWhile Char.isDigit
  (ds, input.advance ds.length)

/-- The digits before the point: a zero stands alone. -/
def wholePart : Reader (List Char) := fun input =>
  match input.rest with
  | [] => .error (input.mistake .endInValue)
  | c :: rest =>
    if c = '0' then
      if (rest.head?.any Char.isDigit) then .error ((input.advance 1).mistakeAhead .invalidNumber)
      else .ok (['0'], input.advance 1)
    else if c.isDigit then .ok (digits input)
    else .error (input.mistakeAhead .invalidNumber)

/-- The digits after the point, if there is a point; then there must be one at least. -/
def fractionPart : Reader (Option (List Char)) := fun input =>
  if input.rest.head? = some '.' then
    let found := digits (input.advance 1)
    if found.1.isEmpty then
      .error (found.2.mistakeAhead (if found.2.rest.isEmpty then .endInValue else .invalidNumber))
    else .ok (some found.1, found.2)
  else .ok (none, input)

/-- The exponent, if there is one. A positive exponent beyond the limit makes any number but zero
too large, which is noticed at the digit where the limit is passed. -/
def exponentPart (isZero : Bool) : Reader (Option Exponent) := fun input =>
  if input.rest.head? = some 'e' ∨ input.rest.head? = some 'E' then
    let afterLetter := input.advance 1
    let negative := decide (afterLetter.rest.head? = some '-')
    let signed := negative || decide (afterLetter.rest.head? = some '+')
    let start := if signed then afterLetter.advance 1 else afterLetter
    let found := digits start
    if found.1.isEmpty then
      match start.rest with
      | [] => .error (start.mistake .endInValue)
      | _ :: _ => .error (start.mistakeAhead .invalidNumber)
    else if naturalOfDigits found.1 ≤ exponentLimit then
      let size : Int := (naturalOfDigits found.1 : Nat)
      .ok (some (.moderate (if negative then -size else size)), found.2)
    else if negative || isZero then .ok (some (.huge negative), found.2)
    else
      let lengths := List.range (found.1.length + 1)
      let enough := lengths.find? fun n =>
        decide (exponentLimit < naturalOfDigits (found.1.take n))
      .error ((start.advance (enough.getD found.1.length)).mistake .numberOutOfRange)
  else .ok (none, input)

/-- A number after its sign. -/
def number (rounding : Rounding) (negative : Bool) : Reader Json := fun input => do
  let (whole, input) ← wholePart input
  let (fraction, input) ← fractionPart input
  let isZero := decide (naturalOfDigits (whole ++ fraction.getD []) = 0)
  let (exponent, input) ← exponentPart isZero input
  match (Numeral.mk negative whole fraction exponent).toJson? rounding with
  | some value => .ok (value, input)
  | none => .error (input.mistake .numberOutOfRange)

/-! ## Strings -/

/-- The value of a digit in base sixteen. -/
def hexDigit? (c : Char) : Option Nat :=
  if c.isDigit then some (c.toNat - 48)
  else if 'a' ≤ c ∧ c ≤ 'f' then some (c.toNat - 87)
  else if 'A' ≤ c ∧ c ≤ 'F' then some (c.toNat - 55)
  else none

/-- The number of four digits in base sixteen. Four bytes are taken for them, whatever they are. -/
def fourDigits : Reader Nat := fun input =>
  if (input.rest.map Char.utf8Size).foldr (· + ·) 0 < 4 then
    .error ⟨.endInString, (input.advance input.rest.length).offset⟩
  else
    match (input.rest.take 4).mapM hexDigit? with
    | some ds => .ok (ds.foldl (fun n d => 16 * n + d) 0, input.advance 4)
    | none => .error ⟨.invalidEscape, input.offset + 4⟩

/-- The next character must be `c`, as the second half of a pair of escapes follows. -/
def pairMark (c : Char) (input : Input) : Except Mistake Input :=
  match input.rest with
  | [] => .error (input.mistake .endInString)
  | d :: _ =>
    if c = d then .ok (input.advance 1) else .error (input.mistakeAhead .unfinishedSurrogate)

/-- A character given by its number, or by two numbers that make a pair. -/
def numbered : Reader Char := fun input => do
  let (high, input) ← fourDigits input
  if 0xdc00 ≤ high ∧ high ≤ 0xdfff then .error (input.mistake .loneSurrogate)
  else if 0xd800 ≤ high ∧ high ≤ 0xdbff then
    let input ← pairMark '\\' input
    let input ← pairMark 'u' input
    let (low, input) ← fourDigits input
    if 0xdc00 ≤ low ∧ low ≤ 0xdfff then
      .ok (Char.ofNat (0x10000 + (high - 0xd800) * 0x400 + (low - 0xdc00)), input)
    else .error (input.mistake .loneSurrogate)
  else .ok (Char.ofNat high, input)

/-- The character that stands after a backslash. -/
def escape : Reader Char := fun input =>
  let after := input.advance 1
  match input.rest with
  | [] => .error (input.mistake .endInString)
  | c :: _ =>
    if c = '\x22' ∨ c = '\\' ∨ c = '/' then .ok (c, after)
    else if c = 'b' then .ok ('\x08', after)
    else if c = 'f' then .ok ('\x0c', after)
    else if c = 'n' then .ok ('\n', after)
    else if c = 'r' then .ok ('\r', after)
    else if c = 't' then .ok ('\t', after)
    else if c = 'u' then numbered after
    else .error (input.mistakeAhead .invalidEscape)

/-- One character of a string; what has been read stands in the state, last character first. -/
def stringRound (read : List Char) (input : Input) : Except Mistake (Round (List Char)) :=
  match input.rest with
  | [] => .error (input.mistake .endInString)
  | c :: _ =>
    if c = '\x22' then .ok (.finished read (input.advance 1))
    else if c = '\\' then do
      let (c, input) ← escape (input.advance 1)
      .ok (.again (c :: read) input)
    else if c.toNat < 0x20 then .error (input.mistakeAhead .controlInString)
    else .ok (.again (c :: read) (input.advance 1))

/-- A string after its opening quote. -/
def string : Reader String := fun input => do
  let (read, input) ← rounds stringRound [] input
  .ok (String.ofList read.reverse, input)

/-! ## Arrays and objects -/

/-- One item of an array, given the reader of values. The state holds the items, last first. -/
def arrayRound (value : Reader Json) (items : List Json) (input : Input) :
    Except Mistake (Round (List Json)) :=
  let input := input.skipBlanks
  match input.rest with
  | [] => .error (input.mistakeAhead .endInList)
  | c :: _ =>
    if c = ']' then .ok (.finished items (input.advance 1))
    else if items.isEmpty then do
      let (item, input) ← value input
      .ok (.again (item :: items) input)
    else if c = ',' then
      let input := (input.advance 1).skipBlanks
      match input.rest with
      | [] => .error (input.mistakeAhead .endInValue)
      | d :: _ =>
        if d = ']' then .error (input.mistakeAhead .trailingComma)
        else do
          let (item, input) ← value input
          .ok (.again (item :: items) input)
    else .error (input.mistakeAhead .expectedListCommaOrEnd)

/-- A member of an object, from its name on. -/
def member (value : Reader Json) : Reader (String × Json) := fun input => do
  let (name, input) ← string (input.advance 1)
  let input := input.skipBlanks
  match input.rest with
  | [] => .error (input.mistakeAhead .endInObject)
  | c :: _ =>
    if c = ':' then do
      let (item, input) ← value (input.advance 1)
      .ok ((name, item), input)
    else .error (input.mistakeAhead .expectedColon)

/-- One member of an object. The state holds the members, and is absent before the first. -/
def objectRound (value : Reader Json) (members : Option (List (String × Json))) (input : Input) :
    Except Mistake (Round (Option (List (String × Json)))) :=
  let input := input.skipBlanks
  let next (input : Input) : Except Mistake (Round (Option (List (String × Json)))) := do
    let ((name, item), input) ← member value input
    .ok (.again (some (insertMember name item (members.getD []))) input)
  match input.rest with
  | [] => .error (input.mistakeAhead .endInObject)
  | c :: _ =>
    if c = '\x7d' then .ok (.finished members (input.advance 1))
    else if members.isNone then
      if c = '\x22' then next input else .error (input.mistakeAhead .keyNotString)
    else if c = ',' then
      let input := (input.advance 1).skipBlanks
      match input.rest with
      | [] => .error (input.mistakeAhead .endInValue)
      | d :: _ =>
        if d = '\x22' then next input
        else if d = '\x7d' then .error (input.mistakeAhead .trailingComma)
        else .error (input.mistakeAhead .keyNotString)
    else .error (input.mistakeAhead .expectedObjectCommaOrEnd)

/-- A value in which arrays and objects are nested at most `depth` deep. -/
def value (rounding : Rounding) (depth : Nat) : Reader Json := fun input =>
  let input := input.skipBlanks
  match input.rest with
  | [] => .error (input.mistakeAhead .endInValue)
  | c :: _ =>
    if c = 'n' then word ['u', 'l', 'l'] .null (input.advance 1)
    else if c = 't' then word ['r', 'u', 'e'] (.bool true) (input.advance 1)
    else if c = 'f' then word ['a', 'l', 's', 'e'] (.bool false) (input.advance 1)
    else if c = '-' then number rounding true (input.advance 1)
    else if c.isDigit then number rounding false input
    else if c = '\x22' then do
      let (s, input) ← string (input.advance 1)
      .ok (.text s, input)
    else if c = '[' ∨ c = '\x7b' then
      match depth with
      | 0 => .error (input.mistakeAhead .nestedTooDeep)
      | depth + 1 =>
        if c = '[' then do
          let (items, input) ← rounds (arrayRound (value rounding depth)) [] (input.advance 1)
          .ok (.array items.reverse, input)
        else do
          let (members, input) ← rounds (objectRound (value rounding depth)) none (input.advance 1)
          .ok (.object (members.getD []), input)
    else .error (input.mistakeAhead .expectedValue)

/-- How deep arrays and objects may be nested. -/
def depthLimit : Nat := 127

/-! ## Whole texts -/

/-- The line of a byte, counted from one, and the number of bytes before it in that line. -/
def lineAndColumn (s : String) (offset : Nat) : Nat × Nat :=
  let step := fun (state : Nat × Nat × Nat) (c : Char) =>
    let (line, start, here) := state
    if here < offset ∧ c = '\n' then (line + 1, here + 1, here + 1)
    else (line, start, here + c.utf8Size)
  let (line, start, _) := s.toList.foldl step (1, 0, 0)
  (line, offset - start)

/-- A mistake in words, with its place in the text. -/
def Mistake.message (s : String) (mistake : Mistake) : String :=
  let (line, column) := lineAndColumn s mistake.offset
  s!"{mistake.cause.message} at line {line} column {column}"

/-- The value that a whole text stands for, its numerals rounded in the given way. -/
def parseWith (rounding : Rounding) (s : String) : Except Mistake Json := do
  let (found, input) ← value rounding depthLimit (Input.ofString s)
  let input := input.skipBlanks
  if input.rest.isEmpty then .ok found else .error (input.mistakeAhead .trailingCharacters)

/-- The value that a whole text stands for, its numerals rounded step by step. -/
def parse : String → Except Mistake Json := parseWith .stepwise

end StagedTangent.Json
