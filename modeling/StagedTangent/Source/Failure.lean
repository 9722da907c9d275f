import StagedTangent.Source.Tree
import StagedTangent.Text.Quoted

/-!
# Failures of parsing

A failure says how far reading got, which characters it is about, what stands there and what could
have stood there. Of two failures the one that got further counts; failures at one place are joined
into one that expects what either expects.
-/

namespace StagedTangent.Source

/-- What could have stood at the place of a failure. -/
inductive Expectation where
  | char (c : Char)
  | endOfInput
deriving DecidableEq, Repr

def Expectation.text : Expectation → String
  | .char c => Text.quoted c
  | .endOfInput => "end of input"

/-- Why reading could not go on. -/
inductive Reason where
  /-- Something stands there that does not fit. -/
  | unexpected
  /-- A numeral fits, but its number is too large for an index. -/
  | indexTooLarge
deriving DecidableEq, Repr

/-- A place where reading could not go on. -/
structure Failure where
  /-- How many characters had been read. -/
  reach : Nat
  span : Span
  /-- The character that stands there, if one does and it is to be shown. -/
  found : Option Char
  expected : List Expectation
  reason : Reason
deriving DecidableEq, Repr

namespace Failure

/-- Add what one failure expects to what another expects. -/
def expecting (f : Failure) (expected : List Expectation) : Failure :=
  { f with expected := expected.foldl (fun all e => all.insert e) f.expected }

/-- The failure that got further. At one place, the first, expecting what either expects. -/
def furthest (f g : Failure) : Failure :=
  if f.reach < g.reach then g
  else if g.reach < f.reach then f
  else f.expecting g.expected

/-- What is known from two readings of which each may have met a failure. -/
def join? (f g : Option Failure) : Option Failure :=
  match f, g with
  | some f, some g => some (g.furthest f)
  | some f, none => some f
  | none, g => g

/-- A failure, given one that an earlier reading has met. -/
def after? (f : Failure) (earlier : Option Failure) : Failure :=
  match earlier with
  | some g => f.furthest g
  | none => f

/-- What a failure expects, in the order of the texts. -/
def expectedTexts (f : Failure) : List String :=
  (f.expected.map Expectation.text).mergeSort (fun a b => decide (a ≤ b))

/-- A failure in words. -/
def message (f : Failure) : String :=
  let found := match f.found with
    | some c => "found " ++ Text.quoted c
    | none => "found end of input"
  match f.expectedTexts with
  | [] => found
  | [one] => found ++ " but expected " ++ one
  | several => found ++ " but expected one of " ++ ", ".intercalate several

end Failure

end StagedTangent.Source
