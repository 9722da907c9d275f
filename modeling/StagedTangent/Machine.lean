/-!
# Machine words and memory

A machine computes with numbers of 64 bits, on arrays that are filled in place and in blocks of
memory. Every sum and difference can be too large or too small for a word, every access to an array
can be out of bounds, and a block can be too long to be asked for. What happens to a number that is
no word is a property of the machine: a checked one breaks off with a fault, a wrapping one goes on
with what is left of the number. At an access out of bounds and at a block that is too long both
break off. Memory itself does not run out: a block that is not too long is always there.
-/

namespace StagedTangent

/-- Why a computation breaks off. -/
inductive Fault where
  /-- A sum that is not a word. -/
  | sum (left right : Nat)
  /-- A difference that is not a word. -/
  | difference (left right : Nat)
  /-- An entry that is not in the array. -/
  | outOfBounds (place size : Nat)
  /-- A block for so many records of so many bytes each. -/
  | capacity (count bytes : Nat)
deriving DecidableEq, Repr

def Fault.message : Fault → String
  | .sum .. => "attempt to add with overflow"
  | .difference .. => "attempt to subtract with overflow"
  | .outOfBounds place size => s!"index out of bounds: the len is {size} but the index is {place}"
  | .capacity .. => "capacity overflow"

/-- Words are the numbers below this one. -/
def wordBound : Nat := Nat.pow 2 64

/-- A block of memory has fewer bytes than this, so that the distance of any two of them is a word
with a sign. -/
def blockBound : Nat := Nat.pow 2 63

/-- Ask for a block that holds a number of records of some bytes each. -/
def reserve (count bytes : Nat) : Except Fault Unit :=
  if count * bytes < blockBound then .ok () else .error (.capacity count bytes)

/-- Read an entry of an array. -/
def readAt {β : Type} (xs : Array β) (place : Nat) : Except Fault β :=
  match xs[place]? with
  | some x => .ok x
  | none => .error (.outOfBounds place xs.size)

/-- Write an entry of an array. -/
def writeAt {β : Type} (xs : Array β) (place : Nat) (x : β) : Except Fault (Array β) :=
  if place < xs.size then .ok (xs.setIfInBounds place x) else .error (.outOfBounds place xs.size)

/-- The first thing that is found going through a list. -/
def findFirst {β γ : Type} (f : β → Except Fault (Option γ)) : List β → Except Fault (Option γ)
  | [] => .ok none
  | x :: xs => do
    match ← f x with
    | some y => .ok (some y)
    | none => findFirst f xs

/-- How a machine adds and subtracts words. -/
structure Machine where
  add : Nat → Nat → Except Fault Nat
  sub : Nat → Nat → Except Fault Nat

namespace Machine

/-- A machine that breaks off at a number that is not a word. -/
def checked : Machine where
  add a b := if a + b < wordBound then .ok (a + b) else .error (.sum a b)
  sub a b := if b ≤ a then .ok (a - b) else .error (.difference a b)

/-- A machine that keeps the last 64 bits of a number. -/
def wrapping : Machine where
  add a b := .ok ((a + b) % wordBound)
  sub a b := .ok ((a + (wordBound - b)) % wordBound)

end Machine

end StagedTangent
