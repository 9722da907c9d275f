import StagedTangent.Op.Basic

/-!
# Tapes

A tape holds the nodes of a program in the order in which they were recorded. It is made of
segments: extending a program leaves its segments alone and adds one behind them. The number of
nodes is kept with the segments and brought up to date with every segment, instead of being counted
again. As a list of nodes, `Tape.nodes`, a tape is the concatenation of its segments, and looking a
node up walks past whole segments to the same place of that list.
-/

namespace StagedTangent

/-- A reference as programs and messages show it. -/
def referenceText (node : Nat) : String := "%" ++ toString node

/-- One step of a recorded computation. -/
inductive Node where
  /-- The argument at a position of the argument list. -/
  | argument (position : Nat)
  /-- An operation applied to nodes of the same tape. -/
  | call (op : Op) (operands : List Nat)
deriving DecidableEq, Repr

/-- The nodes that a node uses. -/
def Node.operands : Node → List Nat
  | .argument _ => []
  | .call _ operands => operands

/-- Node storage made of segments, with the number of nodes in all of them. -/
structure Tape where
  segments : List (Array Node)
  size : Nat
  size_eq : size = (segments.flatMap Array.toList).length
deriving DecidableEq, Repr

namespace Tape

def empty : Tape := ⟨[], 0, rfl⟩

/-- Every node, in the order of recording. -/
def nodes (tape : Tape) : List Node := tape.segments.flatMap Array.toList

/-- The node at a place of a list of segments. -/
def getIn? : List (Array Node) → Nat → Option Node
  | [], _ => none
  | segment :: rest, place =>
    if place < segment.size then segment[place]? else getIn? rest (place - segment.size)

/-- The node that a reference names. -/
def get? (tape : Tape) (node : Nat) : Option Node := getIn? tape.segments node

/-- Add a segment at the end. An empty one is not stored. -/
def append (tape : Tape) (nodes : Array Node) : Tape :=
  if nodes.isEmpty then tape
  else ⟨tape.segments ++ [nodes], tape.size + nodes.size, by simp [tape.size_eq]⟩

/-- The tape of a single segment. -/
def ofNodes (nodes : Array Node) : Tape := empty.append nodes

/-- Whether both tapes begin with one and the same segment. -/
def sameFirstSegment (tape other : Tape) : Bool :=
  match tape.segments, other.segments with
  | first :: _, second :: _ => decide (first = second)
  | _, _ => false

@[simp] theorem nodes_empty : empty.nodes = [] := rfl

@[simp] theorem nodes_append (tape : Tape) (nodes : Array Node) :
    (tape.append nodes).nodes = tape.nodes ++ nodes.toList := by
  unfold append
  split
  · simp_all
  · simp [Tape.nodes]

@[simp] theorem nodes_ofNodes (nodes : Array Node) : (ofNodes nodes).nodes = nodes.toList := by
  simp [ofNodes]

/-- The size is the length of the list of nodes. -/
theorem size_eq_length (tape : Tape) : tape.size = tape.nodes.length := tape.size_eq

theorem getIn?_eq (segments : List (Array Node)) (place : Nat) :
    getIn? segments place = (segments.flatMap Array.toList)[place]? := by
  induction segments generalizing place with
  | nil => rfl
  | cons segment rest ih =>
    simp only [getIn?, List.flatMap_cons]
    split
    · rw [List.getElem?_append_left (by simpa), Array.getElem?_toList]
    · rw [ih, List.getElem?_append_right (by simp; omega), Array.length_toList]

/-- Looking a node up agrees with the list of nodes. -/
theorem get?_eq (tape : Tape) (node : Nat) : tape.get? node = tape.nodes[node]? :=
  getIn?_eq tape.segments node

end Tape

end StagedTangent
