import Mathlib.Data.List.Induction
import StagedTangent.Program.Reach
import StagedTangent.Staging.Plan

/-!
# Tables over a tape

Several passes go over a tape once and fill a table with one entry per node, each computed from the
node and the entries before it: what depends on a node, the stages, the values of a plain
evaluation. This module collects what holds of every such table. The main statement is
`getElem?_fill`: an entry is computed from the table of the nodes before it.
-/

namespace StagedTangent

universe u v

variable {ν : Type u} {β : Type v}

/-- The table that a pass over nodes fills. -/
def fill (entry : Array β → ν → β) (nodes : List ν) : Array β :=
  nodes.foldl (fun table node => table.push (entry table node)) #[]

@[simp] theorem fill_nil (entry : Array β → ν → β) : fill entry [] = #[] := rfl

/-- The last node adds the last entry. -/
theorem fill_concat (entry : Array β → ν → β) (nodes : List ν) (node : ν) :
    fill entry (nodes ++ [node]) =
      (fill entry nodes).push (entry (fill entry nodes) node) := by
  simp [fill, List.foldl_append]

/-- A table has one entry per node. -/
@[simp] theorem size_fill (entry : Array β → ν → β) (nodes : List ν) :
    (fill entry nodes).size = nodes.length := by
  induction nodes using List.reverseRecOn with
  | nil => rfl
  | append_singleton nodes node ih => simp [fill_concat, ih]

/-- Entries do not change when nodes are added. -/
theorem getElem?_fill_append (entry : Array β → ν → β) (nodes more : List ν) {place : Nat}
    (h : place < nodes.length) :
    (fill entry (nodes ++ more))[place]? = (fill entry nodes)[place]? := by
  induction more using List.reverseRecOn with
  | nil => rw [List.append_nil]
  | append_singleton more node ih =>
    have hsize : place < (fill entry (nodes ++ more)).size := by
      rw [size_fill, List.length_append]
      omega
    rw [← List.append_assoc, fill_concat, Array.getElem?_push_lt hsize,
      ← Array.getElem?_eq_getElem hsize, ih]

/-- An entry is computed from its node and the table of the nodes before it. -/
theorem getElem?_fill (entry : Array β → ν → β) {nodes : List ν} {place : Nat} {node : ν}
    (h : nodes[place]? = some node) :
    (fill entry nodes)[place]? = some (entry (fill entry (nodes.take place)) node) := by
  obtain ⟨hlt, rfl⟩ := List.getElem?_eq_some_iff.1 h
  have hsize : (fill entry (nodes.take place)).size = place := by
    rw [size_fill, List.length_take]
    omega
  have hfirst : (fill entry nodes)[place]? = (fill entry (nodes.take (place + 1)))[place]? := by
    have hplace : place < (nodes.take (place + 1)).length := by
      rw [List.length_take]
      omega
    have := getElem?_fill_append entry (nodes.take (place + 1)) (nodes.drop (place + 1)) hplace
    rwa [List.take_append_drop] at this
  rw [hfirst, List.take_succ_eq_append_getElem hlt, fill_concat,
    Array.getElem?_push, if_pos hsize.symm]

/-- The table of the first nodes, read with a value for the places beyond it. -/
theorem getD_fill_take (entry : Array β → ν → β) {nodes : List ν} {place bound : Nat} (d : β)
    (hplace : place < bound) :
    (fill entry (nodes.take bound)).getD place d = (fill entry nodes).getD place d := by
  rcases Nat.lt_or_ge place nodes.length with hlt | hge
  · have hplace' : place < (nodes.take bound).length := by
      rw [List.length_take]
      omega
    have h := getElem?_fill_append entry (nodes.take bound) (nodes.drop bound) hplace'
    rw [List.take_append_drop] at h
    simp only [Array.getD_eq_getD_getElem?, h]
  · have hshort : nodes.length ≤ bound := by omega
    rw [List.take_of_length_le hshort]

/-- Two passes that agree on every entry, as long as they agree so far, fill the same table. -/
theorem fill_congr {entry entry' : Array β → ν → β} {nodes : List ν}
    (h : ∀ place node, nodes[place]? = some node →
      entry (fill entry' (nodes.take place)) node = entry' (fill entry' (nodes.take place)) node) :
    fill entry nodes = fill entry' nodes := by
  induction nodes using List.reverseRecOn with
  | nil => rfl
  | append_singleton nodes node ih =>
    have hnodes : fill entry nodes = fill entry' nodes := by
      refine ih fun place node' hnode => ?_
      have hlt : place < nodes.length := (List.getElem?_eq_some_iff.1 hnode).1
      have := h place node' (by rw [List.getElem?_append_left hlt, hnode])
      rwa [List.take_append_of_le_length (Nat.le_of_lt hlt)] at this
    have hlast := h nodes.length node (by simp)
    rw [List.take_left'] at hlast
    · rw [fill_concat, fill_concat, hnodes, hlast]
    · rfl

namespace Program

/-! ## Stages -/

theorem stages_eq_fill (p : Program) : p.stages = fill p.stageOf p.nodes := rfl

@[simp] theorem size_stages (p : Program) : p.stages.size = p.nodes.length := by
  rw [stages_eq_fill, size_fill]

/-- The stage of a node; nodes off the tape have stage zero. -/
def stage (p : Program) (node : Nat) : Nat := p.stages.getD node 0

/-- The stage of an argument is that of its position. -/
theorem stage_argument {p : Program} {node position : Nat}
    (h : p.nodes[node]? = some (.argument position)) :
    p.stage node = p.stageOfArgument position := by
  rw [stage, Array.getD_eq_getD_getElem?, stages_eq_fill, getElem?_fill _ h]
  rfl

/-- A call whose operands stand before it has the latest of their stages. -/
theorem stage_call {p : Program} {node : Nat} {op : Op} {operands : List Nat}
    (h : p.nodes[node]? = some (.call op operands)) (hlt : ∀ operand ∈ operands, operand < node) :
    p.stage node = (operands.map p.stage).foldl max 0 := by
  rw [stage, Array.getD_eq_getD_getElem?, stages_eq_fill, getElem?_fill _ h, Option.getD_some]
  have hmap : operands.map (fun operand => (fill p.stageOf (p.nodes.take node)).getD operand 0) =
      operands.map p.stage :=
    List.map_congr_left fun operand ho => getD_fill_take _ _ (hlt operand ho)
  simp only [stageOf, hmap]

end Program

end StagedTangent
