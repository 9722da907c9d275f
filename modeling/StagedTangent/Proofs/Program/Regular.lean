import Mathlib.Data.List.Basic
import StagedTangent.Program.WellFormed

/-!
# What well-formedness says

`Program.WellFormed` runs the checks in the order in which defects are reported. The same condition
as independent facts about the parts of a program is `Program.Regular`, and
`wellFormed_iff_regular` shows that the two agree. Everything proved about programs starts from the
fields of `Regular`.
-/

namespace StagedTangent.Program

/-- A program whose parts fit together. -/
structure Regular (p : Program) : Prop where
  /-- Every base argument is listed. -/
  baseArity_le : p.baseArity ≤ p.arguments.length
  /-- The list names an argument node at each position. -/
  argument_at : ∀ {position node : Nat}, p.arguments[position]? = some node →
    p.nodes[node]? = some (.argument position)
  /-- Every argument node is listed at its position. -/
  argument_listed : ∀ {position node : Nat}, p.nodes[node]? = some (.argument position) →
    p.arguments[position]? = some node
  /-- Every call has as many operands as its operation takes. -/
  operand_count : ∀ {node : Nat} {op : Op} {operands : List Nat},
    p.nodes[node]? = some (.call op operands) → operands.length = op.arity
  /-- Every operand stands before the call. -/
  operand_lt : ∀ {node : Nat} {op : Op} {operands : List Nat} {operand : Nat},
    p.nodes[node]? = some (.call op operands) → operand ∈ operands → operand < node
  /-- The result is on the tape. -/
  result_lt : p.result < p.nodes.length

variable {p : Program}

theorem arityDefect?_eq_none : p.arityDefect? = none ↔ p.baseArity ≤ p.arguments.length := by
  simp [arityDefect?]

theorem entryDefect?_eq_none {node position : Nat} :
    p.entryDefect? (node, position) = none ↔ p.nodes[node]? = some (.argument position) := by
  simp [entryDefect?, node?_eq]

theorem operandDefect?_eq_none {size node operand : Nat} :
    operandDefect? size node operand = none ↔ operand < size ∧ operand < node := by
  unfold operandDefect?
  split
  · simp; omega
  · split
    · simp; omega
    · simp; omega

theorem resultDefect?_eq_none : p.resultDefect? = none ↔ p.result < p.nodes.length := by
  simp [resultDefect?, size_eq_length]

theorem nodeDefect?_argument {position place : Nat} :
    p.nodeDefect? (.argument position, place) = none ↔ p.arguments[position]? = some place := by
  simp [nodeDefect?]

theorem nodeDefect?_call {op : Op} {operands : List Nat} {place : Nat} :
    p.nodeDefect? (.call op operands, place) = none ↔
      operands.length = op.arity ∧
        ∀ operand ∈ operands, operand < p.nodes.length ∧ operand < place := by
  by_cases h : operands.length = op.arity
  · simp [nodeDefect?, h, operandDefect?_eq_none, size_eq_length]
  · simp [nodeDefect?, h]

/-- The checks pass exactly on the programs whose parts fit together. -/
theorem wellFormed_iff_regular : p.WellFormed ↔ p.Regular := by
  have hmem : ∀ {γ : Type} {l : List γ} {x : γ} {i : Nat}, (x, i) ∈ l.zipIdx ↔ l[i]? = some x :=
    List.mem_zipIdx_iff_getElem?
  simp only [WellFormed, defect?, Option.or_eq_none_iff, List.findSome?_eq_none_iff, Prod.forall,
    arityDefect?_eq_none, entryDefect?_eq_none, resultDefect?_eq_none, hmem]
  constructor
  · rintro ⟨harity, hentries, hnodes, hresult⟩
    refine ⟨harity, fun h => hentries _ _ h, fun h => ?_, fun h => ?_, fun h ho => ?_, hresult⟩
    · exact nodeDefect?_argument.1 (hnodes _ _ h)
    · exact (nodeDefect?_call.1 (hnodes _ _ h)).1
    · exact ((nodeDefect?_call.1 (hnodes _ _ h)).2 _ ho).2
  · intro h
    refine ⟨h.baseArity_le, fun _ _ => h.argument_at, fun node place hnode => ?_, h.result_lt⟩
    cases node with
    | argument position => exact nodeDefect?_argument.2 (h.argument_listed hnode)
    | call op operands =>
      have hplace : place < p.nodes.length := (List.getElem?_eq_some_iff.1 hnode).1
      refine nodeDefect?_call.2 ⟨h.operand_count hnode, fun operand ho => ?_⟩
      have := h.operand_lt hnode ho
      omega

theorem WellFormed.regular (h : p.WellFormed) : p.Regular := wellFormed_iff_regular.1 h

namespace Regular

/-- A listed argument is on the tape. -/
theorem argument_lt (h : p.Regular) {position node : Nat}
    (ha : p.arguments[position]? = some node) : node < p.nodes.length :=
  (List.getElem?_eq_some_iff.1 (h.argument_at ha)).1

/-- The position of an argument node is in range. -/
theorem position_lt (h : p.Regular) {position node : Nat}
    (hn : p.nodes[node]? = some (.argument position)) : position < p.arguments.length :=
  (List.getElem?_eq_some_iff.1 (h.argument_listed hn)).1

/-- An operand of a call on the tape is on the tape. -/
theorem operand_lt_length (h : p.Regular) {node : Nat} {op : Op} {operands : List Nat}
    {operand : Nat} (hn : p.nodes[node]? = some (.call op operands)) (ho : operand ∈ operands) :
    operand < p.nodes.length :=
  Nat.lt_trans (h.operand_lt hn ho) (List.getElem?_eq_some_iff.1 hn).1

/-- The base arguments and the directions together are the arguments. -/
theorem length_append (h : p.Regular) {V : Type} {args directions : List V}
    (hargs : args.length = p.baseArity) (hdirections : directions.length = p.order) :
    (args ++ directions).length = p.arguments.length := by
  have := h.baseArity_le
  rw [List.length_append, hargs, hdirections, order]
  omega

end Regular

end StagedTangent.Program
