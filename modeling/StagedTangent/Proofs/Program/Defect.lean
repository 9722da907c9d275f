import StagedTangent.Proofs.Earliest
import StagedTangent.Proofs.Program.Regular

/-!
# What the check reports

`Program.DefectAt` lists everything that is wrong with a program, each thing at a spot of its own:
the base arity, the entries of the argument list, the nodes with their operands, the result, in this
order. `check_reports_earliest` shows that the check passes exactly on regular programs and that it
fails exactly with the defect that comes first.
-/

namespace StagedTangent.Program

/-! ## All defects -/

/-- What is wrong with a node at a place. The number of operands comes before the operands. -/
inductive NodeDefectAt (p : Program) (place : Nat) : Node → Spot → Defect → Prop
  | stray {position : Nat} (h : p.arguments[position]? ≠ some place) :
    p.NodeDefectAt place (.argument position) [] (.strayArgument place)
  | operandCount {op : Op} {operands : List Nat} (h : operands.length ≠ op.arity) :
    p.NodeDefectAt place (.call op operands) []
      (.operandCount place op.opcode op.arity operands.length)
  | dangling {op : Op} {operands : List Nat} {i operand : Nat} (ho : operands[i]? = some operand)
      (h : p.nodes.length ≤ operand) :
    p.NodeDefectAt place (.call op operands) [i] (.danglingOperand place operand)
  | later {op : Op} {operands : List Nat} {i operand : Nat} (ho : operands[i]? = some operand)
      (hlt : operand < p.nodes.length) (h : place ≤ operand) :
    p.NodeDefectAt place (.call op operands) [i] (.laterOperand place operand)

/-- What is wrong with a program. -/
inductive DefectAt (p : Program) : Spot → Defect → Prop
  | baseArity (h : p.arguments.length < p.baseArity) :
    p.DefectAt [0] (.missingBaseArguments p.baseArity p.arguments.length)
  | entry {position node : Nat} (hentry : p.arguments[position]? = some node)
      (h : p.nodes[node]? ≠ some (.argument position)) :
    p.DefectAt [1, position] (.misplacedArgument position node)
  | node {place : Nat} {node : Node} {spot : Spot} {defect : Defect}
      (hnode : p.nodes[place]? = some node) (h : p.NodeDefectAt place node spot defect) :
    p.DefectAt (2 :: place :: spot) defect
  | result (h : p.nodes.length ≤ p.result) :
    p.DefectAt [3] (.danglingResult p.result p.nodes.length)

variable {p : Program} {place : Nat} {node : Node} {spot : Spot} {defect defect' : Defect}

theorem NodeDefectAt.unique (h : p.NodeDefectAt place node spot defect)
    (h' : p.NodeDefectAt place node spot defect') : defect = defect' := by
  cases h with
  | stray => cases h'; rfl
  | operandCount => cases h'; rfl
  | dangling ho hle =>
    cases h' with
    | dangling ho' => rw [Option.some.inj (ho.symm.trans ho')]
    | later ho' hlt' =>
      obtain rfl := Option.some.inj (ho.symm.trans ho')
      exact absurd hlt' (Nat.not_lt.2 hle)
  | later ho hlt =>
    cases h' with
    | dangling ho' hle' =>
      obtain rfl := Option.some.inj (ho.symm.trans ho')
      exact absurd hlt (Nat.not_lt.2 hle')
    | later ho' => rw [Option.some.inj (ho.symm.trans ho')]

/-- No spot has two things wrong with it. -/
theorem DefectAt.unique (h : p.DefectAt spot defect) (h' : p.DefectAt spot defect') :
    defect = defect' := by
  cases h with
  | baseArity => cases h'; rfl
  | entry hentry =>
    cases h' with
    | entry hentry' => rw [Option.some.inj (hentry.symm.trans hentry')]
  | node hnode h =>
    cases h' with
    | node hnode' h' =>
      cases hnode.symm.trans hnode'
      exact h.unique h'
  | result => cases h'; rfl

/-! ## The checks, one by one -/

variable (p)

theorem finds_arityDefect? : Finds (fun spot defect => spot = [] ∧
    p.arguments.length < p.baseArity ∧
      defect = .missingBaseArguments p.baseArity p.arguments.length) p.arityDefect? :=
  Finds.ite _

theorem finds_entryDefect? (entry node : Nat) : Finds (fun spot defect => spot = [] ∧
    p.nodes[node]? ≠ some (.argument entry) ∧ defect = .misplacedArgument entry node)
      (p.entryDefect? (node, entry)) := by
  rw [entryDefect?, ← ite_not, node?_eq]
  exact Finds.ite _

theorem finds_resultDefect? : Finds (fun spot defect => spot = [] ∧
    p.nodes.length ≤ p.result ∧ defect = .danglingResult p.result p.nodes.length)
      p.resultDefect? := by
  rw [resultDefect?, size_eq_length]
  exact Finds.ite _

theorem finds_operandDefect? (place operand : Nat) : Finds (fun spot defect =>
    spot = [] ∧ p.nodes.length ≤ operand ∧ defect = .danglingOperand place operand ∨
      spot = [] ∧ (operand < p.nodes.length ∧ place ≤ operand) ∧
        defect = .laterOperand place operand)
      (operandDefect? p.nodes.length place operand) := by
  refine .guard fun hlt => (Finds.ite _).congr fun spot defect => ?_
  rw [and_iff_right (Nat.not_le.1 hlt)]

theorem finds_nodeDefect? (place : Nat) (node : Node) :
    Finds (p.NodeDefectAt place node) (p.nodeDefect? (node, place)) := by
  cases node with
  | argument position =>
    have hcheck : p.nodeDefect? (.argument position, place) =
        if p.arguments[position]? ≠ some place then some (.strayArgument place) else none :=
      (ite_not ..).symm
    rw [hcheck]
    refine (Finds.ite _).congr fun spot defect => ?_
    constructor
    · rintro ⟨rfl, h, rfl⟩
      exact .stray h
    · rintro ⟨h⟩
      exact ⟨rfl, h, rfl⟩
  | call op operands =>
    rw [nodeDefect?, size_eq_length]
    refine (Finds.guard fun _ => .findSome? fun i operand _ =>
      p.finds_operandDefect? place operand).congr fun spot defect => ?_
    constructor
    · rintro (⟨rfl, h, rfl⟩ | ⟨i, operand, _, ho, rfl, ⟨rfl, h, rfl⟩ | ⟨rfl, h, rfl⟩⟩)
      · exact .operandCount h
      · exact .dangling ho h
      · exact .later ho h.1 h.2
    · intro h
      cases h with
      | operandCount h => exact .inl ⟨rfl, h, rfl⟩
      | dangling ho h => exact .inr ⟨_, _, [], ho, rfl, .inl ⟨rfl, h, rfl⟩⟩
      | later ho hlt h => exact .inr ⟨_, _, [], ho, rfl, .inr ⟨rfl, ⟨hlt, h⟩, rfl⟩⟩

theorem finds_entries : Finds (fun spot defect => ∃ i node rest, p.arguments[i]? = some node ∧
    spot = i :: rest ∧ rest = [] ∧ p.nodes[node]? ≠ some (.argument i) ∧
      defect = .misplacedArgument i node) (p.arguments.zipIdx.findSome? p.entryDefect?) :=
  .findSome?_zipIdx fun i node _ => p.finds_entryDefect? i node

theorem finds_nodes : Finds (fun spot defect => ∃ place node rest, p.nodes[place]? = some node ∧
    spot = place :: rest ∧ p.NodeDefectAt place node rest defect)
      (p.nodes.zipIdx.findSome? p.nodeDefect?) :=
  .findSome?_zipIdx fun place node _ => p.finds_nodeDefect? place node

/-! ## The whole check -/

/-- The first defect is what comes first of all defects. -/
theorem finds_defect? : Finds p.DefectAt p.defect? := by
  -- The checks stand behind each other in the order in which `DefectAt` numbers the sections.
  have htape := (p.finds_nodes.within 2).or (p.finds_resultDefect?.within 3) fun _ _ _ _ h h' => by
    obtain ⟨rest, rfl, -⟩ := h
    obtain ⟨rest', rfl, -⟩ := h'
    exact section_lt (by decide) rest rest'
  have hparts := (p.finds_entries.within 1).or htape fun _ _ _ _ h h' => by
    obtain ⟨rest, rfl, -⟩ := h
    obtain ⟨rest', rfl, -⟩ | ⟨rest', rfl, -⟩ := h' <;> exact section_lt (by decide) rest rest'
  have hall := (p.finds_arityDefect?.within 0).or hparts fun _ _ _ _ h h' => by
    obtain ⟨rest, rfl, -⟩ := h
    obtain ⟨rest', rfl, -⟩ | ⟨rest', rfl, -⟩ | ⟨rest', rfl, -⟩ := h' <;>
      exact section_lt (by decide) rest rest'
  refine hall.congr fun spot defect => ?_
  constructor
  · rintro (⟨_, rfl, rfl, h, rfl⟩ | ⟨_, rfl, i, node, _, hentry, rfl, rfl, h, rfl⟩ |
      ⟨_, rfl, place, node, rest, hnode, rfl, h⟩ | ⟨_, rfl, rfl, h, rfl⟩)
    · exact .baseArity h
    · exact .entry hentry h
    · exact .node hnode h
    · exact .result h
  · intro h
    cases h with
    | baseArity h => exact .inl ⟨_, rfl, rfl, h, rfl⟩
    | entry hentry h => exact .inr (.inl ⟨_, rfl, _, _, [], hentry, rfl, rfl, h, rfl⟩)
    | node hnode h => exact .inr (.inr (.inl ⟨_, rfl, _, _, _, hnode, rfl, h⟩))
    | result h => exact .inr (.inr (.inr ⟨_, rfl, rfl, h, rfl⟩))

/-- The check passes exactly on the programs whose parts fit together, and fails exactly with what
comes first of all that is wrong. -/
theorem check_reports_earliest :
    (p.check = .ok () ↔ p.Regular) ∧
      ∀ defect, p.check = .error defect ↔ ∃ spot, Earliest p.DefectAt spot defect := by
  refine ⟨(check_eq_ok_iff p).trans wellFormed_iff_regular, fun defect => ?_⟩
  have hcheck : p.check = .error defect ↔ p.defect? = some defect := by
    unfold check
    split <;> simp_all
  rw [hcheck]
  exact p.finds_defect?.eq_some_iff fun _ _ _ => DefectAt.unique

end StagedTangent.Program
