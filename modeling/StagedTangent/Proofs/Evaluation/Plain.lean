import StagedTangent.Evaluation.Run
import StagedTangent.Proofs.Program.Path
import StagedTangent.Proofs.Sequencing

/-!
# Plain evaluation

A program can be evaluated without any code: go over the tape in order and compute every node from
the nodes before it, whether the result needs it or not. This is the meaning that the code of a
program is measured against. A node need not have a value: its operation can fail on the values of
its operands, and then everything computed from it is blocked.

The values are of any type and the operations mean any function on them. A function between two
kinds of values that goes along with the operations carries one evaluation over into the other
(`outcomeIn_map`).
-/

namespace StagedTangent

/-- What plain evaluation finds at a node. -/
inductive Outcome (V : Type) where
  | value (v : V)
  /-- Every operand has a value, but the operation fails on them. -/
  | failure (e : RunError)
  /-- Some operand has no value, or there is no such input. -/
  | blocked

namespace Outcome

variable {V W : Type}

def value? : Outcome V → Option V
  | .value v => some v
  | _ => none

def failure? : Outcome V → Option RunError
  | .failure e => some e
  | _ => none

/-- The outcome of an operation, given the values of its operands if all of them have one. -/
def ofCall (interpret : Op → List V → Except RunError V) (op : Op) :
    Option (List V) → Outcome V
  | none => .blocked
  | some operands =>
    match interpret op operands with
    | .ok v => .value v
    | .error e => .failure e

@[simp] theorem value?_value (v : V) : (value v).value? = some v := rfl
@[simp] theorem value?_failure (e : RunError) : (failure e : Outcome V).value? = none := rfl
@[simp] theorem value?_blocked : (blocked : Outcome V).value? = none := rfl
@[simp] theorem failure?_value (v : V) : (value v).failure? = none := rfl
@[simp] theorem failure?_failure (e : RunError) : (failure e : Outcome V).failure? = some e := rfl

theorem value?_eq_some {o : Outcome V} {v : V} : o.value? = some v ↔ o = .value v := by
  cases o <;> simp [value?]

theorem failure?_eq_some {o : Outcome V} {e : RunError} :
    o.failure? = some e ↔ o = .failure e := by
  cases o <;> simp [failure?]

/-- An operation has a value if its operands have and it succeeds on them. -/
theorem value?_ofCall_eq_some {interpret : Op → List V → Except RunError V} {op : Op}
    {operands : Option (List V)} {v : V} :
    (ofCall interpret op operands).value? = some v ↔
      ∃ vs, operands = some vs ∧ interpret op vs = .ok v := by
  cases operands with
  | none => simp [ofCall]
  | some vs => cases h : interpret op vs <;> simp [ofCall, h]

/-- The same with every value replaced. -/
def map (f : V → W) : Outcome V → Outcome W
  | .value v => .value (f v)
  | .failure e => .failure e
  | .blocked => .blocked

@[simp] theorem value?_map (f : V → W) (o : Outcome V) : (o.map f).value? = o.value?.map f := by
  cases o <;> rfl

theorem ofCall_eq_failure {interpret : Op → List V → Except RunError V} {op : Op}
    {operands : Option (List V)} {e : RunError} :
    ofCall interpret op operands = .failure e ↔
      ∃ vs, operands = some vs ∧ interpret op vs = .error e := by
  cases operands with
  | none => simp [ofCall]
  | some vs => cases h : interpret op vs <;> simp [ofCall, h]

end Outcome

/-! ## Nodes in order -/

variable {V W : Type}

/-- The outcome of a node, given those of the nodes before it. -/
def outcomeOf (interpret : Op → List V → Except RunError V) (inputs : List V)
    (table : Array (Outcome V)) : Node → Outcome V
  | .argument position =>
    match inputs[position]? with
    | some v => .value v
    | none => .blocked
  | .call op operands =>
    .ofCall interpret op (operands.mapM fun operand => (table.getD operand .blocked).value?)

section Nodes

variable (interpret : Op → List V → Except RunError V) (inputs : List V)

/-- The outcome of the node at a place of a list of nodes. -/
def outcomeIn (nodes : List Node) (node : Nat) : Outcome V :=
  (fill (outcomeOf interpret inputs) nodes).getD node .blocked

/-- The value of the node at a place of a list of nodes, if it has one. -/
def valueIn (nodes : List Node) (node : Nat) : Option V :=
  (outcomeIn interpret inputs nodes node).value?

variable {interpret inputs} {nodes : List Node} {node : Nat}

theorem outcomeIn_of_length_le (h : nodes.length ≤ node) :
    outcomeIn interpret inputs nodes node = .blocked := by
  rw [outcomeIn, Array.getD_eq_getD_getElem?,
    Array.getElem?_eq_none (by rw [size_fill]; exact h), Option.getD_none]

theorem outcomeIn_argument {position : Nat} (h : nodes[node]? = some (.argument position)) :
    outcomeIn interpret inputs nodes node =
      match inputs[position]? with
      | some v => .value v
      | none => .blocked := by
  rw [outcomeIn, Array.getD_eq_getD_getElem?, getElem?_fill _ h]
  rfl

/-- A call is computed from its operands. -/
theorem outcomeIn_call {op : Op} {operands : List Nat}
    (h : nodes[node]? = some (.call op operands)) (hlt : ∀ operand ∈ operands, operand < node) :
    outcomeIn interpret inputs nodes node =
      .ofCall interpret op (operands.mapM (valueIn interpret inputs nodes)) := by
  rw [outcomeIn, Array.getD_eq_getD_getElem?, getElem?_fill _ h, Option.getD_some, outcomeOf]
  refine congrArg _ (mapM_congr_left fun operand ho => ?_)
  rw [getD_fill_take _ _ (hlt operand ho)]
  rfl

/-- Nodes keep their outcome when others are added. -/
theorem outcomeIn_append (more : List Node) (h : node < nodes.length) :
    outcomeIn interpret inputs (nodes ++ more) node = outcomeIn interpret inputs nodes node := by
  simp only [outcomeIn, Array.getD_eq_getD_getElem?, getElem?_fill_append _ _ _ h]

theorem outcomeIn_extend {nodes' : List Node} (hpre : nodes <+: nodes')
    (h : node < nodes.length) :
    outcomeIn interpret inputs nodes' node = outcomeIn interpret inputs nodes node := by
  obtain ⟨more, rfl⟩ := hpre
  exact outcomeIn_append more h

theorem valueIn_extend {nodes' : List Node} (hpre : nodes <+: nodes') (h : node < nodes.length) :
    valueIn interpret inputs nodes' node = valueIn interpret inputs nodes node := by
  rw [valueIn, outcomeIn_extend hpre h]
  rfl

/-- Only nodes on the tape have values. -/
theorem lt_length_of_valueIn {v : V} (h : valueIn interpret inputs nodes node = some v) :
    node < nodes.length := by
  by_contra hge
  rw [valueIn, outcomeIn_of_length_le (by omega)] at h
  cases h

/-- The value of a call recorded behind other nodes. -/
theorem valueIn_concat_call {op : Op} {operands : List Nat} :
    valueIn interpret inputs (nodes ++ [.call op operands]) nodes.length =
      (Outcome.ofCall interpret op (operands.mapM (valueIn interpret inputs nodes))).value? := by
  have h : (nodes ++ [Node.call op operands])[nodes.length]? = some (.call op operands) := by simp
  rw [valueIn, outcomeIn, Array.getD_eq_getD_getElem?, getElem?_fill _ h, Option.getD_some,
    List.take_left' rfl, outcomeOf]
  rfl

/-- Further inputs change nothing where no argument asks for them. -/
theorem outcomeIn_inputs_append (more : List V)
    (h : ∀ place position : Nat, nodes[place]? = some (.argument position) →
      position < inputs.length) :
    outcomeIn interpret (inputs ++ more) nodes = outcomeIn interpret inputs nodes := by
  have hfill : fill (outcomeOf interpret (inputs ++ more)) nodes =
      fill (outcomeOf interpret inputs) nodes := by
    refine fill_congr fun place node hnode => ?_
    cases node with
    | argument position =>
      simp only [outcomeOf, List.getElem?_append_left (h _ _ hnode)]
    | call op operands => rfl
  funext node
  rw [outcomeIn, hfill, outcomeIn]

end Nodes

/-! ## From one kind of values to another -/

/-- A function that goes along with the operations. -/
def Commutes (f : V → W) (interpret : Op → List V → Except RunError V)
    (interpret' : Op → List W → Except RunError W) : Prop :=
  ∀ op vs, interpret' op (vs.map f) = (interpret op vs).map f

section Change

variable {f : V → W} {interpret : Op → List V → Except RunError V}
  {interpret' : Op → List W → Except RunError W} {inputs : List V}

theorem Commutes.ofCall (h : Commutes f interpret interpret') (op : Op)
    (operands : Option (List V)) :
    Outcome.ofCall interpret' op (operands.map (List.map f)) =
      (Outcome.ofCall interpret op operands).map f := by
  cases operands with
  | none => rfl
  | some vs =>
    simp only [Option.map_some, Outcome.ofCall, h op vs]
    cases interpret op vs with
    | ok v => rfl
    | error e => rfl

/-- An evaluation is carried over by a function that goes along with the operations. -/
theorem outcomeIn_map (h : Commutes f interpret interpret') (nodes : List Node) (node : Nat) :
    outcomeIn interpret' (inputs.map f) nodes node =
      (outcomeIn interpret inputs nodes node).map f := by
  have hfill : fill (outcomeOf interpret' (inputs.map f)) nodes =
      (fill (outcomeOf interpret inputs) nodes).map (Outcome.map f) := by
    induction nodes using List.reverseRecOn with
    | nil => rw [fill_nil, fill_nil, Array.map_empty]
    | append_singleton nodes last ih =>
      rw [fill_concat, fill_concat, ih, Array.map_push]
      refine congrArg _ ?_
      cases last with
      | argument position =>
        rw [outcomeOf, outcomeOf, List.getElem?_map]
        cases inputs[position]? <;> rfl
      | call op operands =>
        rw [outcomeOf, outcomeOf, ← h.ofCall, mapM_map_some]
        refine congrArg _ (mapM_congr_left fun operand _ => ?_)
        rw [← Outcome.value?_map, Array.getD_eq_getD_getElem?, Array.getD_eq_getD_getElem?,
          Array.getElem?_map]
        cases (fill (outcomeOf interpret inputs) nodes)[operand]? <;> rfl
  rw [outcomeIn, outcomeIn, hfill, Array.getD_eq_getD_getElem?, Array.getD_eq_getD_getElem?,
    Array.getElem?_map]
  cases (fill (outcomeOf interpret inputs) nodes)[node]? <;> rfl

theorem valueIn_map (h : Commutes f interpret interpret') (nodes : List Node) (node : Nat) :
    valueIn interpret' (inputs.map f) nodes node =
      (valueIn interpret inputs nodes node).map f := by
  rw [valueIn, valueIn, outcomeIn_map h, Outcome.value?_map]

end Change

/-! ## Programs -/

namespace Program

variable (p : Program) (interpret : Op → List V → Except RunError V) (inputs : List V)

/-- The outcome of a node of a program on given inputs. -/
def outcome (node : Nat) : Outcome V := outcomeIn interpret inputs p.nodes node

/-- The value of a node of a program on given inputs, if it has one. -/
def value? (node : Nat) : Option V := valueIn interpret inputs p.nodes node

/-- Every node that the result needs has a value. -/
def Evaluates : Prop := ∀ node, p.Needed node → ∃ v, p.value? interpret inputs node = some v

variable {p interpret inputs}

theorem value?_eq (node : Nat) :
    p.value? interpret inputs node = (p.outcome interpret inputs node).value? := rfl

theorem value?_eq_some {node : Nat} {v : V} :
    p.value? interpret inputs node = some v ↔ p.outcome interpret inputs node = .value v :=
  Outcome.value?_eq_some

/-- The value of an argument is the input at its position. -/
theorem value?_argument {node position : Nat} (h : p.nodes[node]? = some (.argument position)) :
    p.value? interpret inputs node = inputs[position]? := by
  rw [value?_eq, outcome, outcomeIn_argument h]
  cases inputs[position]? <;> rfl

theorem outcome_call (hp : p.Regular) {node : Nat} {op : Op} {operands : List Nat}
    (h : p.nodes[node]? = some (.call op operands)) :
    p.outcome interpret inputs node =
      .ofCall interpret op (operands.mapM (p.value? interpret inputs)) :=
  outcomeIn_call h fun _ ho => hp.operand_lt h ho

/-- A call with a value has operands with values. -/
theorem value?_call_eq_some (hp : p.Regular) {node : Nat} {op : Op} {operands : List Nat}
    (h : p.nodes[node]? = some (.call op operands)) {v : V} :
    p.value? interpret inputs node = some v ↔
      ∃ vs, operands.mapM (p.value? interpret inputs) = some vs ∧ interpret op vs = .ok v := by
  rw [value?_eq, outcome_call hp h, Outcome.value?_ofCall_eq_some]

/-- Every argument of a program has a value if there are enough inputs. -/
theorem exists_value?_argument (hp : p.Regular) (hinputs : inputs.length = p.arguments.length)
    {node position : Nat} (h : p.nodes[node]? = some (.argument position)) :
    ∃ v, p.value? interpret inputs node = some v := by
  have hlt : position < inputs.length := hinputs ▸ hp.position_lt h
  exact ⟨inputs[position], by rw [value?_argument h, List.getElem?_eq_getElem hlt]⟩

/-- A value at one end of a path comes from values along it. -/
theorem exists_value?_of_path (hp : p.Regular) {node earlier : Nat} (h : p.Path node earlier)
    (hv : ∃ v, p.value? interpret inputs node = some v) :
    ∃ v, p.value? interpret inputs earlier = some v := by
  induction h with
  | refl => exact hv
  | tail _ huse ih =>
    obtain ⟨op, operands, hnode, ho⟩ := huse.exists_call
    obtain ⟨v, hv⟩ := ih
    obtain ⟨vs, hvs, -⟩ := (value?_call_eq_some hp hnode).1 hv
    exact exists_of_mapM_eq_some hvs _ ho

/-- Two evaluations are related at every node where both have a value, if their inputs are related
and operations on related values yield related values. -/
theorem value?_related {interpret' : Op → List W → Except RunError W} {inputs' : List W}
    {r : V → W → Prop} (hp : p.Regular)
    (hops : ∀ op vs ws v w, List.Forall₂ r vs ws → interpret op vs = .ok v →
      interpret' op ws = .ok w → r v w)
    (hinputs : List.Forall₂ r inputs inputs') {node : Nat} {v : V} {w : W}
    (hv : p.value? interpret inputs node = some v)
    (hw : p.value? interpret' inputs' node = some w) : r v w := by
  induction node using Nat.strongRecOn generalizing v w with
  | ind node ih =>
    obtain ⟨entry, hentry⟩ : ∃ entry, p.nodes[node]? = some entry :=
      ⟨_, List.getElem?_eq_getElem (lt_length_of_valueIn hv)⟩
    cases entry with
    | argument position =>
      rw [value?_argument hentry] at hv hw
      exact rel_of_getElem? hinputs hv hw
    | call op operands =>
      obtain ⟨vs, hvs, hop⟩ := (value?_call_eq_some hp hentry).1 hv
      obtain ⟨ws, hws, hop'⟩ := (value?_call_eq_some hp hentry).1 hw
      refine hops op vs ws v w ?_ hop hop'
      exact forall₂_of_mapM_of_mapM
        (fun o ho _ _ hv' hw' => ih o (hp.operand_lt hentry ho) hv' hw') hvs hws

/-- If the result has a value then so has everything it needs. -/
theorem evaluates_iff (hp : p.Regular) :
    p.Evaluates interpret inputs ↔ ∃ v, p.value? interpret inputs p.result = some v := by
  constructor
  · intro h
    exact h p.result (needed_result hp)
  · intro h node hneeded
    exact exists_value?_of_path hp ((needed_iff hp).1 hneeded) h

/-- Where a needed node has no value, some needed operation fails by itself. -/
theorem exists_failure (hp : p.Regular) (hinputs : inputs.length = p.arguments.length)
    {node : Nat} (hneeded : p.Needed node) (hv : p.value? interpret inputs node = none) :
    ∃ n e, p.Needed n ∧ p.outcome interpret inputs n = .failure e := by
  induction node using Nat.strongRecOn with
  | ind node ih =>
    obtain ⟨entry, hentry⟩ := hneeded.exists_node hp
    cases entry with
    | argument position =>
      obtain ⟨v, hsome⟩ : ∃ v, p.value? interpret inputs node = some v :=
        exists_value?_argument hp hinputs hentry
      rw [hv] at hsome
      cases hsome
    | call op operands =>
      by_cases hall : ∀ o ∈ operands, ∃ v, p.value? interpret inputs o = some v
      · obtain ⟨vs, hvs⟩ := exists_mapM_eq_some hall
        cases hrun : interpret op vs with
        | ok v =>
          rw [(value?_call_eq_some hp hentry).2 ⟨vs, hvs, hrun⟩] at hv
          cases hv
        | error e =>
          refine ⟨node, e, hneeded, ?_⟩
          rw [outcome_call hp hentry]
          exact Outcome.ofCall_eq_failure.2 ⟨vs, hvs, hrun⟩
      · push Not at hall
        obtain ⟨o, ho, hnone⟩ := hall
        exact ih o (hp.operand_lt hentry ho) (hneeded.operand hp hentry ho)
          (Option.eq_none_iff_forall_ne_some.2 hnone)

end Program

end StagedTangent
