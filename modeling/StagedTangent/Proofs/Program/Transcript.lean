import StagedTangent.Program.Placeholder
import StagedTangent.Proofs.Program.Defect
import StagedTangent.Proofs.Program.Recorder
import StagedTangent.Proofs.Sequencing

/-!
# What a computation with placeholders records

A computation that stays with the placeholders of its own recording leaves a transcript of itself:
the arguments, then the calls of its steps in their order. The nodes that its placeholders stand for
are known from the numbers of calls of its steps alone (`Computation.node`), so the program can be
written down without recording anything (`Computation.program`). Every placeholder stands for a node
that is there already, so the only thing that can be wrong with this program is a number of operands,
and only the steps that apply any operation to any placeholders can get it wrong. The main statement
is `Computation.tryRecord_transcript`.
-/

namespace StagedTangent

namespace TraceStep

/-- The step uses the first so many placeholders, and no other recording. -/
def BuildsOn (count : Nat) : TraceStep → Prop
  | .apply _ first rest => ∀ place ∈ first :: rest, place < count
  | .between _ left right | .dot left right => left < count ∧ right < count
  | .numberBefore _ _ place | .numberBehind _ place _ | .method _ place | .constant place _ =>
    place < count
  | .foreign | .fail _ => False

instance (count : Nat) : (s : TraceStep) → Decidable (s.BuildsOn count)
  | .apply _ first rest => inferInstanceAs (Decidable (∀ place ∈ first :: rest, place < count))
  | .between _ left right | .dot left right =>
    inferInstanceAs (Decidable (left < count ∧ right < count))
  | .numberBefore _ _ place | .numberBehind _ place _ | .method _ place | .constant place _ =>
    inferInstanceAs (Decidable (place < count))
  | .foreign | .fail _ => inferInstanceAs (Decidable False)

/-- The calls that a step records, when its placeholders stand for given nodes and so many nodes
have been recorded before. A number is a constant in front of the call that uses it. -/
def calls (node : Nat → Nat) (size : Nat) : TraceStep → List Node
  | .apply op first rest => [.call op ((first :: rest).map node)]
  | .between operator left right => [.call operator.op [node left, node right]]
  | .numberBefore operator number place =>
    [.call (.constant number) [], .call operator.op [size, node place]]
  | .numberBehind operator place number =>
    [.call (.constant number) [], .call operator.op [node place, size]]
  | .dot left right => [.call .dot [node left, node right]]
  | .method m place => [.call m.op [node place]]
  | .constant _ value => [.call (.constant value) []]
  | .foreign | .fail _ => []

/-- How many calls a step records. -/
def width : TraceStep → Nat
  | .numberBefore .. | .numberBehind .. => 2
  | .apply .. | .between .. | .dot .. | .method .. | .constant .. => 1
  | .foreign | .fail _ => 0

variable {s : TraceStep} {count size : Nat} {node node' : Nat → Nat}

@[simp] theorem length_calls (node : Nat → Nat) (size : Nat) (s : TraceStep) :
    (s.calls node size).length = s.width := by
  cases s <;> rfl

theorem BuildsOn.width_pos (h : s.BuildsOn count) : 0 < s.width := by
  cases s with
  | foreign => exact h.elim
  | fail => exact h.elim
  | _ => simp [width]

/-- Only the nodes of the placeholders that it builds on matter to a step. -/
theorem BuildsOn.calls_congr (h : s.BuildsOn count)
    (hnode : ∀ place < count, node place = node' place) : s.calls node size = s.calls node' size := by
  cases s with
  | apply op first rest =>
    have hmap : (first :: rest).map node = (first :: rest).map node' :=
      List.map_congr_left fun place hplace => hnode place (h place hplace)
    rw [calls, calls, hmap]
  | between operator left right => rw [calls, calls, hnode left h.1, hnode right h.2]
  | dot left right => rw [calls, calls, hnode left h.1, hnode right h.2]
  | numberBefore operator number place => rw [calls, calls, hnode place h]
  | numberBehind operator place number => rw [calls, calls, hnode place h]
  | method m place => rw [calls, calls, hnode place h]
  | constant place value => rfl
  | foreign => rfl
  | fail reason => rfl

/-- A call of a step uses nodes recorded before it. It has as many operands as its operation takes,
unless the step applies any operation to any placeholders. -/
theorem BuildsOn.call_fits (h : s.BuildsOn count) (hnode : ∀ place < count, node place < size)
    {k : Nat} {n : Node} (hn : (s.calls node size)[k]? = some n) :
    ∃ op operands, n = .call op operands ∧ (∀ operand ∈ operands, operand < size + k) ∧
      (operands.length = op.arity ∨ ∃ first rest, s = .apply op first rest ∧
        operands.length = rest.length + 1) := by
  have hbefore : ∀ place < count, node place < size + k := fun place hplace =>
    Nat.lt_add_right k (hnode place hplace)
  have hsingle : ∀ {m : Node}, [m][k]? = some n → n = m := fun hm => by
    simpa using (List.mem_of_getElem? hm)
  -- In the two forms with a number the constant comes first, and the operator uses it.
  have hdouble : ∀ {value : Binary64} {op : Op} {operands : List Nat},
      [Node.call (.constant value) [], .call op operands][k]? = some n →
      n = .call (.constant value) [] ∨ n = .call op operands ∧ size < size + k := fun hm => by
    match k with
    | 0 => exact .inl (Option.some.inj hm).symm
    | 1 => exact .inr ⟨(Option.some.inj hm).symm, Nat.lt_succ_self _⟩
  cases s with
  | apply op first rest =>
    refine ⟨op, _, hsingle hn, ?_, .inr ⟨first, rest, rfl, by simp⟩⟩
    rintro operand ho
    obtain ⟨place, hplace, rfl⟩ := List.mem_map.1 ho
    exact hbefore place (h place hplace)
  | between operator left right =>
    refine ⟨_, _, hsingle hn, ?_, .inl operator.arity_op.symm⟩
    simp [hbefore left h.1, hbefore right h.2]
  | numberBefore operator number place =>
    rcases hdouble hn with rfl | ⟨rfl, hlt⟩
    · exact ⟨_, _, rfl, nofun, .inl rfl⟩
    · exact ⟨_, _, rfl, by simp [hlt, hbefore place h], .inl operator.arity_op.symm⟩
  | numberBehind operator place number =>
    rcases hdouble hn with rfl | ⟨rfl, hlt⟩
    · exact ⟨_, _, rfl, nofun, .inl rfl⟩
    · exact ⟨_, _, rfl, by simp [hlt, hbefore place h], .inl operator.arity_op.symm⟩
  | dot left right =>
    refine ⟨_, _, hsingle hn, ?_, .inl rfl⟩
    simp [hbefore left h.1, hbefore right h.2]
  | method m place =>
    refine ⟨_, _, hsingle hn, ?_, .inl m.arity_op.symm⟩
    simp [hbefore place h]
  | constant place value => exact ⟨_, _, hsingle hn, nofun, .inl rfl⟩
  | foreign => exact h.elim
  | fail reason => exact h.elim

end TraceStep

/-- The number of arguments of a function and the steps that it takes on their placeholders. -/
structure Computation where
  arity : Nat
  steps : List TraceStep
deriving DecidableEq, Repr

namespace Computation

/-- The computation until its steps from a given one on. -/
def before (c : Computation) (i : Nat) : Computation := ⟨c.arity, c.steps.take i⟩

/-- The computation with one more step. -/
def add (c : Computation) (s : TraceStep) : Computation := ⟨c.arity, c.steps ++ [s]⟩

/-- The number of placeholders. -/
def count (c : Computation) : Nat := c.arity + c.steps.length

/-- The number of nodes. -/
def size (c : Computation) : Nat := c.steps.foldl (fun size s => size + s.width) c.arity

/-- The node that the placeholder at a place stands for: an argument, or the last call of a step. -/
def node (c : Computation) (place : Nat) : Nat :=
  if place < c.arity then place else (c.before (place - c.arity + 1)).size - 1

/-- The arguments, then the calls of every step. -/
def nodes (c : Computation) : List Node :=
  (List.range c.arity).map .argument ++
    c.steps.zipIdx.flatMap fun (s, i) => s.calls c.node (c.before i).size

/-- The program with these nodes whose result is the placeholder at a place. -/
def program (c : Computation) (result : Nat) : Program :=
  ⟨.ofNodes c.nodes.toArray, List.range c.arity, c.node result, c.arity⟩

/-- Every step builds on the placeholders of the recording that are there before it. -/
def OnItsOwn (c : Computation) : Prop :=
  ∀ (i : Nat) (s : TraceStep), c.steps[i]? = some s → s.BuildsOn (c.arity + i)

instance (c : Computation) : Decidable c.OnItsOwn :=
  decidable_of_iff (∀ entry ∈ c.steps.zipIdx, entry.1.BuildsOn (c.arity + entry.2)) <| by
    simp only [Prod.forall, List.mem_zipIdx_iff_getElem?]
    exact forall_comm

variable {c : Computation} {s : TraceStep} {place i : Nat}

/-! ## Taking one more step -/

@[simp] theorem before_length (c : Computation) : c.before c.steps.length = c := by
  rw [before, List.take_length]

theorem before_add (h : i ≤ c.steps.length) : (c.add s).before i = c.before i := by
  rw [before, add, List.take_append_of_le_length h]
  rfl

@[simp] theorem count_add (c : Computation) (s : TraceStep) : (c.add s).count = c.count + 1 := by
  simp [count, add, Nat.add_assoc]

@[simp] theorem size_add (c : Computation) (s : TraceStep) :
    (c.add s).size = c.size + s.width := by
  simp [size, add]

/-- The placeholders that are there keep their nodes. -/
theorem node_add (h : place < c.count) : (c.add s).node place = c.node place := by
  have harity : (c.add s).arity = c.arity := rfl
  rcases Nat.lt_or_ge place c.arity with hlt | hge
  · rw [node, node, harity, if_pos hlt, if_pos hlt]
  · have hplace : place - c.arity + 1 ≤ c.steps.length := by
      rw [count] at h
      omega
    rw [node, node, harity, if_neg (Nat.not_lt.2 hge), if_neg (Nat.not_lt.2 hge),
      before_add hplace]

/-- The new placeholder stands for the last call. -/
theorem node_add_count (c : Computation) (s : TraceStep) :
    (c.add s).node c.count = c.size + s.width - 1 := by
  have hcount : c.count - c.arity + 1 = (c.add s).steps.length := by
    rw [count, add, List.length_append, List.length_singleton]
    omega
  have hlast : ¬ c.count < (c.add s).arity := by
    rw [count]
    exact Nat.not_lt.2 (Nat.le_add_right ..)
  rw [node, if_neg hlast, show (c.add s).arity = c.arity from rfl, hcount, before_length, size_add]

theorem onItsOwn_add : (c.add s).OnItsOwn ↔ c.OnItsOwn ∧ s.BuildsOn c.count := by
  constructor
  · intro h
    refine ⟨fun i t ht => h i t ?_, h c.steps.length s ?_⟩
    · exact (List.getElem?_append_left (List.getElem?_eq_some_iff.1 ht).1).trans ht
    · exact List.getElem?_concat_length
  · rintro ⟨h, hs⟩ i t ht
    rcases Nat.lt_trichotomy i c.steps.length with hlt | rfl | hgt
    · exact h i t ((List.getElem?_append_left hlt).symm.trans ht)
    · cases List.getElem?_concat_length.symm.trans ht
      exact hs
    · have := (List.getElem?_eq_some_iff.1 ht).1
      simp [add] at this
      omega

/-- Computations are taken step by step. -/
theorem induction_on {motive : Computation → Prop} (c : Computation)
    (start : ∀ arity, motive ⟨arity, []⟩) (add : ∀ c s, motive c → motive (c.add s)) : motive c := by
  obtain ⟨arity, steps⟩ := c
  induction steps using List.reverseRecOn with
  | nil => exact start arity
  | append_singleton steps s ih => exact add ⟨arity, steps⟩ s ih

/-- A step that was there before records the same calls. -/
theorem calls_add (h : c.OnItsOwn) {t : TraceStep} (ht : c.steps[i]? = some t) :
    t.calls (c.add s).node ((c.add s).before i).size = t.calls c.node (c.before i).size := by
  have hi : i < c.steps.length := (List.getElem?_eq_some_iff.1 ht).1
  rw [before_add (Nat.le_of_lt hi)]
  refine (h i t ht).calls_congr fun place hplace => node_add ?_
  exact Nat.lt_trans hplace (Nat.add_lt_add_left hi _)

/-- The new step sees the nodes that were there before it. -/
theorem calls_add_length (hs : s.BuildsOn c.count) :
    s.calls (c.add s).node ((c.add s).before c.steps.length).size = s.calls c.node c.size := by
  rw [before_add (Nat.le_refl _), before_length]
  exact hs.calls_congr fun place hplace => node_add hplace

/-- A step adds its calls. -/
theorem nodes_add (h : c.OnItsOwn) (hs : s.BuildsOn c.count) :
    (c.add s).nodes = c.nodes ++ s.calls c.node c.size := by
  have hbefore : c.steps.zipIdx.flatMap
        (fun (t, i) => t.calls (c.add s).node ((c.add s).before i).size) =
      c.steps.zipIdx.flatMap fun (t, i) => t.calls c.node (c.before i).size :=
    List.flatMap_congr fun ⟨t, i⟩ hmem => calls_add h (List.mem_zipIdx_iff_getElem?.1 hmem)
  have hlast : ([s].zipIdx c.steps.length).flatMap
        (fun (t, i) => t.calls (c.add s).node ((c.add s).before i).size) =
      s.calls c.node c.size :=
    (List.flatMap_singleton ..).trans (calls_add_length hs)
  rw [nodes, show (c.add s).steps = c.steps ++ [s] from rfl, List.zipIdx_append,
    List.flatMap_append, hbefore, Nat.zero_add, hlast, ← List.append_assoc]
  rfl

theorem length_nodes (h : c.OnItsOwn) : c.nodes.length = c.size := by
  induction c using induction_on with
  | start arity => simp [nodes, size]
  | add c s ih =>
    obtain ⟨hc, hs⟩ := onItsOwn_add.1 h
    rw [nodes_add hc hs, List.length_append, ih hc, TraceStep.length_calls, size_add]

/-- A placeholder stands for a node that is there already. -/
theorem node_lt_size (h : c.OnItsOwn) (hplace : place < c.count) : c.node place < c.size := by
  induction c using induction_on with
  | start arity =>
    have harity : place < arity := hplace
    rwa [node, if_pos harity]
  | add c s ih =>
    obtain ⟨hc, hs⟩ := onItsOwn_add.1 h
    have hwidth := hs.width_pos
    rw [size_add]
    rcases Nat.lt_or_eq_of_le (Nat.le_of_lt_succ (count_add c s ▸ hplace)) with hlt | rfl
    · have := ih hc hlt
      rw [node_add hlt]
      omega
    · rw [node_add_count]
      omega

/-! ## The nodes, one by one -/

theorem getElem?_nodes_argument (h : place < c.arity) :
    c.nodes[place]? = some (.argument place) := by
  rw [nodes, List.getElem?_append_left (by simpa using h), List.getElem?_map,
    List.getElem?_range h]
  rfl

/-- The calls of a step stand behind the nodes that were recorded before it. -/
theorem getElem?_nodes_step (h : c.OnItsOwn) {t : TraceStep} {k : Nat} (ht : c.steps[i]? = some t)
    (hk : k < t.width) : c.nodes[(c.before i).size + k]? =
      (t.calls c.node (c.before i).size)[k]? := by
  induction c using induction_on with
  | start arity => simp at ht
  | add c s ih =>
    obtain ⟨hc, hs⟩ := onItsOwn_add.1 h
    have hlength := length_nodes hc
    rcases Nat.lt_trichotomy i c.steps.length with hlt | rfl | hgt
    · have ht' : c.steps[i]? = some t := (List.getElem?_append_left hlt).symm.trans ht
      have hcall : k < (t.calls c.node (c.before i).size).length := by
        rwa [TraceStep.length_calls]
      have hnode := ih hc ht'
      rw [List.getElem?_eq_getElem hcall] at hnode
      have hplace := (List.getElem?_eq_some_iff.1 hnode).1
      rw [nodes_add hc hs, calls_add hc ht', before_add (Nat.le_of_lt hlt),
        List.getElem?_append_left hplace, hnode, List.getElem?_eq_getElem hcall]
    · cases List.getElem?_concat_length.symm.trans ht
      rw [nodes_add hc hs, calls_add_length hs, before_add (Nat.le_refl _), before_length,
        ← hlength, List.getElem?_append_right (Nat.le_add_right ..), Nat.add_sub_cancel_left]
    · have := (List.getElem?_eq_some_iff.1 ht).1
      simp [add] at this
      omega

/-- Behind the arguments there are only calls of the steps. -/
theorem exists_step (hge : c.arity ≤ place) (hlt : place < c.size) :
    ∃ i t k, c.steps[i]? = some t ∧ k < t.width ∧ place = (c.before i).size + k := by
  induction c using induction_on with
  | start arity => exact absurd hlt (Nat.not_lt.2 hge)
  | add c s ih =>
    rcases Nat.lt_or_ge place c.size with hbefore | hafter
    · obtain ⟨i, t, k, ht, hk, rfl⟩ := ih hge hbefore
      have hi : i < c.steps.length := (List.getElem?_eq_some_iff.1 ht).1
      refine ⟨i, t, k, (List.getElem?_append_left hi).trans ht, hk, ?_⟩
      rw [before_add (Nat.le_of_lt hi)]
    · refine ⟨c.steps.length, s, place - c.size, List.getElem?_concat_length, ?_, ?_⟩
      · rw [size_add] at hlt
        omega
      · rw [before_add (Nat.le_refl _), before_length]
        omega

/-! ## The nodes of the placeholders -/

theorem before_succ {t : TraceStep} (ht : c.steps[i]? = some t) :
    c.before (i + 1) = (c.before i).add t := by
  rw [before, List.take_add_one, ht]
  rfl

/-- The placeholder of a step stands for its last call. -/
theorem node_step {t : TraceStep} (ht : c.steps[i]? = some t) :
    c.node (c.arity + i) = (c.before i).size + t.width - 1 := by
  rw [node, if_neg (Nat.not_lt.2 (Nat.le_add_right ..)), Nat.add_sub_cancel_left, before_succ ht,
    size_add]

theorem onItsOwn_before (h : c.OnItsOwn) (i : Nat) : (c.before i).OnItsOwn := by
  intro j t ht
  rw [before, List.getElem?_take] at ht
  split at ht
  · exact h j t ht
  · cases ht

theorem node_before (hplace : place < c.arity + i) : (c.before i).node place = c.node place := by
  have harity : (c.before i).arity = c.arity := rfl
  rw [node, node, harity]
  split
  · rfl
  · next hge =>
    have htake : (c.before i).before (place - c.arity + 1) = c.before (place - c.arity + 1) := by
      rw [before, before, before, List.take_take, Nat.min_eq_left (by omega)]
    rw [htake]

/-- The placeholders of the arguments and of the first steps stand for nodes recorded before the
next step. -/
theorem node_lt_before (h : c.OnItsOwn) (hi : i ≤ c.steps.length) (hplace : place < c.arity + i) :
    c.node place < (c.before i).size := by
  have hcount : (c.before i).count = c.arity + i := by
    rw [count, before, List.length_take, Nat.min_eq_left hi]
  rw [← node_before hplace]
  exact node_lt_size (onItsOwn_before h i) (hcount ▸ hplace)

/-- Later steps have later nodes. -/
theorem node_step_lt (h : c.OnItsOwn) {j : Nat} (hij : i < j) (hj : j < c.steps.length) :
    c.node (c.arity + i) < c.node (c.arity + j) := by
  have ht := List.getElem?_eq_getElem hj
  have hwidth := (h j _ ht).width_pos
  have := node_lt_before h (Nat.le_of_lt hj) (Nat.add_lt_add_left hij c.arity)
  rw [node_step ht]
  omega

/-! ## What can be wrong -/

@[simp] theorem nodes_program (c : Computation) (result : Nat) :
    (c.program result).nodes = c.nodes := by
  rw [program, Program.nodes, Tape.nodes_ofNodes, List.toList_toArray]

/-- A node is an argument, or a call that uses nodes before it and has as many operands as its
operation takes, unless a step applies the operation itself. -/
theorem node_fits (h : c.OnItsOwn) {n : Node} (hn : c.nodes[place]? = some n) :
    (place < c.arity ∧ n = .argument place) ∨
      ∃ op operands, n = .call op operands ∧ (∀ operand ∈ operands, operand < place) ∧
        (operands.length = op.arity ∨ ∃ i first rest, c.steps[i]? = some (.apply op first rest) ∧
          place = c.node (c.arity + i) ∧ operands.length = rest.length + 1) := by
  rcases Nat.lt_or_ge place c.arity with hlt | hge
  · exact .inl ⟨hlt, Option.some.inj (hn.symm.trans (getElem?_nodes_argument hlt))⟩
  · have hplace := (List.getElem?_eq_some_iff.1 hn).1
    obtain ⟨i, t, k, ht, hk, rfl⟩ := exists_step hge (length_nodes h ▸ hplace)
    have hi : i < c.steps.length := (List.getElem?_eq_some_iff.1 ht).1
    rw [getElem?_nodes_step h ht hk] at hn
    obtain ⟨op, operands, rfl, hbefore, hcount⟩ :=
      (h i t ht).call_fits (fun place => node_lt_before h (Nat.le_of_lt hi)) hn
    refine .inr ⟨op, operands, rfl, hbefore, hcount.imp_right ?_⟩
    rintro ⟨first, rest, rfl, hlength⟩
    refine ⟨i, first, rest, ht, ?_, hlength⟩
    rw [node_step ht, Nat.lt_one_iff.1 hk]
    rfl

/-- The only thing that can be wrong with the program is the number of operands that a step applies
an operation to. -/
theorem defectAt_program (h : c.OnItsOwn) {result : Nat} (hresult : result < c.count) {spot : Spot}
    {defect : Defect} : (c.program result).DefectAt spot defect ↔
      ∃ i op first rest, c.steps[i]? = some (.apply op first rest) ∧ rest.length + 1 ≠ op.arity ∧
        spot = [2, c.node (c.arity + i)] ∧
        defect = .operandCount (c.node (c.arity + i)) op.opcode op.arity (rest.length + 1) := by
  have hlength := length_nodes h
  have hlisted : ∀ {position node : Nat}, (c.program result).arguments[position]? = some node ↔
      position < c.arity ∧ node = position := by
    intro position node
    rw [program, List.getElem?_eq_some_iff]
    simp [eq_comm]
  constructor
  · intro hdefect
    cases hdefect with
    | baseArity hlt => exact absurd hlt (by simp [program])
    | entry hentry hne =>
      obtain ⟨hlt, rfl⟩ := hlisted.1 hentry
      rw [nodes_program] at hne
      exact absurd (getElem?_nodes_argument hlt) hne
    | node hnode hwrong =>
      rw [nodes_program] at hnode
      have hplace := (List.getElem?_eq_some_iff.1 hnode).1
      rcases node_fits h hnode with ⟨hlt, rfl⟩ | ⟨op, operands, rfl, hbefore, hcount⟩
      · cases hwrong with
        | stray hne => exact absurd (hlisted.2 ⟨hlt, rfl⟩) hne
      · cases hwrong with
        | operandCount hne =>
          obtain ⟨i, first, rest, ht, rfl, hrest⟩ := hcount.resolve_left hne
          rw [hrest] at hne
          exact ⟨i, op, first, rest, ht, hne, rfl, by rw [hrest]⟩
        | dangling ho hle =>
          have := hbefore _ (List.mem_of_getElem? ho)
          rw [nodes_program] at hle
          omega
        | later ho _ hle => exact absurd (hbefore _ (List.mem_of_getElem? ho)) (Nat.not_lt.2 hle)
    | result hle =>
      rw [nodes_program, hlength] at hle
      exact absurd (node_lt_size h hresult) (Nat.not_lt.2 hle)
  · rintro ⟨i, op, first, rest, ht, hne, rfl, rfl⟩
    have hnode := getElem?_nodes_step h ht Nat.one_pos
    have hplace : c.node (c.arity + i) = (c.before i).size + 0 := by
      rw [node_step ht]
      rfl
    rw [← hplace, ← nodes_program c result] at hnode
    have hdefect := Program.DefectAt.node hnode (.operandCount (by simpa using hne))
    simpa using hdefect

/-! ## The recording -/

/-- The recorder and the placeholders after all steps. -/
def trace (c : Computation) : Trace :=
  ⟨[⟨.empty, c.nodes.toArray, List.range c.arity, c.arity⟩],
    (List.range c.count).map fun place => ⟨0, c.node place⟩⟩

theorem trace_start (arity : Nat) : Trace.start arity = (Computation.mk arity []).trace := by
  rw [Trace.start, Recorder.start_eq, trace]
  have hplaceholders : (List.range arity).map (Placeholder.mk 0) =
      (List.range arity).map fun place => ⟨0, (Computation.mk arity []).node place⟩ := by
    refine List.map_congr_left fun place hplace => ?_
    rw [node, if_pos (List.mem_range.1 hplace)]
  simp [nodes, count, hplaceholders]

theorem get_trace (h : place < c.count) : c.trace.get place = .ok ⟨0, c.node place⟩ := by
  rw [Trace.get, trace, List.getElem?_map, List.getElem?_range h]
  rfl

/-- Operands that are all there are used, in their order. -/
theorem applyTo_trace {op : Op} {first : Nat} {rest : List Nat}
    (h : ∀ place ∈ first :: rest, place < c.count) :
    c.trace.applyTo op first rest = .ok (c.trace.addCall 0 op ((first :: rest).map c.node)) := by
  have hfirst := get_trace (h first List.mem_cons_self)
  have hrest : rest.mapM c.trace.get = .ok (rest.map fun place => ⟨0, c.node place⟩) :=
    mapM_eq_ok_map fun place hplace => get_trace (h place (List.mem_cons_of_mem first hplace))
  have hnodes : (rest.map fun place => (⟨0, c.node place⟩ : Placeholder)).mapM (Trace.nodeIn 0) =
      .ok ((rest.map fun place => (⟨0, c.node place⟩ : Placeholder)).map Placeholder.node) := by
    refine mapM_eq_ok_map fun p hp => ?_
    obtain ⟨place, -, rfl⟩ := List.mem_map.1 hp
    rfl
  rw [Trace.applyTo, hfirst, ok_bind, hrest, ok_bind, hnodes, ok_bind, List.map_map]
  rfl

/-- Recording a call in the recording that is the only one. -/
theorem record_only (nodes : List Node) (arguments : List Nat) (baseArity : Nat)
    (placeholders : List Placeholder) (op : Op) (operands : List Nat) :
    Trace.record ⟨[⟨.empty, nodes.toArray, arguments, baseArity⟩], placeholders⟩ 0 op operands =
      (nodes.length, ⟨[⟨.empty, (nodes ++ [Node.call op operands]).toArray, arguments, baseArity⟩],
        placeholders⟩) := by
  simp [Trace.record, Recorder.call, Recorder.size, Recorder.push, Tape.size_eq_length]

/-- A call that is recorded through a placeholder comes behind all nodes. -/
theorem addCall_trace (h : c.OnItsOwn) (op : Op) (operands : List Nat) :
    c.trace.addCall 0 op operands =
      Trace.add ⟨[⟨.empty, (c.nodes ++ [Node.call op operands]).toArray, List.range c.arity, c.arity⟩],
        c.trace.placeholders⟩ ⟨0, c.size⟩ := by
  rw [Trace.addCall, trace, record_only, length_nodes h]

/-- A number is recorded first, so the call behind it finds one more node. -/
theorem record_trace (h : c.OnItsOwn) (number : Binary64) :
    c.trace.record 0 (.constant number) [] = (c.size,
      ⟨[⟨.empty, (c.nodes ++ [Node.call (.constant number) []]).toArray, List.range c.arity, c.arity⟩],
        c.trace.placeholders⟩) := by
  rw [trace, record_only, length_nodes h]

/-- One more step adds its calls and a placeholder of the last of them. -/
theorem trace_add (h : c.OnItsOwn) (hs : s.BuildsOn c.count) : (c.add s).trace =
    Trace.add ⟨[⟨.empty, (c.nodes ++ s.calls c.node c.size).toArray, List.range c.arity, c.arity⟩],
      c.trace.placeholders⟩ ⟨0, c.size + s.width - 1⟩ := by
  have hplaceholders : ((List.range c.count).map fun place =>
      (⟨0, (c.add s).node place⟩ : Placeholder)) = c.trace.placeholders := by
    refine List.map_congr_left fun place hplace => ?_
    rw [node_add (List.mem_range.1 hplace)]
  rw [trace, nodes_add h hs, count_add, List.range_succ, List.map_append, hplaceholders,
    List.map_singleton, node_add_count]
  rfl

/-- Every step takes the recording on to the next one. -/
theorem step_trace (h : c.OnItsOwn) (hs : s.BuildsOn c.count) :
    c.trace.step s = .ok (c.add s).trace := by
  rw [trace_add h hs]
  have hpair : ∀ {left right : Nat}, left < c.count ∧ right < c.count →
      ∀ place ∈ [left, right], place < c.count := by
    simp
  cases s with
  | apply op first rest =>
    rw [Trace.step, applyTo_trace hs, addCall_trace h]
    rfl
  | between operator left right =>
    rw [Trace.step, applyTo_trace (hpair hs), addCall_trace h]
    rfl
  | numberBefore operator number place =>
    rw [Trace.step, get_trace hs, ok_bind]
    simp only [record_trace h, Trace.addCall, record_only]
    rw [List.length_append, length_nodes h, List.append_assoc]
    rfl
  | numberBehind operator place number =>
    rw [Trace.step, get_trace hs, ok_bind]
    simp only [record_trace h, Trace.addCall, record_only]
    rw [List.length_append, length_nodes h, List.append_assoc]
    rfl
  | dot left right =>
    rw [Trace.step, applyTo_trace (hpair hs), addCall_trace h]
    rfl
  | method m place =>
    rw [Trace.step, applyTo_trace (List.forall_mem_singleton.2 hs), addCall_trace h]
    rfl
  | constant place value =>
    rw [Trace.step, get_trace hs, ok_bind, addCall_trace h]
    rfl
  | foreign => exact hs.elim
  | fail reason => exact hs.elim

theorem steps_trace (steps : List TraceStep)
    (h : (Computation.mk c.arity (c.steps ++ steps)).OnItsOwn) :
    c.trace.steps steps = ((Computation.mk c.arity (c.steps ++ steps)).trace, none) := by
  induction steps generalizing c with
  | nil => rw [List.append_nil]; rfl
  | cons s rest ih =>
    have happend : c.steps ++ s :: rest = (c.add s).steps ++ rest := List.append_cons ..
    rw [happend] at h ⊢
    have hadd : (c.add s).OnItsOwn := by
      have := onItsOwn_before h (c.add s).steps.length
      rwa [before, List.take_left'] at this
      rfl
    obtain ⟨hc, hs⟩ := onItsOwn_add.1 hadd
    rw [Trace.steps, step_trace hc hs]
    exact ih h

/-! ## The program -/

theorem wellFormed_program (h : c.OnItsOwn) {result : Nat} (hresult : result < c.count) :
    (c.program result).WellFormed ↔
      ∀ op first rest, .apply op first rest ∈ c.steps → rest.length + 1 = op.arity := by
  rw [Program.WellFormed, (c.program result).finds_defect?.eq_none_iff]
  constructor
  · intro hnone op first rest hmem
    obtain ⟨i, ht⟩ := List.mem_iff_getElem?.1 hmem
    by_contra hne
    exact hnone _ _ ((defectAt_program h hresult).2 ⟨i, op, first, rest, ht, hne, rfl, rfl⟩)
  · intro hall spot defect hdefect
    obtain ⟨i, op, first, rest, ht, hne, -, -⟩ := (defectAt_program h hresult).1 hdefect
    exact hne (hall op first rest (List.mem_of_getElem? ht))

/-- The first defect is that of the first step that applies an operation wrongly. -/
theorem defect?_program (h : c.OnItsOwn) {result : Nat} (hresult : result < c.count)
    {defect : Defect} : (c.program result).defect? = some defect ↔
      ∃ i op first rest, c.steps[i]? = some (.apply op first rest) ∧ rest.length + 1 ≠ op.arity ∧
        (∀ j < i, ∀ op first rest, c.steps[j]? = some (.apply op first rest) →
          rest.length + 1 = op.arity) ∧
        defect = .operandCount (c.node (c.arity + i)) op.opcode op.arity (rest.length + 1) := by
  rw [(c.program result).finds_defect?.eq_some_iff fun _ _ _ => Program.DefectAt.unique]
  -- Later nodes have later spots, so the first step and the first spot are the same.
  have hspot : ∀ {m n : Nat}, ([2, m] : Spot) < [2, n] ↔ m < n := by
    simp [List.cons_lt_cons_iff]
  constructor
  · rintro ⟨spot, hdefect, hfirst⟩
    obtain ⟨i, op, first, rest, ht, hne, rfl, rfl⟩ := (defectAt_program h hresult).1 hdefect
    have hi : i < c.steps.length := (List.getElem?_eq_some_iff.1 ht).1
    refine ⟨i, op, first, rest, ht, hne, fun j hj op' first' rest' ht' => ?_, rfl⟩
    by_contra hne'
    exact hfirst _ (hspot.2 (node_step_lt h hj hi)) _
      ((defectAt_program h hresult).2 ⟨j, op', first', rest', ht', hne', rfl, rfl⟩)
  · rintro ⟨i, op, first, rest, ht, hne, hbefore, rfl⟩
    refine ⟨[2, c.node (c.arity + i)],
      (defectAt_program h hresult).2 ⟨i, op, first, rest, ht, hne, rfl, rfl⟩, ?_⟩
    intro spot hlt defect hdefect
    obtain ⟨j, op', first', rest', ht', hne', rfl, -⟩ := (defectAt_program h hresult).1 hdefect
    have hj : j < c.steps.length := (List.getElem?_eq_some_iff.1 ht').1
    rcases Nat.lt_trichotomy j i with hji | rfl | hij
    · exact hne' (hbefore j hji op' first' rest' ht')
    · exact absurd (hspot.1 hlt) (Nat.lt_irrefl _)
    · exact absurd (hspot.1 hlt) (Nat.lt_asymm (node_step_lt h hij hj))

/-- The recording is closed with the program that the transcript gives. -/
theorem tryRecord_eq (h : c.OnItsOwn) {result : Nat} (hresult : result < c.count) :
    Trace.tryRecord c.arity c.steps result =
      (Recorder.close ⟨.empty, c.nodes.toArray, List.range c.arity, c.arity⟩
        (c.node result)).mapError .illFormed := by
  have hsteps : (Trace.start c.arity).steps c.steps = (c.trace, none) := by
    rw [trace_start]
    exact steps_trace (c := ⟨c.arity, []⟩) c.steps h
  rw [Trace.tryRecord, hsteps]
  change c.trace.close result = _
  rw [Trace.close, get_trace hresult]
  rfl

/-- A computation on the placeholders of its own recording records the calls of its steps, in their
order and behind the arguments. It fails only if a step applies an operation to a number of operands
that the operation does not take, and then with the first such call. -/
theorem tryRecord_transcript (c : Computation) (h : c.OnItsOwn) {result : Nat}
    (hresult : result < c.count) :
    (∀ p, Trace.tryRecord c.arity c.steps result = .ok p ↔
      (∀ op first rest, .apply op first rest ∈ c.steps → rest.length + 1 = op.arity) ∧
        p = c.program result) ∧
    ∀ e, Trace.tryRecord c.arity c.steps result = .error e ↔
      ∃ i op first rest, c.steps[i]? = some (.apply op first rest) ∧ rest.length + 1 ≠ op.arity ∧
        (∀ j < i, ∀ op first rest, c.steps[j]? = some (.apply op first rest) →
          rest.length + 1 = op.arity) ∧
        e = .illFormed
          (.operandCount (c.node (c.arity + i)) op.opcode op.arity (rest.length + 1)) := by
  rw [tryRecord_eq h hresult]
  refine ⟨fun p => ?_, fun e => ?_⟩
  · rw [mapError_eq_ok, Recorder.close_eq_ok]
    exact and_congr_left' (wellFormed_program h hresult)
  · simp only [mapError_eq_error, Recorder.close_eq_error]
    constructor
    · rintro ⟨defect, hdefect, rfl⟩
      obtain ⟨i, op, first, rest, ht, hne, hbefore, rfl⟩ := (defect?_program h hresult).1 hdefect
      exact ⟨i, op, first, rest, ht, hne, hbefore, rfl⟩
    · rintro ⟨i, op, first, rest, ht, hne, hbefore, rfl⟩
      exact ⟨_, (defect?_program h hresult).2 ⟨i, op, first, rest, ht, hne, hbefore, rfl⟩, rfl⟩

/-- A number in front of an operator comes before its call, and of two calls with too few operands
the first is reported. -/
theorem tryRecord_transcript_miscounted :
    let steps : List TraceStep := [.numberBefore .sub ⟨0⟩ 0, .between .mul 1 1]
    let miscounted : List TraceStep := steps ++ [.apply .dot 2 [], .apply .add 3 []]
    Trace.tryRecord 1 steps 2 = .ok ⟨.ofNodes #[.argument 0, .call (.constant ⟨0⟩) [],
      .call .sub [1, 0], .call .mul [2, 2]], [0], 3, 1⟩ ∧
    Trace.tryRecord 1 miscounted 4 = .error (.illFormed (.operandCount 4 .dot 2 1)) := by
  intro steps miscounted
  refine ⟨((tryRecord_transcript ⟨1, steps⟩ (by decide) (by decide)).1 _).2 ⟨?_, rfl⟩,
    ((tryRecord_transcript ⟨1, miscounted⟩ (by decide) (by decide)).2 _).2
      ⟨2, .dot, 2, [], rfl, by decide, ?_, rfl⟩⟩
  · intro op first rest hmem
    simp [steps] at hmem
  · intro j hj op first rest ht
    match j with
    | 0 => cases ht
    | 1 => cases ht

end Computation

end StagedTangent
