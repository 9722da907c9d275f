import StagedTangent.Proofs.Derivative.CallTangent
import StagedTangent.Proofs.Program.Path

/-!
# The pass of differentiation

Going once over the tape, the pass gives a tangent to the nodes that depend on an argument and are
needed for the result, `Program.Carries`, and to no others. `Program.PassState` is what holds of it
after any number of nodes, and `passNode_spec` is its step: the pass stops at the first needed `abs`
that depends on the argument and otherwise goes on in such a state.
-/

namespace StagedTangent.Program

variable {p : Program} {x position : Nat}

/-! ## Which nodes have a tangent -/

/-- A node depends on an argument and, unless it is the argument itself, the result needs it. -/
def Carries (p : Program) (x node : Nat) : Prop := p.Path node x ∧ (node = x ∨ p.Needed node)

theorem carries_self (p : Program) (x : Nat) : p.Carries x x := ⟨.refl, .inl rfl⟩

/-- Nothing leads on from an argument. -/
theorem carries_argument {node position : Nat}
    (hnode : p.nodes[node]? = some (.argument position)) : p.Carries x node ↔ node = x := by
  constructor
  · rintro ⟨hpath, -⟩
    rcases Relation.ReflTransGen.cases_head hpath with rfl | ⟨o, huse, -⟩
    · rfl
    · obtain ⟨op, operands, hcall, -⟩ := huse.exists_call
      rw [hnode] at hcall
      cases hcall
  · rintro rfl
    exact carries_self p node

/-- A call has a tangent if it is needed and one of its operands has one. -/
theorem carries_call (hp : p.Regular) (hx : p.nodes[x]? = some (.argument position)) {node : Nat}
    {op : Op} {operands : List Nat} (hnode : p.nodes[node]? = some (.call op operands)) :
    p.Carries x node ↔ p.Needed node ∧ ∃ o ∈ operands, p.Carries x o := by
  have hne : node ≠ x := by
    rintro rfl
    rw [hx] at hnode
    cases hnode
  constructor
  · rintro ⟨hpath, hself | hneeded⟩
    · exact absurd hself hne
    · rcases Relation.ReflTransGen.cases_head hpath with rfl | ⟨o, huse, hpath⟩
      · exact absurd rfl hne
      · have ho := huse
        obtain ⟨node', hnode', hmem⟩ := huse
        obtain rfl : node' = .call op operands := by simpa [hnode] using hnode'.symm
        exact ⟨hneeded, o, hmem, hpath, .inr (hneeded.of_uses hp ho)⟩
  · rintro ⟨hneeded, o, hmem, hpath, -⟩
    exact ⟨.head (uses_of_call hnode hmem) hpath, .inr hneeded⟩

theorem Carries.lt_length (hp : p.Regular) (hx : p.nodes[x]? = some (.argument position))
    {node : Nat} (h : p.Carries x node) : node < p.nodes.length := by
  rcases h.2 with rfl | hneeded
  · exact (List.getElem?_eq_some_iff.1 hx).1
  · exact hneeded.lt_length hp

/-- What the pass asks of a node: whether it depends on the argument and is needed. -/
def relevant (p : Program) (x node : Nat) : Bool :=
  (p.reachedFrom x).getD node false && (p.neededFor p.result).getD node false

theorem relevant_iff (hp : p.Regular) {node : Nat} :
    p.relevant x node = true ↔ p.Path node x ∧ p.Needed node := by
  rw [relevant, Bool.and_eq_true, reachedFrom_iff hp]
  constructor
  · rintro ⟨⟨-, hpath⟩, hneeded⟩
    exact ⟨hpath, hneeded⟩
  · rintro ⟨hpath, hneeded⟩
    exact ⟨⟨Needed.lt_length hp hneeded, hpath⟩, hneeded⟩

/-- An `abs` that stands in the way of a derivative. -/
def Blocks (p : Program) (x node : Nat) : Prop :=
  (∃ operands, p.nodes[node]? = some (.call .abs operands)) ∧ p.Carries x node

/-! ## The state of the pass -/

/-- What holds of the calls that differentiation appends. -/
structure AppendedCall (p : Program) (place : Nat) (op : Op) (operands : List Nat) : Prop where
  count : operands.length = op.arity
  lt : ∀ o ∈ operands, o < place
  needed : ∀ o ∈ operands, o < p.nodes.length → p.Needed o
  smooth : op ≠ .abs

/-- The recorder with which the pass begins: the program and one more argument. -/
def withDirection (p : Program) : Recorder := (Recorder.resume p).pushArgument.2

@[simp] theorem nodes_withDirection (p : Program) :
    p.withDirection.nodes = p.nodes ++ [.argument p.arguments.length] := by
  rw [withDirection, Recorder.nodes_pushArgument, Recorder.nodes_resume]
  rfl

theorem length_withDirection (p : Program) :
    p.withDirection.nodes.length = p.nodes.length + 1 := by
  rw [nodes_withDirection, List.length_append, List.length_singleton]

/-- The state of the pass after a number of nodes. -/
structure PassState (p : Program) (x n : Nat) (pass : TangentPass) : Prop where
  size : pass.tangents.size = n
  extension : p.withDirection.Extends p.AppendedCall pass.recorder
  carries : ∀ i < n, (∃ t, pass.tangents.getD i none = some t) ↔ p.Carries x i
  bounds : ∀ {i t : Nat}, pass.tangents.getD i none = some t →
    p.nodes.length ≤ t ∧ t < pass.recorder.nodes.length
  self : x < n → pass.tangents.getD x none = some p.nodes.length
  call : ∀ {i t : Nat} {op : Op} {operands : List Nat}, pass.tangents.getD i none = some t →
    p.nodes[i]? = some (.call op operands) →
    CallTangent pass.recorder.nodes (fun o => pass.tangents.getD o none) op operands t

variable {n : Nat} {pass : TangentPass}

theorem getD_push (tangents : Array (Option Nat)) (v : Option Nat) (i : Nat) :
    (tangents.push v).getD i none = if i = tangents.size then v else tangents.getD i none := by
  rw [Array.getD_eq_getD_getElem?, Array.getD_eq_getD_getElem?, Array.getElem?_push]
  split <;> simp_all

theorem passState_start (p : Program) (x : Nat) : p.PassState x 0 ⟨p.withDirection, #[]⟩ := by
  refine ⟨rfl, .refl _, fun i hi => absurd hi (Nat.not_lt_zero i), ?_, fun hx => ?_, ?_⟩
  · intro i t h
    simp at h
  · exact absurd hx (Nat.not_lt_zero x)
  · intro i t op operands h
    simp at h

/-- The direction stands on the tape already. -/
theorem PassState.lt_length (h : p.PassState x n pass) :
    p.nodes.length < pass.recorder.nodes.length := by
  have hle := h.extension.length_le
  rw [length_withDirection] at hle
  exact hle

/-- The pass adds an entry. -/
theorem PassState.push (hp : p.Regular) (h : p.PassState x n pass) {r : Recorder}
    {entry : Option Nat} (hextends : pass.recorder.Extends p.AppendedCall r)
    (hcarries : (∃ t, entry = some t) ↔ p.Carries x n)
    (hbounds : ∀ t, entry = some t → p.nodes.length ≤ t ∧ t < r.nodes.length)
    (hself : n = x → entry = some p.nodes.length)
    (hcall : ∀ t op operands, entry = some t → p.nodes[n]? = some (.call op operands) →
      CallTangent r.nodes (fun o => pass.tangents.getD o none) op operands t) :
    p.PassState x (n + 1) ⟨r, pass.tangents.push entry⟩ := by
  have hold : ∀ i, i < n → (pass.tangents.push entry).getD i none = pass.tangents.getD i none := by
    intro i hi
    rw [getD_push, h.size, if_neg (by omega)]
  refine ⟨by rw [Array.size_push, h.size], h.extension.trans hextends, fun i hi => ?_,
    fun {i t} ht => ?_, fun hx => ?_, fun {i t op operands} ht hi => ?_⟩
  · rw [getD_push, h.size]
    split
    · next heq => rwa [heq]
    · exact h.carries i (by omega)
  · rw [getD_push, h.size] at ht
    split at ht
    · exact hbounds t ht
    · have := h.bounds ht
      exact ⟨this.1, Nat.lt_of_lt_of_le this.2 hextends.length_le⟩
  · rw [getD_push, h.size]
    split
    · next heq => exact hself heq.symm
    · exact h.self (by omega)
  · rw [getD_push, h.size] at ht
    have holdOperands : i ≤ n → ∀ o ∈ operands,
        (pass.tangents.push entry).getD o none = pass.tangents.getD o none := by
      intro hle o ho
      have := hp.operand_lt hi ho
      exact hold o (by omega)
    split at ht
    · next heq =>
      subst heq
      exact (hcall t op operands ht hi).mono (List.prefix_refl _) (holdOperands (Nat.le_refl _))
    · have hlt : i < n := by
        by_contra hge
        rw [Array.getD_eq_getD_getElem?, Array.getElem?_eq_none (by rw [h.size]; omega)] at ht
        cases ht
      exact (h.call ht hi).mono hextends.nodes (holdOperands (Nat.le_of_lt hlt))

/-- The calls recorded for a needed call are as those that differentiation appends. -/
theorem PassState.appendedCall (hp : p.Regular) (h : p.PassState x n pass) {op : Op}
    {operands : List Nat} (hnode : p.nodes[n]? = some (.call op operands)) (hneeded : p.Needed n)
    {place : Nat} {op' : Op} {args : List Nat}
    (hcall : TangentCall operands pass.tangents pass.recorder.size place op' args) :
    p.AppendedCall place op' args := by
  refine ⟨hcall.1, fun o ho => (hcall.2.2 o ho).1, fun o ho hlt => ?_, hcall.2.1⟩
  rcases (hcall.2.2 o ho).2 with hmem | ⟨a, -, ht⟩ | hge
  · exact hneeded.operand hp hnode hmem
  · have := (h.bounds ht).1
    omega
  · rw [Recorder.size_eq_length] at hge
    exact absurd (Nat.lt_trans h.lt_length (Nat.lt_of_le_of_lt hge hlt)) (Nat.lt_irrefl _)

/-! ## A step of the pass -/

/-- A node without a tangent gets none. -/
theorem PassState.push_none (hp : p.Regular) (h : p.PassState x n pass)
    (hnot : ¬ p.Carries x n) : p.PassState x (n + 1) ⟨pass.recorder, pass.tangents.push none⟩ := by
  refine h.push hp (.refl _) ⟨?_, fun hcarries => absurd hcarries hnot⟩ ?_ ?_ ?_
  · rintro ⟨t, ht⟩
    cases ht
  · rintro t ⟨⟩
  · rintro rfl
    exact absurd (carries_self p n) hnot
  · rintro t op operands ⟨⟩

/-- The tangent of the argument is the direction. -/
theorem PassState.push_self (hp : p.Regular) (hx : p.nodes[x]? = some (.argument position))
    (h : p.PassState x x pass) :
    p.PassState x (x + 1) ⟨pass.recorder, pass.tangents.push (some p.nodes.length)⟩ := by
  refine h.push hp (.refl _) ⟨fun _ => carries_self p x, fun _ => ⟨_, rfl⟩⟩ ?_ (fun _ => rfl) ?_
  · rintro t ⟨⟩
    exact ⟨Nat.le_refl _, h.lt_length⟩
  · intro t op operands _ hcall
    rw [hx] at hcall
    cases hcall

/-- At a call that carries a tangent and is not an `abs` the pass records the tangent. -/
theorem PassState.exists_call (hp : p.Regular) (hx : p.nodes[x]? = some (.argument position))
    (h : p.PassState x n pass) {op : Op} {operands : List Nat}
    (hnode : p.nodes[n]? = some (.call op operands)) (hcarries : p.Carries x n)
    (hsmooth : op ≠ .abs) :
    ∃ c r, callTangent .standard op operands pass = .ok (some c, r) ∧
      p.PassState x (n + 1) ⟨r, pass.tangents.push (some c)⟩ := by
  obtain ⟨hneeded, o, ho, hocarries⟩ := (carries_call hp hx hnode).1 hcarries
  obtain ⟨t, ht⟩ := (h.carries o (hp.operand_lt hnode ho)).2 hocarries
  have hlt : ∀ o ∈ operands, o < pass.recorder.size := by
    intro o ho
    rw [Recorder.size_eq_length]
    exact Nat.lt_trans (hp.operand_lt_length hnode ho) h.lt_length
  have htangent : ∀ o ∈ operands, ∀ t, pass.tangents.getD o none = some t →
      t < pass.recorder.size := by
    intro o _ t ht
    rw [Recorder.size_eq_length]
    exact (h.bounds ht).2
  obtain ⟨c, r, hok, hextends, hc, hsource⟩ :=
    exists_callTangent (hp.operand_count hnode) hsmooth hlt htangent ⟨o, ho, t, ht⟩
  refine ⟨c, r, hok, h.push hp (hextends.imp fun place op' args _ hcall =>
    h.appendedCall hp hnode hneeded hcall) ⟨fun _ => hcarries, fun _ => ⟨c, rfl⟩⟩ ?_ ?_ ?_⟩
  · rintro t' ⟨⟩
    refine ⟨?_, hc.lt⟩
    rcases hsource with ⟨o', -, ht'⟩ | hge
    · exact (h.bounds ht').1
    · rw [Recorder.size_eq_length] at hge
      exact Nat.le_of_lt (Nat.lt_of_lt_of_le h.lt_length hge)
  · rintro rfl
    rw [hx] at hnode
    cases hnode
  · rintro t' op' operands' ⟨⟩ hcall
    rw [hnode] at hcall
    cases hcall
    exact hc

/-- A step of the pass. -/
theorem passNode_spec (hp : p.Regular) (hx : p.nodes[x]? = some (.argument position))
    (h : p.PassState x n pass) {node : Node} (hnode : p.nodes[n]? = some node) :
    (p.Blocks x n ∧ passNode .standard x p.nodes.length (p.relevant x) pass node =
      .error (.missingRule .abs 1)) ∨
    (¬ p.Blocks x n ∧ ∃ pass', passNode .standard x p.nodes.length (p.relevant x) pass node =
      .ok pass' ∧ p.PassState x (n + 1) pass') := by
  by_cases hself : n = x
  · -- The argument itself.
    subst hself
    refine .inr ⟨?_, _, ?_, h.push_self hp hx⟩
    · rintro ⟨⟨operands, hcall⟩, -⟩
      rw [hx] at hcall
      cases hcall
    · simp only [passNode, h.size, if_true]
  · cases node with
    | argument position' =>
      have hnot : ¬ p.Carries x n := fun hc => hself ((carries_argument hnode).1 hc)
      refine .inr ⟨fun hb => hnot hb.2, _, ?_, h.push_none hp hnot⟩
      simp only [passNode, h.size, if_neg hself]
    | call op operands =>
      by_cases hcarries : p.Carries x n
      · have hrelevant := (relevant_iff hp).2 ⟨hcarries.1, hcarries.2.resolve_left hself⟩
        by_cases habs : op = .abs
        · -- The only operand of this `abs` has a tangent.
          subst habs
          refine .inl ⟨⟨⟨operands, hnode⟩, hcarries⟩, ?_⟩
          obtain ⟨-, o, ho, hocarries⟩ := (carries_call hp hx hnode).1 hcarries
          obtain ⟨t, ht⟩ := (h.carries o (hp.operand_lt hnode ho)).2 hocarries
          obtain ⟨a, rfl⟩ := List.length_eq_one_iff.1 (hp.operand_count hnode)
          obtain rfl := List.mem_singleton.1 ho
          simp only [passNode, h.size, if_neg hself, hrelevant, callTangent_abs ht]
          rfl
        · obtain ⟨c, r, hok, hpass⟩ := h.exists_call hp hx hnode hcarries habs
          refine .inr ⟨?_, _, ?_, hpass⟩
          · rintro ⟨⟨operands', hcall⟩, -⟩
            rw [hnode] at hcall
            cases hcall
            exact habs rfl
          · simp only [passNode, h.size, if_neg hself, hrelevant, hok]
            rfl
      · have hirrelevant : p.relevant x n = false := by
          rw [Bool.eq_false_iff]
          intro hrelevant
          obtain ⟨hpath, hneeded⟩ := (relevant_iff hp).1 hrelevant
          exact hcarries ⟨hpath, .inr hneeded⟩
        refine .inr ⟨fun hb => hcarries hb.2, _, ?_, h.push_none hp hcarries⟩
        simp only [passNode, h.size, if_neg hself, hirrelevant]

end StagedTangent.Program
