import StagedTangent.Proofs.Derivative.CallTangent

/-!
# Recording under other names

The recipes that differentiation follows mention the nodes they are given and nothing else, so that
recording with other nodes gives the same calls over those. `Recorder.Renamed` relates two recorders
of which the second has recorded what the first has, under other names; by
`callTangent_renamed` recording the tangent of a call keeps it.
-/

namespace StagedTangent

/-- A node that uses other nodes in the place of those it uses. -/
def Node.rename (g : Nat → Nat) : Node → Node
  | .argument position => .argument position
  | .call op operands => .call op (operands.map g)

variable {g : Nat → Nat}

/-! ## Recorders -/

namespace Recorder

/-- Since recording began, two recorders have recorded the same nodes, those of the second under
other names. -/
structure Renamed (g : Nat → Nat) (r r' : Recorder) : Prop where
  fresh : r'.fresh = r.fresh.map (Node.rename g)
  /-- New nodes match in their order. -/
  new : ∀ n, g (r.settled.size + n) = r'.settled.size + n

variable {r r' : Recorder}

/-- The next node of the one matches the next node of the other. -/
theorem Renamed.size (h : Renamed g r r') : g r.size = r'.size := by
  rw [Recorder.size, Recorder.size, h.new, h.fresh, Array.size_map]

theorem Renamed.push (h : Renamed g r r') (node : Node) :
    Renamed g (r.push node) (r'.push (node.rename g)) := by
  refine ⟨?_, h.new⟩
  rw [Recorder.push, Recorder.push, Array.map_push, h.fresh]

theorem Renamed.call (h : Renamed g r r') (op : Op) (operands : List Nat) :
    Renamed g (r.call op operands).2 (r'.call op (operands.map g)).2 :=
  h.push (.call op operands)

/-- The nodes recorded since are the renamed ones. -/
theorem Renamed.getElem? (h : Renamed g r r') {place : Nat} (hplace : r.settled.size ≤ place) :
    r'.nodes[g place]? = (r.nodes[place]?).map (Node.rename g) := by
  obtain ⟨n, rfl⟩ := Nat.exists_eq_add_of_le hplace
  have hnew : ∀ (r : Recorder), r.nodes[r.settled.size + n]? = r.fresh[n]? := by
    intro r
    rw [Recorder.nodes, Tape.size_eq_length, List.getElem?_append_right (Nat.le_add_right _ _),
      Nat.add_sub_cancel_left, Array.getElem?_toList]
  rw [h.new, hnew, hnew, h.fresh, Array.getElem?_map]

end Recorder

/-! ## Recipes -/

/-- Two recipes for the same calls, those of the second over renamed nodes. -/
inductive Fragment.Renamed (g : Nat → Nat) : Fragment Nat → Fragment Nat → Prop where
  | done (node : Nat) : Renamed g (.done node) (.done (g node))
  | call {op : Op} {operands : List Nat} {next next' : Nat → Fragment Nat} :
    (∀ node, Renamed g (next node) (next' (g node))) →
    Renamed g (.call op operands next) (.call op (operands.map g) next')

/-- Recipes for the same calls record the same calls. -/
theorem Fragment.Renamed.run {f f' : Fragment Nat} (h : f.Renamed g f') {r r' : Recorder}
    (hr : r.Renamed g r') :
    (f'.run r').1 = g (f.run r).1 ∧ (f.run r).2.Renamed g (f'.run r').2 := by
  induction h generalizing r r' with
  | done node => exact ⟨rfl, hr⟩
  | @call op operands next next' _ ih =>
    have hrest := ih r.size (hr.call op operands)
    rw [hr.size] at hrest
    exact hrest

theorem Fragment.renamed_record (g : Nat → Nat) (op : Op) (operands : List Nat) :
    (Fragment.record op operands).Renamed g (.record op (operands.map g)) :=
  .call fun node => .done node

/-! ## Rules -/

namespace Rule

/-- A rule records the same calls whatever the nodes that it is given. -/
def Natural (rule : Rule) (op : Op) : Prop :=
  ∀ (g : Nat → Nat) (operands : List Nat) (tangent : Nat), operands.length = op.arity →
    (rule.contribute op operands tangent).Renamed g
      (rule.contribute op (operands.map g) (g tangent))

variable {op : Op}

theorem pass_natural (op : Op) : pass.Natural op := fun _ _ tangent _ => .done tangent

theorem opposite_natural (op : Op) : opposite.Natural op := fun g _ tangent _ =>
  Fragment.renamed_record g .neg [tangent]

theorem again_natural (op : Op) : again.Natural op := fun g _ tangent _ =>
  Fragment.renamed_record g op [tangent]

theorem flat_natural (op : Op) : flat.Natural op := fun g _ tangent _ =>
  Fragment.renamed_record g .zeroLike [tangent]

theorem replaceFirst_natural (linear : Op) (harity : op.arity = 2) :
    (replaceFirst linear).Natural op := by
  intro g operands tangent hcount
  obtain ⟨a, b, rfl⟩ := List.length_eq_two.1 (hcount.trans harity)
  exact Fragment.renamed_record g linear [tangent, b]

theorem replaceSecond_natural (linear : Op) (harity : op.arity = 2) :
    (replaceSecond linear).Natural op := by
  intro g operands tangent hcount
  obtain ⟨a, b, rfl⟩ := List.length_eq_two.1 (hcount.trans harity)
  exact Fragment.renamed_record g linear [a, tangent]

theorem logarithm_natural : logarithm.Natural .log := by
  intro g operands tangent hcount
  obtain ⟨a, rfl⟩ := List.length_eq_one_iff.1 hcount
  exact Fragment.renamed_record g .div [tangent, a]

theorem sine_natural : sine.Natural .sin := by
  intro g operands tangent hcount
  obtain ⟨a, rfl⟩ := List.length_eq_one_iff.1 hcount
  exact .call fun _ => .call fun product => .done product

theorem exponential_natural : exponential.Natural .exp := by
  intro g operands tangent hcount
  obtain ⟨a, rfl⟩ := List.length_eq_one_iff.1 hcount
  exact .call fun _ => .call fun product => .done product

theorem cosine_natural : cosine.Natural .cos := by
  intro g operands tangent hcount
  obtain ⟨a, rfl⟩ := List.length_eq_one_iff.1 hcount
  exact .call fun _ => .call fun _ => .call fun product => .done product

theorem squareRoot_natural : squareRoot.Natural .sqrt := by
  intro g operands tangent hcount
  obtain ⟨a, rfl⟩ := List.length_eq_one_iff.1 hcount
  exact .call fun _ => .call fun _ => .call fun quotient => .done quotient

theorem divisor_natural : divisor.Natural .div := by
  intro g operands tangent hcount
  obtain ⟨a, b, rfl⟩ := List.length_eq_two.1 hcount
  exact .call fun _ => .call fun _ => .call fun _ => .call fun product => .done product

end Rule

/-- The standard rules record the same calls whatever the nodes that they are given. -/
theorem standard_natural {op : Op} {position : Nat} {rule : Rule} (hposition : position < op.arity)
    (h : RuleTable.standard.get op.opcode (position + 1) = .ok rule) : rule.Natural op := by
  match op, position, hposition, h with
  | .add, 0, _, h | .add, 1, _, h | .sub, 0, _, h =>
    obtain rfl := Except.ok.inj h
    exact Rule.pass_natural _
  | .sub, 1, _, h =>
    obtain rfl := Except.ok.inj h
    exact Rule.opposite_natural _
  | .mul, 0, _, h | .div, 0, _, h | .dot, 0, _, h =>
    obtain rfl := Except.ok.inj h
    exact Rule.replaceFirst_natural _ rfl
  | .mul, 1, _, h | .dot, 1, _, h =>
    obtain rfl := Except.ok.inj h
    exact Rule.replaceSecond_natural _ rfl
  | .div, 1, _, h =>
    obtain rfl := Except.ok.inj h
    exact Rule.divisor_natural
  | .sin, 0, _, h =>
    obtain rfl := Except.ok.inj h
    exact Rule.sine_natural
  | .cos, 0, _, h =>
    obtain rfl := Except.ok.inj h
    exact Rule.cosine_natural
  | .exp, 0, _, h =>
    obtain rfl := Except.ok.inj h
    exact Rule.exponential_natural
  | .log, 0, _, h =>
    obtain rfl := Except.ok.inj h
    exact Rule.logarithm_natural
  | .sqrt, 0, _, h =>
    obtain rfl := Except.ok.inj h
    exact Rule.squareRoot_natural
  | .neg, 0, _, h | .sum, 0, _, h | .index _, 0, _, h | .circshift _, 0, _, h =>
    obtain rfl := Except.ok.inj h
    exact Rule.again_natural _
  | .zeroLike, 0, _, h | .sign, 0, _, h =>
    obtain rfl := Except.ok.inj h
    exact Rule.flat_natural _
  | .abs, 0, _, h => cases h

/-! ## The tangent of a call -/

namespace Program

/-- A total and what has been recorded for it, under other names. -/
def TotalRenamed (g : Nat → Nat) (total total' : Option Nat × Recorder) : Prop :=
  total'.1 = total.1.map g ∧ total.2.Renamed g total'.2

variable {op : Op} {operands : List Nat} {tangents tangents' : Array (Option Nat)}

theorem addContribution_renamed {o position : Nat} (hposition : position < op.arity)
    (hcount : operands.length = op.arity)
    (htangent : tangents'.getD (g o) none = (tangents.getD o none).map g)
    {total total' final : Option Nat × Recorder} (h : TotalRenamed g total total')
    (hok : addContribution .standard op operands tangents total (o, position) = .ok final) :
    ∃ final', addContribution .standard op (operands.map g) tangents' total' (g o, position) =
      .ok final' ∧ TotalRenamed g final final' := by
  obtain ⟨sum, r⟩ := total
  obtain ⟨sum', r'⟩ := total'
  obtain ⟨rfl, hr⟩ := h
  cases ht : tangents.getD o none with
  | none =>
    rw [ht] at htangent
    rw [addContribution_none _ ht] at hok
    obtain rfl := Except.ok.inj hok
    exact ⟨_, addContribution_none _ htangent, rfl, hr⟩
  | some t =>
    rw [ht] at htangent
    cases hrule : RuleTable.standard.get op.opcode (position + 1) with
    | error e =>
      simp only [addContribution, ht, hrule] at hok
      cases hok
    | ok rule =>
      have hrun := (standard_natural hposition hrule g operands t hcount).run hr
      rw [addContribution_eq sum ht hrule] at hok
      rw [addContribution_eq (sum.map g) htangent hrule]
      cases sum with
      | none =>
        obtain rfl := Except.ok.inj hok
        exact ⟨_, rfl, congrArg some hrun.1, hrun.2⟩
      | some s =>
        obtain rfl := Except.ok.inj hok
        refine ⟨_, rfl, congrArg some hrun.2.size.symm, ?_⟩
        have hsum := hrun.2.call .add
          [s, ((rule.contribute op operands t).run r).1]
        rwa [List.map_cons, List.map_singleton, ← hrun.1] at hsum

/-- If the tangents of the operands match, so do the tangents recorded for two calls of one
operation. -/
theorem callTangent_renamed (hcount : operands.length = op.arity) {pass pass' : TangentPass}
    (hr : pass.recorder.Renamed g pass'.recorder)
    (htangent : ∀ o ∈ operands,
      pass'.tangents.getD (g o) none = (pass.tangents.getD o none).map g)
    {tangent : Option Nat} {r : Recorder}
    (hok : callTangent .standard op operands pass = .ok (tangent, r)) :
    ∃ r', callTangent .standard op (operands.map g) pass' = .ok (tangent.map g, r') ∧
      r.Renamed g r' := by
  have hstart : TotalRenamed g (none, pass.recorder) (none, pass'.recorder) := ⟨rfl, hr⟩
  obtain ⟨⟨tangent', r'⟩, hok', rfl, hr'⟩ :=
    foldlM_along (g := Prod.map g id)
      (k := addContribution .standard op (operands.map g) pass'.tangents)
      (fun entry hentry total total' final hrel hadd => by
        obtain ⟨o, position⟩ := entry
        have ho := List.mem_zipIdx_iff_getElem?.1 hentry
        have hposition : position < op.arity := by
          rw [← hcount]
          exact (List.getElem?_eq_some_iff.1 ho).1
        exact addContribution_renamed hposition hcount
          (htangent o (List.mem_of_getElem? ho)) hrel hadd) hstart hok
  refine ⟨r', ?_, hr'⟩
  rw [callTangent, List.zipIdx_map]
  exact hok'

end Program

end StagedTangent
