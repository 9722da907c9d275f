import StagedTangent.Proofs.Derivative.Pass
import StagedTangent.Proofs.Program.Recorder

/-!
# The pass with any rules

The rules of a table may be any recipes at all: they may record whatever calls they like and end in
whatever reference they like. What they cannot do is to take back what has been recorded, so every
step of the pass leaves the recorder in a later state (`passNode_extends`). A pass over all nodes has
therefore gone through one over the first of them, `Program.passBy`, and everything recorded up to
there is still in place (`exists_passBy_of_le`).
-/

namespace StagedTangent

namespace Recorder

/-- A later state of a recorder, whatever calls have been appended. -/
abbrev Grows (r r' : Recorder) : Prop := r.Extends (fun _ _ _ => True) r'

end Recorder

/-- Whatever a recipe says, carrying it out appends calls. -/
theorem Fragment.grows_run {β : Type} (f : Fragment β) (r : Recorder) : r.Grows (f.run r).2 := by
  induction f generalizing r with
  | done result => exact .refl r
  | call op operands next ih => exact (Recorder.Extends.call trivial).trans (ih _ _)

namespace Program

variable {rules : RuleTable} {p d : Program} {x position n : Nat} {op : Op} {operands : List Nat}

/-! ## Steps -/

/-- What an operand that has been passed has come to. -/
theorem addContribution_cases {tangents : Array (Option Nat)} {total total' : Option Nat × Recorder}
    {o : Nat} (h : addContribution rules op operands tangents total (o, position) = .ok total') :
    (tangents.getD o none = none ∧ total' = total) ∨
    ∃ t rule, tangents.getD o none = some t ∧
      rules.get op.opcode (position + 1) = .ok rule := by
  cases ht : tangents.getD o none with
  | none =>
    rw [addContribution_none total ht] at h
    exact .inl ⟨rfl, (Except.ok.inj h).symm⟩
  | some t =>
    simp only [addContribution, ht] at h
    obtain ⟨rule, hrule, -⟩ := bind_eq_ok.1 h
    exact .inr ⟨t, rule, rfl, hrule⟩

theorem addContribution_grows {tangents : Array (Option Nat)} {total total' : Option Nat × Recorder}
    {operand : Nat × Nat}
    (h : addContribution rules op operands tangents total operand = .ok total') :
    total.2.Grows total'.2 := by
  rcases addContribution_cases h with ⟨-, rfl⟩ | ⟨t, rule, ht, hrule⟩
  · exact .refl _
  · rw [addContribution_of_rule ht hrule] at h
    have hmapped : total.2.Grows
        ((((rule op operands).run total.2).1.apply t).run ((rule op operands).run total.2).2).2 :=
      ((rule op operands).grows_run total.2).trans (Fragment.grows_run _ _)
    cases hsum : total.1 with
    | none =>
      rw [hsum] at h
      obtain rfl := Except.ok.inj h
      exact hmapped
    | some sum =>
      rw [hsum] at h
      obtain rfl := Except.ok.inj h
      exact hmapped.trans (.call trivial)

/-- Summing up the contributions of some operands appends calls. -/
theorem foldlM_addContribution_grows {tangents : Array (Option Nat)} {rest : List (Nat × Nat)}
    {total total' : Option Nat × Recorder}
    (h : rest.foldlM (addContribution rules op operands tangents) total = .ok total') :
    total.2.Grows total'.2 :=
  foldlM_trans (r := fun total total' => total.2.Grows total'.2) (fun total => .refl total.2)
    Recorder.Extends.trans addContribution_grows h

/-- What a node that has been passed has come to. -/
theorem passNode_cases {direction : Nat} {relevant : Nat → Bool} {pass pass' : TangentPass}
    {node : Node} (h : passNode rules x direction relevant pass node = .ok pass') :
    (pass.tangents.size = x ∧ pass' = ⟨pass.recorder, pass.tangents.push (some direction)⟩) ∨
    (∃ op operands total, node = .call op operands ∧ relevant pass.tangents.size = true ∧
      callTangent rules op operands pass = .ok total ∧
      pass' = ⟨total.2, pass.tangents.push total.1⟩) ∨
    pass' = ⟨pass.recorder, pass.tangents.push none⟩ := by
  unfold passNode at h
  dsimp only at h
  split at h
  · next hself => exact .inl ⟨hself, (Except.ok.inj h).symm⟩
  · split at h
    · next op operands hrelevant =>
      obtain ⟨total, htotal, h⟩ := bind_eq_ok.1 h
      exact .inr (.inl ⟨op, operands, total, rfl, hrelevant, htotal, (Except.ok.inj h).symm⟩)
    · exact .inr (.inr (Except.ok.inj h).symm)

theorem passNode_grows {direction : Nat} {relevant : Nat → Bool} {pass pass' : TangentPass}
    {node : Node} (h : passNode rules x direction relevant pass node = .ok pass') :
    pass.recorder.Grows pass'.recorder := by
  rcases passNode_cases h with ⟨-, rfl⟩ | ⟨op, operands, total, -, -, htotal, rfl⟩ | rfl
  · exact .refl _
  · exact foldlM_addContribution_grows htotal
  · exact .refl _

/-! ## The first operands -/

/-- The sum of what the first operands of a call contribute by given rules. -/
def sumBy (rules : RuleTable) (op : Op) (operands : List Nat) (pass : TangentPass) (n : Nat) :
    Except DerivativeError (Option Nat × Recorder) :=
  (operands.zipIdx.take n).foldlM (addContribution rules op operands pass.tangents)
    (none, pass.recorder)

theorem sumBy_succ {pass : TangentPass} {o : Nat} (ho : operands[n]? = some o) :
    sumBy rules op operands pass (n + 1) = (do
      let total ← sumBy rules op operands pass n
      addContribution rules op operands pass.tangents total (o, n)) :=
  foldlM_take_succ (by rw [List.getElem?_zipIdx, ho, Nat.zero_add]; rfl) _

/-- All operands make up the tangent of the call. -/
theorem sumBy_length (rules : RuleTable) (op : Op) (operands : List Nat) (pass : TangentPass) :
    sumBy rules op operands pass operands.length = callTangent rules op operands pass := by
  rw [sumBy, ← List.length_zipIdx, List.take_length]
  rfl

/-- A sum that has come to some operand has gone through the operands before it. -/
theorem exists_sumBy_of_le {pass : TangentPass} {m : Nat} {total' : Option Nat × Recorder}
    (hle : m ≤ n) (h : sumBy rules op operands pass n = .ok total') :
    ∃ total, sumBy rules op operands pass m = .ok total ∧ total.2.Grows total'.2 := by
  obtain ⟨total, htotal, hrest⟩ := foldlM_take_eq_ok h m
  rw [List.take_take, Nat.min_eq_left hle] at htotal
  exact ⟨total, htotal, foldlM_addContribution_grows hrest⟩

theorem sumBy_grows {pass : TangentPass} {total : Option Nat × Recorder}
    (h : sumBy rules op operands pass n = .ok total) : pass.recorder.Grows total.2 :=
  foldlM_addContribution_grows h

/-! ## The first nodes -/

/-- The pass of differentiation by given rules over the first nodes. -/
def passBy (rules : RuleTable) (p : Program) (x n : Nat) : Except DerivativeError TangentPass :=
  (p.nodes.take n).foldlM (passNode rules x p.nodes.length (p.relevant x)) ⟨p.withDirection, #[]⟩

theorem passBy_succ {node : Node} (hnode : p.nodes[n]? = some node) :
    p.passBy rules x (n + 1) = (do
      let pass ← p.passBy rules x n
      passNode rules x p.nodes.length (p.relevant x) pass node) :=
  foldlM_take_succ hnode _

/-- A pass that has come to some node has gone through the nodes before it, and what had been
recorded then is there still. -/
theorem exists_passBy_of_le {m : Nat} {pass' : TangentPass} (hle : m ≤ n)
    (h : p.passBy rules x n = .ok pass') :
    ∃ pass, p.passBy rules x m = .ok pass ∧ pass.recorder.Grows pass'.recorder := by
  obtain ⟨pass, hpass, hrest⟩ := foldlM_take_eq_ok h m
  rw [List.take_take, Nat.min_eq_left hle] at hpass
  exact ⟨pass, hpass, foldlM_trans (r := fun pass pass' => pass.recorder.Grows pass'.recorder)
    (fun pass => .refl pass.recorder) Recorder.Extends.trans passNode_grows hrest⟩

/-- There is an entry for every node passed. -/
theorem size_passBy {pass : TangentPass} (hn : n ≤ p.nodes.length)
    (h : p.passBy rules x n = .ok pass) : pass.tangents.size = n := by
  induction n generalizing pass with
  | zero =>
    obtain rfl := Except.ok.inj h
    rfl
  | succ n ih =>
    rw [passBy_succ (List.getElem?_eq_getElem hn)] at h
    obtain ⟨before, hbefore, h⟩ := bind_eq_ok.1 h
    have hsize := ih (Nat.le_of_lt hn) hbefore
    rcases passNode_cases h with ⟨-, rfl⟩ | ⟨op, operands, total, -, -, -, rfl⟩ | rfl
    all_goals rw [Array.size_push, hsize]

/-- Whatever the pass has recorded stands behind the direction. -/
theorem passBy_grows {pass : TangentPass} (h : p.passBy rules x n = .ok pass) :
    p.withDirection.Grows pass.recorder := by
  obtain ⟨start, hstart, hgrows⟩ := exists_passBy_of_le (Nat.zero_le n) h
  obtain rfl := Except.ok.inj hstart
  exact hgrows

/-! ## The end of the pass -/

/-- The recorder and the result that a pass ends in. -/
def finish (p : Program) (pass : TangentPass) : Nat × Recorder :=
  match pass.tangents.getD p.result none with
  | some tangent => (tangent, pass.recorder)
  | none => pass.recorder.call .zeroLike [p.result]

theorem finish_of_some {pass : TangentPass} {t : Nat}
    (ht : pass.tangents.getD p.result none = some t) : p.finish pass = (t, pass.recorder) := by
  rw [finish, ht]

theorem finish_of_none {pass : TangentPass} (ht : pass.tangents.getD p.result none = none) :
    p.finish pass = pass.recorder.call .zeroLike [p.result] := by
  rw [finish, ht]

theorem finish_grows (p : Program) (pass : TangentPass) :
    pass.recorder.Grows (p.finish pass).2 := by
  cases ht : pass.tangents.getD p.result none with
  | some t =>
    rw [finish_of_some ht]
    exact .refl _
  | none =>
    rw [finish_of_none ht]
    exact .call trivial

/-- Recording a derivative runs the pass over all nodes and finishes it. -/
theorem recordDerivative_eq (rules : RuleTable) (p : Program) (x : Nat) :
    recordDerivative rules p x = (do
      let pass ← p.passBy rules x p.nodes.length
      .ok (p.finish pass)) := by
  have hdirection : (Recorder.resume p).pushArgument = (p.nodes.length, p.withDirection) := by
    refine Prod.ext ?_ rfl
    change (Recorder.resume p).size = _
    rw [Recorder.size_eq_length, Recorder.nodes_resume]
  unfold recordDerivative
  rw [hdirection, passBy, List.take_length]
  refine congrArg _ (funext fun pass => ?_)
  dsimp only
  cases ht : pass.tangents.getD p.result none with
  | some t => rw [finish_of_some ht]
  | none => rw [finish_of_none ht]

theorem recordDerivative_eq_ok {recorded : Nat × Recorder} :
    recordDerivative rules p x = .ok recorded ↔
      ∃ pass, p.passBy rules x p.nodes.length = .ok pass ∧ p.finish pass = recorded := by
  rw [recordDerivative_eq, bind_eq_ok]
  simp only [Except.ok.injEq]

/-- Differentiating with respect to an argument records the derivative and closes it. -/
theorem derivativeBy_eq (rules : RuleTable) (h : p.WellFormed)
    (hx : p.arguments[position]? = some x) :
    p.derivativeBy rules position = recordDerivative rules p x >>= fun recorded =>
      (recorded.2.close recorded.1).mapError .illFormed := by
  simp only [derivativeBy, (check_eq_ok_iff p).2 h, hx]
  rfl

/-- A derivative is what the pass over all nodes ends in. -/
theorem exists_passBy_of_derivativeBy (h : p.WellFormed) (hx : p.arguments[position]? = some x)
    (hd : p.derivativeBy rules position = .ok d) :
    ∃ pass, p.passBy rules x p.nodes.length = .ok pass ∧
      d = (p.finish pass).2.toProgram (p.finish pass).1 ∧ d.WellFormed := by
  rw [derivativeBy_eq rules h hx] at hd
  obtain ⟨recorded, hrecorded, hd⟩ := bind_eq_ok.1 hd
  obtain ⟨pass, hpass, rfl⟩ := recordDerivative_eq_ok.1 hrecorded
  cases hclose : (p.finish pass).2.close (p.finish pass).1 with
  | error e =>
    rw [hclose] at hd
    cases hd
  | ok d' =>
    rw [hclose] at hd
    obtain rfl := Except.ok.inj hd
    obtain ⟨hwell, rfl⟩ := Recorder.close_eq_ok.1 hclose
    exact ⟨pass, hpass, rfl, hwell⟩

end Program

end StagedTangent
