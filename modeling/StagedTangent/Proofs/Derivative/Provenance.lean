import StagedTangent.Proofs.Derivative.Consultation
import StagedTangent.Proofs.Derivative.Differential
import StagedTangent.Proofs.Derivative.Separation

/-!
# Where the nodes of a derivative come from

Behind the direction a derivative holds what the pass has recorded when it came to the operands of
calls, `Program.Visit`: factors, which the rules record, contributions, which their maps record, and
sums, which the pass records itself. `exists_visit` shows that there is nothing else. If the rules
keep factors and maps apart, no factor depends on the direction, and all contributions and sums do,
so that a derivative depends on its direction exactly if the program depends on the argument. For
the standard rules this is the main statement, `derivative_dependsAlike`.
-/

namespace StagedTangent.Program

variable {rules : RuleTable} {p d : Program} {x position n place : Nat} {op : Op}
  {operands : List Nat} {pass : TangentPass}

/-! ## Visits -/

/-- A visit of the pass to an operand of a call: the call depends on the argument and is needed, the
operand has a tangent, and there is a rule for it. -/
structure Visit (rules : RuleTable) (p : Program) (x : Nat) where
  node : Nat
  op : Op
  operands : List Nat
  position : Nat
  operand : Nat
  /-- The state of the pass when it comes to the call. -/
  pass : TangentPass
  /-- What the operands before this one have come to. -/
  total : Option Nat × Recorder
  tangent : Nat
  rule : Rule
  node_eq : p.nodes[node]? = some (.call op operands)
  relevant : p.relevant x node = true
  pass_eq : p.passBy rules x node = .ok pass
  operand_eq : operands[position]? = some operand
  total_eq : sumBy rules op operands pass position = .ok total
  tangent_eq : pass.tangents.getD operand none = some tangent
  rule_eq : rules.get op.opcode (position + 1) = .ok rule

namespace Visit

variable (v : Visit rules p x)

/-- The map that the rule leaves when it has recorded its factor. -/
def factored : TangentMap × Recorder := (v.rule v.op v.operands).run v.total.2

/-- The contribution that the map ends in when it has been recorded. -/
def mapped : Nat × Recorder := (v.factored.1.apply v.tangent).run v.factored.2

/-- The sum of the contributions up to this one. -/
def summed : Option Nat × Recorder :=
  match v.total.1 with
  | none => (some v.mapped.1, v.mapped.2)
  | some sum => (some v.mapped.2.size, (v.mapped.2.call .add [sum, v.mapped.1]).2)

/-- The rule has recorded a place. -/
def Factor (place : Nat) : Prop := v.total.2.size ≤ place ∧ place < v.factored.2.size

/-- The map has recorded a place. -/
def Contribution (place : Nat) : Prop := v.factored.2.size ≤ place ∧ place < v.mapped.2.size

/-- The pass has recorded a place, for a sum. -/
def Sum (place : Nat) : Prop := v.mapped.2.size ≤ place ∧ place < v.summed.2.size

theorem node_lt : v.node < p.nodes.length := (List.getElem?_eq_some_iff.1 v.node_eq).1

theorem position_lt : v.position < v.operands.length := (List.getElem?_eq_some_iff.1 v.operand_eq).1

theorem addContribution_eq : addContribution rules v.op v.operands v.pass.tangents v.total
    (v.operand, v.position) = .ok v.summed := by
  rw [addContribution_of_rule v.tangent_eq v.rule_eq, summed]
  cases v.total.1 <;> rfl

theorem summed_eq : sumBy rules v.op v.operands v.pass (v.position + 1) = .ok v.summed := by
  rw [sumBy_succ v.operand_eq, v.total_eq, ok_bind, v.addContribution_eq]

theorem factored_grows : v.factored.2.Grows v.mapped.2 := Fragment.grows_run _ _

theorem mapped_grows : v.mapped.2.Grows v.summed.2 := by
  rw [summed]
  cases v.total.1 with
  | none => exact .refl _
  | some sum => exact .call trivial

/-- A sum is the one place that a visit may record behind the contribution. -/
theorem Sum.summed_eq {v : Visit rules p x} (h : v.Sum place) : v.summed.1 = some place := by
  obtain ⟨hge, hlt⟩ := h
  rw [summed] at hlt ⊢
  cases htotal : v.total.1 with
  | none =>
    rw [htotal] at hlt
    exact absurd hlt (Nat.not_lt_of_le hge)
  | some sum =>
    rw [htotal] at hlt
    simp only [Recorder.size_call] at hlt
    exact congrArg some (Nat.le_antisymm hge (Nat.le_of_lt_succ hlt))

/-- Whatever a visit records is a factor, a contribution or a sum. -/
theorem recorded_cases (hge : v.total.2.size ≤ place) (hlt : place < v.summed.2.size) :
    v.Factor place ∨ v.Contribution place ∨ v.Sum place := by
  rcases Nat.lt_or_ge place v.factored.2.size with hfactor | hfactor
  · exact .inl ⟨hge, hfactor⟩
  · rcases Nat.lt_or_ge place v.mapped.2.size with hmap | hmap
    · exact .inr (.inl ⟨hfactor, hmap⟩)
    · exact .inr (.inr ⟨hmap, hlt⟩)

/-- What a visit has recorded is still there at the end of the pass. -/
theorem grows (hp : p.Regular) (hx : p.nodes[x]? = some (.argument position))
    (h : p.passBy rules x p.nodes.length = .ok pass) : v.summed.2.Grows pass.recorder := by
  obtain ⟨hpath, hneeded⟩ := (relevant_iff hp).1 v.relevant
  have hpassed := passed_of_passBy hp hx (Nat.le_of_lt v.node_lt) v.pass_eq
  obtain ⟨after, hafter, hgrows⟩ := exists_passBy_of_le (Nat.succ_le_of_lt v.node_lt) h
  rw [passBy_succ v.node_eq, v.pass_eq, ok_bind,
    passNode_of_carries hp hx hpassed v.node_eq ⟨hpath, .inr hneeded⟩] at hafter
  obtain ⟨total, htotal, hafter⟩ := bind_eq_ok.1 hafter
  obtain rfl := Except.ok.inj hafter
  rw [← sumBy_length] at htotal
  obtain ⟨summed, hsummed, hgrows'⟩ := exists_sumBy_of_le (Nat.succ_le_of_lt v.position_lt) htotal
  rw [v.summed_eq] at hsummed
  obtain rfl := Except.ok.inj hsummed
  exact hgrows'.trans hgrows

end Visit

/-! ## Nothing else is recorded -/

/-- What the first operands of a call have recorded has been recorded at visits to them. -/
theorem exists_visit_of_sumBy (hnode : p.nodes[n]? = some (.call op operands))
    (hrelevant : p.relevant x n = true) (hpass : p.passBy rules x n = .ok pass) {k : Nat}
    (hk : k ≤ operands.length) {total : Option Nat × Recorder}
    (htotal : sumBy rules op operands pass k = .ok total) (hge : pass.recorder.size ≤ place)
    (hlt : place < total.2.size) :
    ∃ v : Visit rules p x, v.Factor place ∨ v.Contribution place ∨ v.Sum place := by
  induction k generalizing total with
  | zero =>
    obtain rfl := Except.ok.inj htotal
    exact absurd hlt (Nat.not_lt_of_le hge)
  | succ k ih =>
    have ho := List.getElem?_eq_getElem hk
    rw [sumBy_succ ho] at htotal
    obtain ⟨before, hbefore, hstep⟩ := bind_eq_ok.1 htotal
    rcases Nat.lt_or_ge place before.2.size with hold | hnew
    · exact ih (Nat.le_of_lt hk) hbefore hold
    · rcases addContribution_cases hstep with ⟨-, rfl⟩ | ⟨t, rule, ht, hrule⟩
      · exact absurd hlt (Nat.not_lt_of_le hnew)
      · let v : Visit rules p x := ⟨n, op, operands, k, _, pass, before, t, rule, hnode, hrelevant,
          hpass, ho, hbefore, ht, hrule⟩
        obtain rfl : v.summed = total := Except.ok.inj (v.addContribution_eq.symm.trans hstep)
        exact ⟨v, v.recorded_cases hnew hlt⟩

/-- What the pass has recorded behind the direction has been recorded at visits. -/
theorem exists_visit (hn : n ≤ p.nodes.length) (h : p.passBy rules x n = .ok pass)
    (hge : p.nodes.length < place) (hlt : place < pass.recorder.size) :
    ∃ v : Visit rules p x, v.Factor place ∨ v.Contribution place ∨ v.Sum place := by
  induction n generalizing pass with
  | zero =>
    obtain rfl := Except.ok.inj h
    rw [Recorder.size_eq_length, length_withDirection] at hlt
    exact absurd hlt (Nat.not_lt_of_le hge)
  | succ n ih =>
    have hnode := List.getElem?_eq_getElem hn
    rw [passBy_succ hnode] at h
    obtain ⟨before, hbefore, hstep⟩ := bind_eq_ok.1 h
    rcases passNode_cases hstep with
      ⟨-, rfl⟩ | ⟨op, operands, total, hcall, hrelevant, htotal, rfl⟩ | rfl
    · exact ih (Nat.le_of_lt hn) hbefore hlt
    · rcases Nat.lt_or_ge place before.recorder.size with hold | hnew
      · exact ih (Nat.le_of_lt hn) hbefore hold
      · rw [hcall] at hnode
        rw [size_passBy (Nat.le_of_lt hn) hbefore] at hrelevant
        rw [← sumBy_length] at htotal
        exact exists_visit_of_sumBy hnode hrelevant hbefore (Nat.le_refl _) htotal hnew hlt
    · exact ih (Nat.le_of_lt hn) hbefore hlt

/-! ## What depends on the direction -/

/-- A sum of contributions depends on what the tangents of the operands depend on. -/
theorem path_of_sumBy (hrules : rules.Separates) (hcount : operands.length = op.arity)
    {direction : Nat} (htangents : ∀ o t, pass.tangents.getD o none = some t → d.Path t direction)
    {k : Nat} (hk : k ≤ operands.length) {total : Option Nat × Recorder}
    (h : sumBy rules op operands pass k = .ok total) (hpre : total.2.nodes <+: d.nodes) :
    ∀ sum, total.1 = some sum → d.Path sum direction := by
  induction k generalizing total with
  | zero =>
    obtain rfl := Except.ok.inj h
    exact nofun
  | succ k ih =>
    rw [sumBy_succ (List.getElem?_eq_getElem hk)] at h
    obtain ⟨before, hbefore, h⟩ := bind_eq_ok.1 h
    rcases addContribution_cases h with ⟨-, rfl⟩ | ⟨t, rule, ht, hrule⟩
    · exact ih (Nat.le_of_lt hk) hbefore hpre
    · have hmap := (hrules (hcount ▸ hk) hrule operands before.2.size hcount).run.2
      rw [addContribution_of_rule ht hrule] at h
      cases hbeforeSum : before.1 with
      | none =>
        rw [hbeforeSum] at h
        obtain rfl := Except.ok.inj h
        rintro _ ⟨⟩
        exact (hmap.path hpre (htangents _ t ht)).2
      | some previous =>
        -- The sum uses the contribution, whatever has been summed up before.
        rw [hbeforeSum] at h
        obtain rfl := Except.ok.inj h
        rintro _ ⟨⟩
        have hadd := Recorder.getElem?_of_call hpre
        refine .head (uses_of_call hadd (List.mem_cons_of_mem _ (List.mem_cons_self ..))) ?_
        exact (hmap.path ((Recorder.Extends.call trivial : Recorder.Grows _ _).nodes.trans hpre)
          (htangents _ t ht)).2

/-- Tangents depend on the direction. -/
theorem path_of_passBy (hrules : rules.Separates) (hp : p.Regular) (hn : n ≤ p.nodes.length)
    (h : p.passBy rules x n = .ok pass) (hpre : pass.recorder.nodes <+: d.nodes) :
    ∀ i t, pass.tangents.getD i none = some t → d.Path t p.nodes.length := by
  induction n generalizing pass with
  | zero =>
    obtain rfl := Except.ok.inj h
    intro i t ht
    simp at ht
  | succ n ih =>
    have hnode := List.getElem?_eq_getElem hn
    rw [passBy_succ hnode] at h
    obtain ⟨before, hbefore, hstep⟩ := bind_eq_ok.1 h
    have hold := ih (Nat.le_of_lt hn) hbefore ((passNode_grows hstep).nodes.trans hpre)
    intro i t ht
    rcases passNode_cases hstep with ⟨-, rfl⟩ | ⟨op, operands, total, hcall, -, htotal, rfl⟩ | rfl
    all_goals
      rw [getD_push] at ht
      split at ht
    · cases ht
      exact .refl
    · exact hold i t ht
    · rw [hcall] at hnode
      rw [← sumBy_length] at htotal
      exact path_of_sumBy hrules (hp.operand_count hnode) hold (Nat.le_refl _) htotal hpre t ht
    · exact hold i t ht
    · cases ht
    · exact hold i t ht

namespace Visit

variable (v : Visit rules p x)

/-- The tangents that a visit finds depend on the direction. -/
theorem path_of_tangent (hrules : rules.Separates) (hp : p.Regular)
    (hpre : v.summed.2.nodes <+: d.nodes) :
    ∀ i t, v.pass.tangents.getD i none = some t → d.Path t p.nodes.length :=
  path_of_passBy hrules hp (Nat.le_of_lt v.node_lt) v.pass_eq
    ((sumBy_grows v.summed_eq).nodes.trans hpre)

/-- Factors do not depend on the direction. -/
theorem Factor.not_reached {v : Visit rules p x} (hrules : rules.Separates) (hp : p.Regular)
    (hd : d.Regular) (hpre : v.summed.2.nodes <+: d.nodes) (h : v.Factor place) :
    (d.reachedFrom p.size).getD place false = false := by
  have hcount := hp.operand_count v.node_eq
  have hdirection : p.nodes.length < v.total.2.size := by
    have hle := ((passBy_grows v.pass_eq).trans (sumBy_grows v.total_eq)).size_le
    rwa [Recorder.size_eq_length, length_withDirection] at hle
  have hoperands : ∀ o ∈ v.operands, ¬ d.Path o p.nodes.length := fun o ho hpath =>
    Nat.not_lt_of_le (hpath.le hd) (hp.operand_lt_length v.node_eq ho)
  have hnot : ¬ d.Path place p.nodes.length :=
    (hrules (hcount ▸ v.position_lt) v.rule_eq).not_path hcount
      ((v.factored_grows.trans v.mapped_grows).nodes.trans hpre) hdirection hoperands place h.1 h.2
  rw [← Bool.not_eq_true, size_eq_length, reachedFrom_iff hd]
  exact fun hreached => hnot hreached.2

/-- Contributions do. -/
theorem Contribution.reached {v : Visit rules p x} (hrules : rules.Separates) (hp : p.Regular)
    (hd : d.Regular) (hpre : v.summed.2.nodes <+: d.nodes) (h : v.Contribution place) :
    (d.reachedFrom p.size).getD place false = true := by
  have hcount := hp.operand_count v.node_eq
  have hmapped : v.mapped.2.nodes <+: d.nodes := v.mapped_grows.nodes.trans hpre
  have htangent := v.path_of_tangent hrules hp hpre _ _ v.tangent_eq
  have hmap := (hrules (hcount ▸ v.position_lt) v.rule_eq v.operands v.total.2.size hcount).run.2
  rw [size_eq_length, reachedFrom_iff hd]
  exact ⟨Recorder.lt_length_of_prefix hmapped h.2, (hmap.path hmapped htangent).1 place h.1 h.2⟩

/-- Sums do. -/
theorem Sum.reached {v : Visit rules p x} (hrules : rules.Separates) (hp : p.Regular)
    (hd : d.Regular) (hpre : v.summed.2.nodes <+: d.nodes) (h : v.Sum place) :
    (d.reachedFrom p.size).getD place false = true := by
  rw [size_eq_length, reachedFrom_iff hd]
  exact ⟨Recorder.lt_length_of_prefix hpre h.2, path_of_sumBy hrules (hp.operand_count v.node_eq)
    (v.path_of_tangent hrules hp hpre) v.position_lt v.summed_eq hpre place h.summed_eq⟩

end Visit

/-! ## The derivative and its direction -/

/-- A derivative depends on its direction as its program does on the argument: the result does if
that of the program does, and holds zeros otherwise. Of the nodes that have been recorded behind
the direction the factors do not depend on it, and the contributions and sums do; but for the zeros
there are no others. -/
structure DependsAlike (rules : RuleTable) (p : Program) (x : Nat) (d : Program) : Prop where
  direction : d.arguments = p.arguments ++ [p.size]
  result : (d.reachedFrom p.size).getD d.result false = true ↔
    (p.reachedFrom x).getD p.result false = true
  zeros : (p.reachedFrom x).getD p.result false = false →
    d.node? d.result = some (.call .zeroLike [p.result])
  recorded : ∀ v : Visit rules p x, v.summed.2.nodes <+: d.nodes
  factor : ∀ (v : Visit rules p x) (place : Nat), v.Factor place →
    (d.reachedFrom p.size).getD place false = false
  contribution : ∀ (v : Visit rules p x) (place : Nat), v.Contribution place →
    (d.reachedFrom p.size).getD place false = true
  sum : ∀ (v : Visit rules p x) (place : Nat), v.Sum place →
    (d.reachedFrom p.size).getD place false = true
  complete : ∀ place > p.size, place < d.size →
    (∃ v : Visit rules p x, v.Factor place ∨ v.Contribution place ∨ v.Sum place) ∨
      (place = d.result ∧ (p.reachedFrom x).getD p.result false = false)

/-- The result of a program depends on the argument if it carries a tangent. -/
theorem reachedFrom_result_iff (hp : p.Regular) :
    (p.reachedFrom x).getD p.result false = true ↔ p.Carries x p.result := by
  rw [reachedFrom_iff hp, and_iff_right hp.result_lt]
  exact ⟨fun hpath => ⟨hpath, .inr (needed_result hp)⟩, fun hcarries => hcarries.1⟩

/-- The pass ends in the tangent of the result, which depends on the direction, or in zeros, which
do not. -/
theorem finish_cases (hrules : rules.Separates) (hp : p.Regular)
    (hx : p.nodes[x]? = some (.argument position))
    (hpass : p.passBy rules x p.nodes.length = .ok pass) (hd : d.Regular)
    (heq : d = (p.finish pass).2.toProgram (p.finish pass).1) :
    (p.Carries x p.result ∧ d.Path d.result p.nodes.length ∧
      d.nodes.length = pass.recorder.nodes.length) ∨
    (¬ p.Carries x p.result ∧ ¬ d.Path d.result p.nodes.length ∧
      d.nodes[d.result]? = some (.call .zeroLike [p.result]) ∧
      d.result = pass.recorder.nodes.length ∧
      d.nodes.length = pass.recorder.nodes.length + 1) := by
  have hcarries := (passed_of_passBy hp hx (Nat.le_refl _) hpass).carries p.result hp.result_lt
  have hnodes : d.nodes = (p.finish pass).2.nodes := by rw [heq, Recorder.nodes_toProgram]
  have hresult : d.result = (p.finish pass).1 := by rw [heq]; rfl
  cases ht : pass.tangents.getD p.result none with
  | some t =>
    rw [finish_of_some ht] at hnodes hresult
    have hpre : pass.recorder.nodes <+: d.nodes := ⟨[], by rw [List.append_nil, hnodes]⟩
    refine .inl ⟨hcarries.1 ⟨t, ht⟩, ?_, by rw [hnodes]⟩
    rw [hresult]
    exact path_of_passBy hrules hp (Nat.le_refl _) hpass hpre p.result t ht
  | none =>
    rw [finish_of_none ht] at hnodes hresult
    rw [ht] at hcarries
    have hsize : d.result = pass.recorder.nodes.length := by
      rw [hresult, ← Recorder.size_eq_length]
      rfl
    have hzeros : d.nodes[d.result]? = some (.call .zeroLike [p.result]) := by
      rw [hsize, ← Recorder.size_eq_length, hnodes]
      exact Recorder.getElem?_of_call (List.prefix_refl _)
    refine .inr ⟨fun h => ?_, fun hpath => ?_, hzeros, hsize, ?_⟩
    · obtain ⟨t, ⟨⟩⟩ := hcarries.2 h
    · -- The zeros use the result of the program only, which stands before the direction.
      rcases Relation.ReflTransGen.cases_head hpath with hself | ⟨o, huse, hrest⟩
      · have hlt := (passBy_grows hpass).length_le
        rw [length_withDirection] at hlt
        omega
      · obtain ⟨op, operands, hcall, ho⟩ := huse.exists_call
        rw [hzeros] at hcall
        cases hcall
        rw [List.mem_singleton.1 ho] at hrest
        exact Nat.not_lt_of_le (Path.le hd hrest) hp.result_lt
    · rw [hnodes, Recorder.nodes_call, List.length_append, List.length_singleton]

/-- A derivative depends on its direction as its program does on the argument. -/
theorem derivative_dependsAlike (h : p.WellFormed) (hx : p.arguments[position]? = some x)
    (hd : p.derivative position = .ok d) : DependsAlike .standard p x d := by
  have hp := h.regular
  have hargument := hp.argument_at hx
  obtain ⟨pass, hpass, heq, hwell⟩ := exists_passBy_of_derivativeBy h hx hd
  have hregular := hwell.regular
  have hend := finish_cases standard_separates hp hargument hpass hregular heq
  have hrecorded : ∀ v : Visit .standard p x, v.summed.2.nodes <+: d.nodes := by
    intro v
    rw [heq, Recorder.nodes_toProgram]
    exact ((v.grows hp hargument hpass).trans (p.finish_grows pass)).nodes
  refine
    { direction := ?_
      result := ?_
      zeros := fun hnot => ?_
      recorded := hrecorded
      factor := fun v _ h => h.not_reached standard_separates hp hregular (hrecorded v)
      contribution := fun v _ h => h.reached standard_separates hp hregular (hrecorded v)
      sum := fun v _ h => h.reached standard_separates hp hregular (hrecorded v)
      complete := fun place hge hlt => ?_ }
  · rw [heq, size_eq_length]
    exact arguments_of_extends ((passBy_grows hpass).trans (p.finish_grows pass))
  · rw [reachedFrom_result_iff hp, size_eq_length, reachedFrom_iff hregular,
      and_iff_right hregular.result_lt]
    rcases hend with ⟨hcarries, hpath, -⟩ | ⟨hcarries, hpath, -⟩
    · exact iff_of_true hpath hcarries
    · exact iff_of_false hpath hcarries
  · rw [← Bool.not_eq_true, reachedFrom_result_iff hp] at hnot
    rcases hend with ⟨hcarries, -⟩ | ⟨-, -, hzeros, -⟩
    · exact absurd hcarries hnot
    · rwa [node?_eq]
  · rw [gt_iff_lt, size_eq_length] at hge
    rw [size_eq_length] at hlt
    rw [← Bool.not_eq_true, reachedFrom_result_iff hp]
    rcases Nat.lt_or_ge place pass.recorder.size with hpassed | hpassed
    · exact .inl (exists_visit (Nat.le_refl _) hpass hge hpassed)
    · -- Behind what the pass has recorded there is at most the one node of the zeros.
      rw [Recorder.size_eq_length] at hpassed
      rcases hend with ⟨-, -, hlength⟩ | ⟨hcarries, -, -, hresult, hlength⟩
      · omega
      · exact .inr ⟨by omega, hcarries⟩

/-- Of `x * sin x` the derivative holds the cosine for a factor, and everything else that has been
recorded for it depends on the direction. -/
theorem derivative_dependsAlike_product :
    let p : Program := ⟨.ofNodes #[.argument 0, .call .sin [0], .call .mul [0, 1]], [0], 2, 1⟩
    ∃ d, p.derivative 0 = .ok d ∧ DependsAlike .standard p 0 d ∧
      d.reachedFrom 3 = #[false, false, false, true, false, true, true, true, true] ∧
      ∃ v : Visit .standard p 0, v.Factor 4 := by
  intro p
  let d : Program := ⟨⟨[#[.argument 0, .call .sin [0], .call .mul [0, 1]],
    #[.argument 1, .call .cos [0], .call .mul [3, 4], .call .mul [3, 1], .call .mul [0, 5],
      .call .add [6, 7]]], 9, rfl⟩, [0, 3], 8, 1⟩
  have h : p.WellFormed := by decide
  have hd : p.derivative 0 = .ok d := by decide +kernel
  have halike := derivative_dependsAlike (x := 0) h rfl hd
  refine ⟨d, hd, halike, by decide +kernel, ?_⟩
  have hnot : (d.reachedFrom p.size).getD 4 false ≠ true := by decide +kernel
  rcases halike.complete 4 (by decide) (by decide) with ⟨v, hfactor | hcontribution | hsum⟩ | hlast
  · exact ⟨v, hfactor⟩
  · exact absurd (halike.contribution v 4 hcontribution) hnot
  · exact absurd (halike.sum v 4 hsum) hnot
  · cases hlast.1

end StagedTangent.Program
