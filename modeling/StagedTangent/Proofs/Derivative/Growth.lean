import Mathlib.Algebra.Order.BigOperators.Group.Finset
import StagedTangent.Proofs.Derivative.Provenance

/-!
# How much differentiation adds

A derivative adds the direction and, for every call that depends on the argument and is needed for
the result, the nodes of its tangent. Their number, `Program.tangentSize`, rests on the operation
and on the operands that depend on the argument, and not on how often the call is used: each such
call is differentiated once. It is at most six (`tangentSize_le`), so that a derivative is larger by
a number of nodes that is linear in the number of these calls, `derivative_size`.
-/

namespace StagedTangent

/-- The number of nodes that the standard rule of an operation records at an operand, counted from
zero: the factor, and what the map records for the tangent. -/
def Op.contributionSize : Op → Nat → Nat
  | .constant _, _ | .abs, _ => 0
  | .add, _ | .sub, 0 => 0
  | .sub, _ => 1
  | .mul, _ | .dot, _ | .div, 0 => 1
  | .div, _ => 4
  | .neg, _ | .log, _ | .sign, _ | .sum, _ | .index _, _ | .circshift _, _ | .zeroLike, _ => 1
  | .sin, _ | .exp, _ => 2
  | .cos, _ | .sqrt, _ => 3

/-- The number of nodes of the tangent of an operation whose operands at some places have a tangent:
what these contribute, and the sums that join the contributions. -/
def Op.tangentSize (op : Op) (places : Finset Nat) : Nat :=
  ∑ k ∈ places, op.contributionSize k + (places.card - 1)

/-- One operand more, and a sum unless it is the first. -/
theorem Op.tangentSize_insert (op : Op) {places : Finset Nat} {k : Nat} (hk : k ∉ places) :
    op.tangentSize (insert k places) =
      op.tangentSize places + op.contributionSize k + if places = ∅ then 0 else 1 := by
  rw [tangentSize, tangentSize, Finset.sum_insert hk, Finset.card_insert_of_notMem hk]
  split
  · next hempty =>
    rw [hempty, Finset.card_empty, Finset.sum_empty]
    omega
  · next hne =>
    have hpos := Finset.card_pos.2 (Finset.nonempty_iff_ne_empty.2 hne)
    omega

theorem Op.tangentSize_mono (op : Op) {places places' : Finset Nat} (h : places ⊆ places') :
    op.tangentSize places ≤ op.tangentSize places' :=
  Nat.add_le_add (Finset.sum_le_sum_of_subset h)
    (Nat.sub_le_sub_right (Finset.card_le_card h) 1)

/-- The tangent of an operation takes six nodes at most. -/
theorem Op.tangentSize_le (op : Op) {places : Finset Nat} (h : places ⊆ Finset.range op.arity) :
    op.tangentSize places ≤ 6 := by
  refine (op.tangentSize_mono h).trans ?_
  cases op <;> simp [tangentSize, arity, contributionSize, Finset.sum_range_succ]

/-- A standard rule records as many nodes as its operation is said to need. -/
theorem size_contribute {op : Op} {position : Nat} {rule : Rule} (hposition : position < op.arity)
    (hrule : RuleTable.standard.get op.opcode (position + 1) = .ok rule) (operands : List Nat)
    (t : Nat) (r : Recorder) :
    ((rule.contribute op operands t).run r).2.size = r.size + op.contributionSize position := by
  suffices hensures : (rule.contribute op operands t).Ensures (fun _ _ _ => True)
      (fun final _ => final = r.size + op.contributionSize position) r.size from hensures.run.2
  match op, position, hposition with
  | .add, 0, _ | .add, 1, _ | .sub, 0, _ =>
    obtain rfl := Except.ok.inj hrule
    exact rfl
  | .mul, 0, _ | .mul, 1, _ | .div, 0, _ | .dot, 0, _ | .dot, 1, _ | .log, 0, _ | .sub, 1, _
  | .neg, 0, _ | .sum, 0, _ | .index _, 0, _ | .circshift _, 0, _ | .zeroLike, 0, _ | .sign, 0, _ =>
    obtain rfl := Except.ok.inj hrule
    exact ⟨trivial, rfl⟩
  | .sin, 0, _ | .exp, 0, _ =>
    obtain rfl := Except.ok.inj hrule
    exact ⟨trivial, trivial, rfl⟩
  | .cos, 0, _ | .sqrt, 0, _ =>
    obtain rfl := Except.ok.inj hrule
    exact ⟨trivial, trivial, trivial, rfl⟩
  | .div, 1, _ =>
    obtain rfl := Except.ok.inj hrule
    exact ⟨trivial, trivial, trivial, trivial, rfl⟩
  | .abs, 0, _ => cases hrule

namespace Program

variable {p d : Program} {x position n : Nat} {op : Op} {operands : List Nat} {pass : TangentPass}

/-! ## The calls that are differentiated -/

/-- The operands of a call, by place, that depend on an argument. -/
def varying (p : Program) (x : Nat) (operands : List Nat) : Finset Nat :=
  {k ∈ Finset.range operands.length | (p.reachedFrom x).getD (operands.getD k 0) false}

/-- The number of nodes that the tangent of a node takes. -/
def tangentSize (p : Program) (x node : Nat) : Nat :=
  match p.node? node with
  | some (.call op operands) => op.tangentSize (p.varying x operands)
  | _ => 0

/-- The calls that depend on an argument and are needed for the result. -/
def differentiated (p : Program) (x : Nat) : Finset Nat :=
  {n ∈ Finset.range p.size | p.IsCall n ∧
    (p.reachedFrom x).getD n false ∧ (p.neededFor p.result).getD n false}

theorem varying_subset : p.varying x operands ⊆ Finset.range operands.length :=
  Finset.filter_subset _ _

theorem differentiated_subset : p.differentiated x ⊆ Finset.range p.size :=
  Finset.filter_subset _ _

theorem tangentSize_call (hnode : p.nodes[n]? = some (.call op operands)) :
    p.tangentSize x n = op.tangentSize (p.varying x operands) := by
  rw [tangentSize, node?_eq, hnode]

theorem tangentSize_le (hp : p.Regular) (x n : Nat) : p.tangentSize x n ≤ 6 := by
  unfold tangentSize
  rw [node?_eq]
  split
  · next op operands hnode =>
    exact op.tangentSize_le (hp.operand_count hnode ▸ varying_subset)
  · exact Nat.zero_le 6

theorem mem_differentiated (hp : p.Regular) :
    n ∈ p.differentiated x ↔ p.IsCall n ∧ p.Path n x ∧ p.Needed n := by
  rw [differentiated, Finset.mem_filter, Finset.mem_range, size_eq_length]
  constructor
  · rintro ⟨-, hcall, hreached, hneeded⟩
    exact ⟨hcall, ((reachedFrom_iff hp).1 hreached).2, hneeded⟩
  · rintro ⟨hcall, hpath, hneeded⟩
    have hlt : n < p.nodes.length := hneeded.lt_length hp
    exact ⟨hlt, hcall, (reachedFrom_iff hp).2 ⟨hlt, hpath⟩, hneeded⟩

/-- Without a tangent for the result there is none for any call. -/
theorem differentiated_eq_empty (hp : p.Regular) (h : ¬ p.Carries x p.result) :
    p.differentiated x = ∅ := by
  refine Finset.eq_empty_of_forall_notMem fun n hn => h ?_
  obtain ⟨-, hpath, hneeded⟩ := (mem_differentiated hp).1 hn
  exact ⟨((needed_iff hp).1 hneeded).trans hpath, .inr (needed_result hp)⟩

/-! ## What the pass records -/

section Places

variable {s : Finset Nat} {m : Nat}

/-- The places of a set up to one of them. -/
theorem filter_lt_succ_of_mem (h : m ∈ s) :
    {k ∈ s | k < m + 1} = insert m {k ∈ s | k < m} := by
  ext k
  simp only [Finset.mem_filter, Finset.mem_insert]
  constructor
  · rintro ⟨hk, hlt⟩
    exact (Nat.lt_succ_iff_lt_or_eq.1 hlt).symm.imp_right fun hlt => ⟨hk, hlt⟩
  · rintro (rfl | ⟨hk, hlt⟩)
    · exact ⟨h, Nat.lt_succ_self k⟩
    · exact ⟨hk, Nat.lt_succ_of_lt hlt⟩

theorem filter_lt_succ_of_notMem (h : m ∉ s) : {k ∈ s | k < m + 1} = {k ∈ s | k < m} := by
  refine Finset.filter_congr fun k hk => ?_
  have hne : k ≠ m := fun heq => h (heq ▸ hk)
  omega

theorem filter_lt_zero (s : Finset Nat) : {k ∈ s | k < 0} = ∅ :=
  Finset.filter_false_of_mem fun k _ => Nat.not_lt_zero k

theorem filter_lt_of_subset (h : s ⊆ Finset.range m) : {k ∈ s | k < m} = s :=
  Finset.filter_true_of_mem fun _ hk => Finset.mem_range.1 (h hk)

end Places

/-- What is recorded for an operand with a tangent: its contribution, and a sum unless it is the
first. -/
theorem size_addContribution {tangents : Array (Option Nat)} {total total' : Option Nat × Recorder}
    {o k t : Nat} (hk : k < op.arity) (ht : tangents.getD o none = some t)
    (h : addContribution .standard op operands tangents total (o, k) = .ok total') :
    total'.1 ≠ none ∧ total'.2.size =
      total.2.size + op.contributionSize k + if total.1 = none then 0 else 1 := by
  rcases addContribution_cases h with ⟨hnone, -⟩ | ⟨t', rule, ht', hrule⟩
  · cases ht.symm.trans hnone
  · have hsize := size_contribute hk hrule operands t' total.2
    rw [addContribution_eq total.1 ht' hrule] at h
    cases hsum : total.1 with
    | none =>
      rw [hsum] at h
      obtain rfl := Except.ok.inj h
      exact ⟨nofun, hsize⟩
    | some sum =>
      rw [hsum] at h
      obtain rfl := Except.ok.inj h
      refine ⟨nofun, ?_⟩
      dsimp only
      rw [Recorder.size_call, hsize, if_neg nofun]

section Visited

variable (hp : p.Regular) (h : p.Passed x n pass)
  (hnode : p.nodes[n]? = some (.call op operands)) (hneeded : p.Needed n)

include hp h hnode hneeded

/-- The operands of a differentiated call that vary are those with a tangent. -/
theorem mem_varying_iff {k o : Nat} (ho : operands[k]? = some o) :
    k ∈ p.varying x operands ↔ ∃ t, pass.tangents.getD o none = some t := by
  have hmem := List.mem_of_getElem? ho
  rw [varying, Finset.mem_filter, Finset.mem_range, List.getD_eq_getElem?_getD, ho, Option.getD_some,
    and_iff_right (List.getElem?_eq_some_iff.1 ho).1, reachedFrom_iff hp,
    and_iff_right (hp.operand_lt_length hnode hmem), h.carries o (hp.operand_lt hnode hmem)]
  exact ⟨fun hpath => ⟨hpath, .inr (hneeded.operand hp hnode hmem)⟩, fun hcarries => hcarries.1⟩

/-- What is recorded for the first operands of a differentiated call. -/
theorem size_sumBy {m : Nat} (hm : m ≤ operands.length) {total : Option Nat × Recorder}
    (htotal : sumBy .standard op operands pass m = .ok total) :
    (total.1 = none ↔ {k ∈ p.varying x operands | k < m} = ∅) ∧
      total.2.size =
        pass.recorder.size + op.tangentSize {k ∈ p.varying x operands | k < m} := by
  induction m generalizing total with
  | zero =>
    obtain rfl := Except.ok.inj htotal
    rw [filter_lt_zero]
    exact ⟨iff_of_true rfl rfl, rfl⟩
  | succ m ih =>
    have ho := List.getElem?_eq_getElem hm
    rw [sumBy_succ ho] at htotal
    obtain ⟨before, hbefore, hstep⟩ := bind_eq_ok.1 htotal
    obtain ⟨hnone, hsize⟩ := ih (Nat.le_of_lt hm) hbefore
    have hvarying := mem_varying_iff hp h hnode hneeded ho
    cases ht : pass.tangents.getD operands[m] none with
    | none =>
      rw [addContribution_none before ht] at hstep
      obtain rfl := Except.ok.inj hstep
      have hnot : m ∉ p.varying x operands := by
        rw [hvarying, ht]
        rintro ⟨t, ⟨⟩⟩
      rw [filter_lt_succ_of_notMem hnot]
      exact ⟨hnone, hsize⟩
    | some t =>
      obtain ⟨hsome, hstep⟩ := size_addContribution (hp.operand_count hnode ▸ hm) ht hstep
      have hnew : m ∉ {k ∈ p.varying x operands | k < m} := by simp
      rw [filter_lt_succ_of_mem (hvarying.2 ⟨t, ht⟩), op.tangentSize_insert hnew]
      simp only [hnone] at hstep
      exact ⟨iff_of_false hsome (Finset.insert_ne_empty _ _), by omega⟩

/-- What is recorded for a differentiated call. -/
theorem size_callTangent {total : Option Nat × Recorder}
    (htotal : callTangent .standard op operands pass = .ok total) :
    total.2.size = pass.recorder.size + p.tangentSize x n := by
  rw [← sumBy_length] at htotal
  have hsize := (size_sumBy hp h hnode hneeded (Nat.le_refl _) htotal).2
  rwa [filter_lt_of_subset varying_subset, ← tangentSize_call hnode] at hsize

end Visited

/-- A step of the pass records the tangent of a differentiated call and nothing at other nodes. -/
theorem size_passNode (hp : p.Regular) (hx : p.nodes[x]? = some (.argument position))
    (h : p.Passed x n pass) {node : Node} (hnode : p.nodes[n]? = some node) {pass' : TangentPass}
    (hstep : passNode .standard x p.nodes.length (p.relevant x) pass node = .ok pass') :
    pass'.recorder.size =
      pass.recorder.size + if n ∈ p.differentiated x then p.tangentSize x n else 0 := by
  by_cases hn : n ∈ p.differentiated x
  · obtain ⟨⟨op, operands, hcall⟩, hpath, hneeded⟩ := (mem_differentiated hp).1 hn
    obtain rfl := Option.some.inj (hnode.symm.trans hcall)
    rw [passNode_of_carries hp hx h hnode ⟨hpath, .inr hneeded⟩] at hstep
    obtain ⟨total, htotal, hpass⟩ := bind_eq_ok.1 hstep
    obtain rfl := Except.ok.inj hpass
    rw [if_pos hn]
    exact size_callTangent hp h hnode hneeded htotal
  · rw [if_neg hn]
    rcases passNode_cases hstep with ⟨-, rfl⟩ | ⟨op, operands, total, rfl, hrelevant, -⟩ | rfl
    · rfl
    · rw [h.size, relevant_iff hp] at hrelevant
      exact absurd ((mem_differentiated hp).2 ⟨⟨op, operands, hnode⟩, hrelevant⟩) hn
    · rfl

/-- After a number of nodes the direction has been recorded and the tangents of the differentiated
calls among them. -/
theorem size_recorder_passBy (hp : p.Regular) (hx : p.nodes[x]? = some (.argument position))
    (hn : n ≤ p.nodes.length) (h : p.passBy .standard x n = .ok pass) :
    pass.recorder.size =
      p.nodes.length + 1 + ∑ i ∈ p.differentiated x with i < n, p.tangentSize x i := by
  induction n generalizing pass with
  | zero =>
    obtain rfl := Except.ok.inj h
    rw [filter_lt_zero, Finset.sum_empty, Nat.add_zero, Recorder.size_eq_length,
      length_withDirection]
  | succ n ih =>
    have hnode := List.getElem?_eq_getElem hn
    rw [passBy_succ hnode] at h
    obtain ⟨before, hbefore, hstep⟩ := bind_eq_ok.1 h
    have hpassed := passed_of_passBy hp hx (Nat.le_of_lt hn) hbefore
    have hsize := size_passNode hp hx hpassed hnode hstep
    rw [ih (Nat.le_of_lt hn) hbefore] at hsize
    by_cases hmem : n ∈ p.differentiated x
    · rw [filter_lt_succ_of_mem hmem, Finset.sum_insert (by simp)]
      rw [if_pos hmem] at hsize
      omega
    · rw [filter_lt_succ_of_notMem hmem]
      rw [if_neg hmem] at hsize
      omega

/-! ## The size of a derivative -/

/-- A derivative adds the direction and the tangents of the differentiated calls, each once however
often the call is used, or zeros if the result does not depend on the argument. So it grows by a
number of nodes that is linear in the number of these calls. -/
theorem derivative_size (h : p.WellFormed) (hx : p.arguments[position]? = some x)
    (hd : p.derivative position = .ok d) :
    (d.size = p.size + 1 + if (p.reachedFrom x).getD p.result false then
        ∑ n ∈ p.differentiated x, p.tangentSize x n else 1) ∧
      p.size + 1 ≤ d.size ∧ d.size ≤ p.size + 1 + max 1 (6 * (p.differentiated x).card) := by
  have hp := h.regular
  have hargument := hp.argument_at hx
  obtain ⟨pass, hpass, heq, hwell⟩ := exists_passBy_of_derivativeBy h hx hd
  have hsize := size_recorder_passBy hp hargument (Nat.le_refl _) hpass
  have hbound : ∑ n ∈ p.differentiated x, p.tangentSize x n ≤ 6 * (p.differentiated x).card := by
    rw [mul_comm]
    exact Finset.sum_le_card_nsmul _ _ 6 fun n _ => tangentSize_le hp x n
  rw [← size_eq_length, filter_lt_of_subset differentiated_subset, size_eq_length,
    Recorder.size_eq_length] at hsize
  rw [size_eq_length, size_eq_length]
  rcases finish_cases standard_separates hp hargument hpass hwell.regular heq with
    ⟨hcarries, -, hlength⟩ | ⟨hcarries, -, -, -, hlength⟩
  · rw [if_pos ((reachedFrom_result_iff hp).2 hcarries)]
    omega
  · rw [if_neg fun hreached => hcarries ((reachedFrom_result_iff hp).1 hreached)]
    rw [differentiated_eq_empty hp hcarries, Finset.sum_empty] at hsize
    omega

/-- The quotient `x / x` is used twice in its square and is differentiated once: of the nodes that
the derivative adds one is the direction, six are for the quotient and three for the square. -/
theorem derivative_size_square :
    let p : Program := ⟨.ofNodes #[.argument 0, .call .div [0, 0], .call .mul [1, 1]], [0], 2, 1⟩
    p.WellFormed ∧ p.arguments[0]? = some 0 ∧ p.differentiated 0 = {1, 2} ∧
      p.tangentSize 0 1 = 6 ∧ p.tangentSize 0 2 = 3 ∧ ∃ d, p.derivative 0 = .ok d ∧
        d.size = 3 + 1 + (6 + 3) ∧ d.size ≤ 3 + 1 + max 1 (6 * 2) := by
  intro p
  let d : Program := ⟨⟨[#[.argument 0, .call .div [0, 0], .call .mul [1, 1]],
    #[.argument 1, .call .div [3, 0], .call .div [0, 0], .call .div [5, 0], .call .neg [6],
      .call .mul [3, 7], .call .add [4, 8], .call .mul [9, 1], .call .mul [1, 9],
      .call .add [10, 11]]], 13, rfl⟩, [0, 3], 12, 1⟩
  have h : p.WellFormed := by decide
  have hd : p.derivative 0 = .ok d := by decide +kernel
  obtain ⟨hsize, -, hle⟩ := derivative_size (x := 0) h rfl hd
  have hcalls : p.differentiated 0 = {1, 2} := by decide +kernel
  have hquotient : p.tangentSize 0 1 = 6 := by decide +kernel
  have hsquare : p.tangentSize 0 2 = 3 := by decide +kernel
  refine ⟨h, rfl, hcalls, hquotient, hsquare, d, hd, ?_, ?_⟩
  · have hreached : (p.reachedFrom 0).getD p.result false = true := by decide +kernel
    rw [if_pos hreached, hcalls, Finset.sum_pair (by decide), hquotient, hsquare] at hsize
    exact hsize
  · rw [hcalls, Finset.card_pair (by decide)] at hle
    exact hle

end Program

end StagedTangent
