import StagedTangent.Proofs.Derivative.Differential

/-!
# Derivatives by any rules

Whatever the rules of a table record, what they record goes on from the program: its nodes stay as
they are, one argument follows, the direction, then come calls, and all that is new makes up one
segment, `Program.ContinuedBy`. The one thing that rules can do wrong is to go astray in what they
refer to, `Program.Astray`. The main statement, `derivativeBy_continues`, is that a derivative by any
rules is a well-formed program that goes on from the given one, and that rules that have gone astray
give none.
-/

namespace StagedTangent.Program

variable {rules : RuleTable} {p d : Program} {x position result : Nat} {r : Recorder}

/-- A program goes on from another by one more argument, the direction, and then by calls, which
together make up one more segment. -/
structure ContinuedBy (p d : Program) : Prop where
  nodes : p.nodes <+: d.nodes
  direction : d.node? p.size = some (.argument p.arguments.length)
  calls : ∀ place > p.size, ∀ node, d.node? place = some node →
    ∃ op operands, node = .call op operands
  arguments : d.arguments = p.arguments ++ [p.size]
  baseArity : d.baseArity = p.baseArity
  order : d.order = p.order + 1
  segments : ∃ segment, d.tape.segments = p.tape.segments ++ [segment]

/-- What can be wrong with a program that goes on from another: its result is no node, or a call
behind the direction has a number of operands that its operation does not take or an operand that
does not stand before it. -/
def Astray (p d : Program) : Prop :=
  d.size ≤ d.result ∨ ∃ place op operands, p.size < place ∧
    d.node? place = some (.call op operands) ∧
      (operands.length ≠ op.arity ∨ ∃ operand ∈ operands, place ≤ operand)

/-! ## What has been recorded behind the direction -/

/-- New nodes are packed into one segment behind those of the program. -/
theorem exists_segment_of_grows (h : p.withDirection.Grows r) :
    ∃ segment, (r.toProgram result).tape.segments = p.tape.segments ++ [segment] := by
  have hsettled : r.settled = p.tape := h.settled
  have hfresh : r.fresh.isEmpty = false := by
    have hlength := h.length_le
    rw [length_withDirection, Recorder.nodes, hsettled, List.length_append,
      Array.length_toList] at hlength
    rw [Bool.eq_false_iff, ne_eq, Array.isEmpty_iff_size_eq_zero]
    exact Nat.ne_of_gt (Nat.lt_add_right_iff_pos.1 hlength)
  refine ⟨r.fresh, ?_⟩
  change (r.settled.append r.fresh).segments = _
  rw [Tape.append, hfresh, hsettled]
  rfl

/-- What is recorded behind the direction goes on from the program. -/
theorem continuedBy_of_grows (hp : p.Regular) (h : p.withDirection.Grows r) :
    p.ContinuedBy (r.toProgram result) := by
  have hnodes : (r.toProgram result).nodes = r.nodes := Recorder.nodes_toProgram r result
  have hpre := nodes_of_extends h
  have harguments : (r.toProgram result).arguments = p.arguments ++ [p.size] := by
    rw [size_eq_length]
    exact arguments_of_extends h
  have hbaseArity : (r.toProgram result).baseArity = p.baseArity := h.baseArity
  refine ⟨?_, ?_, fun place hplace node hnode => ?_, harguments, hbaseArity, ?_,
    exists_segment_of_grows h⟩
  · rw [hnodes]
    exact (List.prefix_append _ _).trans hpre
  · rw [node?_eq, hnodes, size_eq_length]
    exact getElem?_extended_length hpre
  · rw [node?_eq, hnodes] at hnode
    rw [gt_iff_lt, size_eq_length] at hplace
    obtain ⟨op, operands, hcall, -⟩ := appended_of_extends h hplace hnode
    exact ⟨op, operands, hcall⟩
  · have hbase := hp.baseArity_le
    rw [Program.order, Program.order, harguments, hbaseArity, List.length_append,
      List.length_singleton]
    omega

/-- What is recorded behind the direction is well formed unless it has gone astray. -/
theorem wellFormed_iff_not_astray (hp : p.Regular) (h : p.withDirection.Grows r) :
    (r.toProgram result).WellFormed ↔ ¬ p.Astray (r.toProgram result) := by
  have hnodes : (r.toProgram result).nodes = r.nodes := Recorder.nodes_toProgram r result
  rw [wellFormed_iff_regular]
  constructor
  · rintro hd (hresult | ⟨place, op, operands, -, hcall, hcount | ⟨operand, ho, hle⟩⟩)
    · rw [size_eq_length] at hresult
      exact Nat.not_lt_of_le hresult hd.result_lt
    · rw [node?_eq] at hcall
      exact hcount (hd.operand_count hcall)
    · rw [node?_eq] at hcall
      exact Nat.not_lt_of_le hle (hd.operand_lt hcall ho)
  · intro hastray
    refine hp.extend (arguments_of_extends h) h.baseArity (by rw [hnodes]; exact nodes_of_extends h)
      (fun {place node} hplace hnode => ?_) ?_
    · rw [hnodes] at hnode
      obtain ⟨op, operands, rfl, -⟩ := appended_of_extends h hplace hnode
      rw [← hnodes, ← node?_eq] at hnode
      rw [← size_eq_length] at hplace
      refine ⟨op, operands, rfl, ?_, fun operand ho => ?_⟩
      · by_contra hcount
        exact hastray (.inr ⟨place, op, operands, hplace, hnode, .inl hcount⟩)
      · by_contra hle
        exact hastray
          (.inr ⟨place, op, operands, hplace, hnode, .inr ⟨operand, ho, Nat.not_lt.1 hle⟩⟩)
    · by_contra hresult
      rw [← size_eq_length] at hresult
      exact hastray (.inl (Nat.not_lt.1 hresult))

/-- The pass records behind the direction, from its beginning to its end. -/
theorem grows_of_recordDerivative (h : recordDerivative rules p x = .ok (result, r)) :
    p.withDirection.Grows r := by
  obtain ⟨pass, hpass, hfinish⟩ := recordDerivative_eq_ok.1 h
  have hgrows := (passBy_grows hpass).trans (p.finish_grows pass)
  rwa [hfinish] at hgrows

/-- A derivative has been recorded by the pass. -/
theorem exists_recorded_of_derivativeBy (h : p.WellFormed)
    (hd : p.derivativeBy rules position = .ok d) :
    ∃ x result r, p.arguments[position]? = some x ∧
      recordDerivative rules p x = .ok (result, r) ∧ d = r.toProgram result ∧ d.WellFormed := by
  cases hx : p.arguments[position]? with
  | none =>
    simp only [derivativeBy, (check_eq_ok_iff p).2 h, hx] at hd
    cases hd
  | some x =>
    obtain ⟨pass, hpass, rfl, hwell⟩ := exists_passBy_of_derivativeBy h hx hd
    exact ⟨x, _, _, rfl, recordDerivative_eq_ok.2 ⟨pass, hpass, rfl⟩, rfl, hwell⟩

/-! ## Any rules -/

/-- Whatever the rules, a derivative of a well-formed program is a well-formed program that goes on
from it. What the pass records, with no rule missing, goes on from it in any case; it is the
derivative unless the rules have gone astray, and if they have there is no derivative, because of
the first defect of what they have recorded. -/
theorem derivativeBy_continues (h : p.WellFormed) (rules : RuleTable) (position : Nat) :
    (∀ d, p.derivativeBy rules position = .ok d → d.WellFormed ∧ p.ContinuedBy d) ∧
    ∀ x result r, p.arguments[position]? = some x → recordDerivative rules p x = .ok (result, r) →
      p.ContinuedBy (r.toProgram result) ∧
      ((¬ p.Astray (r.toProgram result) ∧
          p.derivativeBy rules position = .ok (r.toProgram result)) ∨
        (p.Astray (r.toProgram result) ∧
          ∃ defect, (r.toProgram result).defect? = some defect ∧
            p.derivativeBy rules position = .error (.illFormed defect))) := by
  have hp := h.regular
  refine ⟨fun d hd => ?_, fun x result r hx hrecorded => ?_⟩
  · obtain ⟨x, result, r, -, hrecorded, rfl, hwell⟩ := exists_recorded_of_derivativeBy h hd
    exact ⟨hwell, continuedBy_of_grows hp (grows_of_recordDerivative hrecorded)⟩
  · have hgrows := grows_of_recordDerivative hrecorded
    refine ⟨continuedBy_of_grows hp hgrows, ?_⟩
    rw [derivativeBy_eq rules h hx, hrecorded, ok_bind]
    by_cases hastray : p.Astray (r.toProgram result)
    · have hdefect : ¬ (r.toProgram result).WellFormed := by
        rwa [wellFormed_iff_not_astray hp hgrows, not_not]
      obtain ⟨defect, hdefect⟩ := Option.ne_none_iff_exists'.1 hdefect
      refine .inr ⟨hastray, defect, hdefect, ?_⟩
      rw [Recorder.close_eq_error.2 hdefect]
      rfl
    · refine .inl ⟨hastray, ?_⟩
      rw [Recorder.close_eq_ok.2 ⟨(wellFormed_iff_not_astray hp hgrows).2 hastray, rfl⟩]
      rfl

/-- A rule that records an exponential that nothing uses does no harm, and one that ends in the node
behind the last gives no derivative. -/
theorem derivativeBy_continues_sine :
    let p : Program := ⟨.ofNodes #[.argument 0, .call .sin [0]], [0], 1, 1⟩
    let idle : Rule := fun _ operands => do
      let _ ← .record .exp operands
      return .keep
    let stray : Rule := fun _ _ => return ⟨fun tangent => return tangent + 1⟩
    (∃ d, p.derivativeBy ⟨[((.sin, 1), idle)]⟩ 0 = .ok d ∧ d.WellFormed ∧ p.ContinuedBy d) ∧
      p.derivativeBy ⟨[((.sin, 1), stray)]⟩ 0 = .error (.illFormed (.danglingResult 3 3)) := by
  intro p idle stray
  have h : p.WellFormed := by decide
  refine ⟨⟨_, rfl, (derivativeBy_continues h ⟨[((.sin, 1), idle)]⟩ 0).1 _ rfl⟩, ?_⟩
  have hastray : p.Astray ((p.withDirection).toProgram 3) := .inl (by decide)
  rcases ((derivativeBy_continues h ⟨[((.sin, 1), stray)]⟩ 0).2 0 3 p.withDirection rfl rfl).2 with
    ⟨hnot, -⟩ | ⟨-, defect, hdefect, herror⟩
  · exact absurd hastray hnot
  · cases hdefect
    exact herror

end StagedTangent.Program
