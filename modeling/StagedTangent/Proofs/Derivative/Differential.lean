import StagedTangent.Proofs.Derivative.Progress

/-!
# What a derivative is made of

A derivative extends its program by one argument and by calls. `Program.Differential` says what these
compute: the tangents of the nodes that carry one, and the tangent of the result. By
`derivative_dichotomy` a well-formed program has such a derivative at an argument, itself well
formed, unless an `abs` stands in the way.
-/

namespace StagedTangent.Program

/-- A program is the derivative of another with respect to the argument at a node, where the nodes
that carry a tangent have it at the given places. -/
structure Differential (p : Program) (x : Nat) (tangent : Nat → Option Nat) (d : Program) :
    Prop where
  regular : d.Regular
  arguments : d.arguments = p.arguments ++ [p.nodes.length]
  baseArity : d.baseArity = p.baseArity
  nodes : p.nodes ++ [.argument p.arguments.length] <+: d.nodes
  appended : ∀ {place : Nat} {node : Node}, p.nodes.length < place → d.nodes[place]? = some node →
    ∃ op operands, node = .call op operands ∧ p.AppendedCall place op operands
  self : tangent x = some p.nodes.length
  carries : ∀ i, (∃ t, tangent i = some t) ↔ p.Carries x i
  unblocked : ∀ i, ¬ p.Blocks x i
  bounds : ∀ {i t : Nat}, tangent i = some t → p.nodes.length ≤ t ∧ t < d.nodes.length
  call : ∀ {i t : Nat} {op : Op} {operands : List Nat}, tangent i = some t →
    p.nodes[i]? = some (.call op operands) → CallTangent d.nodes tangent op operands t
  result : tangent p.result = some d.result ∨
    (tangent p.result = none ∧ p.nodes.length < d.result ∧
      d.nodes[d.result]? = some (.call .zeroLike [p.result]))

variable {p : Program} {x position : Nat}

/-! ## Tapes that go on with the direction -/

section Extended

variable {nodes : List Node}

theorem getElem?_extended (hpre : p.nodes ++ [.argument p.arguments.length] <+: nodes) {node : Nat}
    (hnode : node < p.nodes.length) : nodes[node]? = p.nodes[node]? := by
  obtain ⟨more, rfl⟩ := hpre
  rw [List.append_assoc, List.getElem?_append_left hnode]

theorem getElem?_extended_length (hpre : p.nodes ++ [.argument p.arguments.length] <+: nodes) :
    nodes[p.nodes.length]? = some (.argument p.arguments.length) := by
  obtain ⟨more, rfl⟩ := hpre
  rw [List.append_assoc, List.getElem?_append_right (Nat.le_refl _), Nat.sub_self]
  rfl

/-- A node of a tape that extends a program by an argument and calls is one of the program, that
argument or one of those calls. -/
theorem node_cases {step : Nat → Op → List Nat → Prop}
    (hpre : p.nodes ++ [.argument p.arguments.length] <+: nodes)
    (happended : ∀ {place : Nat} {node : Node}, p.nodes.length < place →
      nodes[place]? = some node → ∃ op operands, node = .call op operands ∧ step place op operands)
    {place : Nat} {node : Node} (hnode : nodes[place]? = some node) :
    p.nodes[place]? = some node ∨
      (place = p.nodes.length ∧ node = .argument p.arguments.length) ∨
      ∃ op operands, node = .call op operands ∧ step place op operands := by
  rcases Nat.lt_trichotomy place p.nodes.length with hlt | rfl | hgt
  · rw [getElem?_extended hpre hlt] at hnode
    exact .inl hnode
  · rw [getElem?_extended_length hpre] at hnode
    cases hnode
    exact .inr (.inl ⟨rfl, rfl⟩)
  · exact .inr (.inr (happended hgt hnode))

/-- The direction is listed behind the arguments of the program. -/
theorem getElem?_listed {position node : Nat}
    (h : (p.arguments ++ [p.nodes.length])[position]? = some node) :
    p.arguments[position]? = some node ∨
      (position = p.arguments.length ∧ node = p.nodes.length) := by
  rcases Nat.lt_or_ge position p.arguments.length with hlt | hge
  · rw [List.getElem?_append_left hlt] at h
    exact .inl h
  · have hlt := (List.getElem?_eq_some_iff.1 h).1
    rw [List.length_append, List.length_singleton] at hlt
    obtain rfl := Nat.le_antisymm (Nat.le_of_lt_succ hlt) hge
    rw [List.getElem?_append_right (Nat.le_refl _), Nat.sub_self] at h
    cases h
    exact .inr ⟨rfl, rfl⟩

/-- A program that is extended by the direction and by calls of earlier nodes is well formed. -/
theorem Regular.extend (hp : p.Regular) {d : Program}
    (harguments : d.arguments = p.arguments ++ [p.nodes.length])
    (hbaseArity : d.baseArity = p.baseArity)
    (hpre : p.nodes ++ [.argument p.arguments.length] <+: d.nodes)
    (happended : ∀ {place : Nat} {node : Node}, p.nodes.length < place →
      d.nodes[place]? = some node → ∃ op operands, node = .call op operands ∧
        operands.length = op.arity ∧ ∀ operand ∈ operands, operand < place)
    (hresult : d.result < d.nodes.length) : d.Regular := by
  refine ⟨?_, ?_, ?_, ?_, ?_, hresult⟩
  · rw [hbaseArity, harguments, List.length_append]
    exact Nat.le_trans hp.baseArity_le (Nat.le_add_right _ _)
  · intro position node hposition
    rw [harguments] at hposition
    rcases getElem?_listed hposition with hold | ⟨rfl, rfl⟩
    · rw [getElem?_extended hpre (hp.argument_lt hold)]
      exact hp.argument_at hold
    · exact getElem?_extended_length hpre
  · intro position node hnode
    rw [harguments]
    rcases node_cases hpre happended hnode with hold | ⟨rfl, heq⟩ | ⟨op, operands, hcall, -⟩
    · rw [List.getElem?_append_left (hp.position_lt hold)]
      exact hp.argument_listed hold
    · cases heq
      rw [List.getElem?_append_right (Nat.le_refl _), Nat.sub_self]
      rfl
    · cases hcall
  · intro node op operands hnode
    rcases node_cases hpre happended hnode with hold | ⟨-, heq⟩ | ⟨op', operands', hcall, hnew⟩
    · exact hp.operand_count hold
    · cases heq
    · cases hcall
      exact hnew.1
  · intro node op operands operand hnode ho
    rcases node_cases hpre happended hnode with hold | ⟨-, heq⟩ | ⟨op', operands', hcall, hnew⟩
    · exact hp.operand_lt hold ho
    · cases heq
    · cases hcall
      exact hnew.2 operand ho

end Extended

/-! ## What the pass records -/

section Recorded

variable {r : Recorder} {step : Nat → Op → List Nat → Prop}

theorem arguments_of_extends (h : p.withDirection.Extends step r) :
    r.arguments = p.arguments ++ [p.nodes.length] := by
  rw [h.arguments]
  change p.arguments ++ [(Recorder.resume p).size] = _
  rw [Recorder.size_eq_length, Recorder.nodes_resume]

theorem nodes_of_extends (h : p.withDirection.Extends step r) :
    p.nodes ++ [.argument p.arguments.length] <+: r.nodes := by
  rw [← nodes_withDirection]
  exact h.nodes

theorem appended_of_extends (h : p.withDirection.Extends step r) {place : Nat}
    {node : Node} (hplace : p.nodes.length < place) (hnode : r.nodes[place]? = some node) :
    ∃ op operands, node = .call op operands ∧ step place op operands := by
  refine h.appended ?_ hnode
  rw [length_withDirection]
  exact hplace

end Recorded

/-- The last step: what has been recorded is closed with its result. -/
theorem differential_of_passState (hp : p.Regular) (hx : p.nodes[x]? = some (.argument position))
    (hfree : ∀ n < p.nodes.length, ¬ p.Blocks x n) {pass : TangentPass}
    (h : p.PassState x p.nodes.length pass) (r : Recorder) (result : Nat)
    (hextends : pass.recorder.Extends p.AppendedCall r) (hlt : result < r.nodes.length)
    (hresult : pass.tangents.getD p.result none = some result ∨
      (pass.tangents.getD p.result none = none ∧ p.nodes.length < result ∧
        r.nodes[result]? = some (.call .zeroLike [p.result]))) :
    p.Differential x (fun i => pass.tangents.getD i none) (r.toProgram result) := by
  have hall := h.extension.trans hextends
  have hnodes : (r.toProgram result).nodes = r.nodes := Recorder.nodes_toProgram r result
  have hpre : p.nodes ++ [.argument p.arguments.length] <+: (r.toProgram result).nodes := by
    rw [hnodes]
    exact nodes_of_extends hall
  have happended : ∀ {place : Nat} {node : Node}, p.nodes.length < place →
      (r.toProgram result).nodes[place]? = some node →
        ∃ op operands, node = .call op operands ∧ p.AppendedCall place op operands := by
    intro place node hplace hnode
    rw [hnodes] at hnode
    exact appended_of_extends hall hplace hnode
  have hregular : (r.toProgram result).Regular := by
    refine hp.extend (arguments_of_extends hall) hall.baseArity hpre (fun hplace hnode => ?_)
      (by rwa [hnodes])
    obtain ⟨op, operands, rfl, hnew⟩ := happended hplace hnode
    exact ⟨op, operands, rfl, hnew.count, hnew.lt⟩
  refine ⟨hregular, arguments_of_extends hall, hall.baseArity, hpre, happended, ?_, ?_,
    fun i hblocks => ?_, ?_, ?_, ?_⟩
  · exact h.self (List.getElem?_eq_some_iff.1 hx).1
  · intro i
    rcases Nat.lt_or_ge i p.nodes.length with hi | hi
    · exact h.carries i hi
    · constructor
      · rintro ⟨t, ht⟩
        rw [Array.getD_eq_getD_getElem?, Array.getElem?_eq_none (by rw [h.size]; exact hi)] at ht
        cases ht
      · intro hcarries
        have := hcarries.lt_length hp hx
        omega
  · exact hfree i (hblocks.2.lt_length hp hx) hblocks
  · intro i t ht
    rw [hnodes]
    exact ⟨(h.bounds ht).1, Nat.lt_of_lt_of_le (h.bounds ht).2 hextends.length_le⟩
  · intro i t op operands ht hi
    rw [hnodes]
    exact (h.call ht hi).mono hextends.nodes fun _ _ => rfl
  · rw [hnodes]
    exact hresult

/-- The result of the derivative is the tangent of the result, or zeros in its shape if it has
none. -/
theorem differential_finish (hp : p.Regular) (hx : p.nodes[x]? = some (.argument position))
    (hfree : ∀ n < p.nodes.length, ¬ p.Blocks x n) {pass : TangentPass}
    (h : p.PassState x p.nodes.length pass) :
    p.Differential x (fun i => pass.tangents.getD i none)
      ((p.finish pass).2.toProgram (p.finish pass).1) := by
  cases htangent : pass.tangents.getD p.result none with
  | some t =>
    rw [finish_of_some htangent]
    exact differential_of_passState hp hx hfree h pass.recorder t (.refl _) (h.bounds htangent).2
      (.inl htangent)
  | none =>
    have hcall : p.AppendedCall pass.recorder.size .zeroLike [p.result] := by
      refine ⟨rfl, fun o ho => ?_, fun o ho _ => ?_, by decide⟩
      · rw [List.mem_singleton.1 ho, Recorder.size_eq_length]
        exact Nat.lt_trans hp.result_lt h.lt_length
      · rw [List.mem_singleton.1 ho]
        exact needed_result hp
    rw [finish_of_none htangent]
    refine differential_of_passState hp hx hfree h _ _ (.call hcall) ?_ (.inr ⟨htangent, ?_, ?_⟩)
    · rw [Recorder.nodes_call, List.length_append, Recorder.call, Recorder.size_eq_length]
      exact Nat.lt_succ_self _
    · rw [Recorder.call, Recorder.size_eq_length]
      exact h.lt_length
    · rw [Recorder.nodes_call, Recorder.call, Recorder.size_eq_length]
      simp

/-- At an argument a program has a derivative, unless an `abs` that the result needs depends on
it. -/
theorem derivative_dichotomy (h : p.WellFormed) (hx : p.arguments[position]? = some x) :
    ((∃ n < p.nodes.length, p.Blocks x n) ∧
      p.derivative position = .error (.missingRule .abs 1)) ∨
    ((∀ n < p.nodes.length, ¬ p.Blocks x n) ∧
      ∃ d tangent, p.derivative position = .ok d ∧ p.Differential x tangent d) := by
  have hp := h.regular
  have hargument := hp.argument_at hx
  rw [derivative, derivativeBy_eq .standard h hx, recordDerivative_eq, passBy, List.take_length]
  rcases foldlM_dichotomy (passState_start p x) fun n node pass hnode hpass =>
      passNode_spec hp hargument hpass hnode with ⟨hblocks, herror⟩ | ⟨hfree, pass, hok, hpass⟩
  · refine .inl ⟨hblocks, ?_⟩
    rw [herror]
    rfl
  · have hd := differential_finish hp hargument hfree hpass
    refine .inr ⟨hfree, _, _, ?_, hd⟩
    rw [hok, ok_bind, ok_bind, Recorder.close_eq_ok.2 ⟨wellFormed_iff_regular.2 hd.regular, rfl⟩]
    rfl

/-- What is known of a program that is a derivative. -/
theorem exists_differential (h : p.WellFormed) {d : Program}
    (hd : p.derivative position = .ok d) :
    ∃ x tangent, p.arguments[position]? = some x ∧ p.Differential x tangent d := by
  cases hx : p.arguments[position]? with
  | none =>
    simp only [derivative, derivativeBy, (check_eq_ok_iff p).2 h, hx] at hd
    cases hd
  | some x =>
    rcases derivative_dichotomy h hx with ⟨-, herror⟩ | ⟨-, d', tangent, hok, hdifferential⟩
    · rw [herror] at hd
      cases hd
    · rw [hok] at hd
      cases hd
      exact ⟨x, tangent, rfl, hdifferential⟩

/-! ## Evaluating a derivative -/

namespace Differential

variable {tangent : Nat → Option Nat} {d : Program} {V : Type}
  {interpret : Op → List V → Except RunError V} {inputs : List V} {v : V}

/-- A derivative takes one direction more than its program. -/
theorem order (h : p.Differential x tangent d) (hp : p.Regular) : d.order = p.order + 1 := by
  have hbase := hp.baseArity_le
  rw [Program.order, Program.order, h.arguments, h.baseArity, List.length_append,
    List.length_singleton]
  omega

/-- The nodes of the program keep their values, whatever the direction. -/
theorem value?_old (h : p.Differential x tangent d) (hp : p.Regular)
    (hinputs : inputs.length = p.arguments.length) {node : Nat} (hnode : node < p.nodes.length) :
    d.value? interpret (inputs ++ [v]) node = p.value? interpret inputs node := by
  have hpre : p.nodes <+: d.nodes := (List.prefix_append _ _).trans h.nodes
  rw [value?, valueIn_extend hpre hnode, valueIn, outcomeIn_inputs_append]
  · rfl
  · intro place position hplace
    rw [hinputs]
    exact hp.position_lt hplace

/-- The tangent of the argument is the direction. -/
theorem value?_direction (h : p.Differential x tangent d)
    (hinputs : inputs.length = p.arguments.length) :
    d.value? interpret (inputs ++ [v]) p.nodes.length = some v := by
  rw [value?_argument (getElem?_extended_length h.nodes), ← hinputs]
  simp

/-- Operands of nodes of the program have the values that they have in the program. -/
theorem mapM_value?_old (h : p.Differential x tangent d) (hp : p.Regular)
    (hinputs : inputs.length = p.arguments.length) {node : Nat} {op : Op} {operands : List Nat}
    (hnode : p.nodes[node]? = some (.call op operands)) :
    operands.mapM (d.value? interpret (inputs ++ [v])) =
      operands.mapM (p.value? interpret inputs) :=
  mapM_congr_left fun _ ho => h.value?_old hp hinputs (hp.operand_lt_length hnode ho)

end Differential

namespace Differential

variable {tangent : Nat → Option Nat} {d : Program}

/-- Besides the argument only calls have tangents, and `abs` is not among them. -/
theorem self_or_call (h : p.Differential x tangent d) (hp : p.Regular) {node t : Nat}
    (ht : tangent node = some t) :
    (node = x ∧ t = p.nodes.length) ∨
      ∃ op operands, p.nodes[node]? = some (.call op operands) ∧ op ≠ .abs ∧ p.Needed node ∧
        CallTangent d.nodes tangent op operands t := by
  have hcarries := (h.carries node).1 ⟨t, ht⟩
  by_cases heq : node = x
  · subst heq
    rw [h.self] at ht
    exact .inl ⟨rfl, (Option.some.inj ht).symm⟩
  · have hneeded := hcarries.2.resolve_left heq
    obtain ⟨entry, hentry⟩ := hneeded.exists_node hp
    cases entry with
    | argument position' => exact absurd ((carries_argument hentry).1 hcarries) heq
    | call op operands =>
      refine .inr ⟨op, operands, hentry, ?_, hneeded, h.call ht hentry⟩
      rintro rfl
      exact h.unblocked node ⟨⟨operands, hentry⟩, hcarries⟩

/-! ## Differentiating again -/

/-- The arguments of the program keep their positions. -/
theorem getElem?_arguments (h : p.Differential x tangent d) {y : Nat}
    (hy : p.arguments[position]? = some y) : d.arguments[position]? = some y := by
  rw [h.arguments, List.getElem?_append_left (List.getElem?_eq_some_iff.1 hy).1, hy]

theorem length_le_result (h : p.Differential x tangent d) : p.nodes.length ≤ d.result := by
  rcases h.result with hresult | ⟨-, hlt, -⟩
  · exact (h.bounds hresult).1
  · exact Nat.le_of_lt hlt

/-- From a node of the program, paths in the derivative are paths in the program. -/
theorem path_old (h : p.Differential x tangent d) (hp : p.Regular) {node earlier : Nat}
    (hnode : node < p.nodes.length) (hpath : d.Path node earlier) : p.Path node earlier := by
  induction hpath with
  | refl => exact .refl
  | tail _ huse ih =>
    have hlt := Nat.lt_of_le_of_lt (ih.le hp) hnode
    obtain ⟨op, operands, hcall, ho⟩ := huse.exists_call
    rw [getElem?_extended h.nodes hlt] at hcall
    exact .tail ih (uses_of_call hcall ho)

/-- Of the nodes of the program, a derivative needs no others than the program does. -/
theorem needed_old (h : p.Differential x tangent d) (hp : p.Regular) {node : Nat}
    (hneeded : d.Needed node) (hnode : node < p.nodes.length) : p.Needed node := by
  have hpath := (needed_iff h.regular).1 hneeded
  induction hpath with
  | refl => exact absurd hnode (Nat.not_lt.2 h.length_le_result)
  | @tail user operand hhead huse ih =>
    obtain ⟨op, operands, hcall, ho⟩ := huse.exists_call
    rcases node_cases h.nodes h.appended hcall with hold | ⟨-, heq⟩ | ⟨_, _, heq, happended⟩
    · have hlt := (List.getElem?_eq_some_iff.1 hold).1
      exact (ih ((needed_iff h.regular).2 hhead) hlt).operand hp hold ho
    · cases heq
    · cases heq
      exact happended.needed operand ho hnode

/-- An `abs` in the way of a derivative of the derivative is one of the program. -/
theorem blocks_old (h : p.Differential x tangent d) (hp : p.Regular) {y node : Nat}
    (hblocks : d.Blocks y node) : p.Blocks y node := by
  obtain ⟨⟨operands, hcall⟩, hpath, hneeded⟩ := hblocks
  rcases node_cases h.nodes h.appended hcall with hold | ⟨-, heq⟩ | ⟨_, _, heq, happended⟩
  · have hlt := (List.getElem?_eq_some_iff.1 hold).1
    exact ⟨⟨operands, hold⟩, h.path_old hp hlt hpath,
      hneeded.imp_right fun hneeded => h.needed_old hp hneeded hlt⟩
  · cases heq
  · cases heq
    exact absurd rfl happended.smooth

/-- A derivative has a derivative wherever the program has one. -/
theorem exists_derivative (h : p.Differential x tangent d) (hwell : p.WellFormed)
    {y : Nat} (hy : p.arguments[position]? = some y) {d' : Program}
    (hd' : p.derivative position = .ok d') :
    ∃ mixed tangent', d.derivative position = .ok mixed ∧ d.Differential y tangent' mixed := by
  obtain ⟨y', tangent', hy', hdifferential⟩ := exists_differential hwell hd'
  obtain rfl : y = y' := Option.some.inj (hy.symm.trans hy')
  rcases derivative_dichotomy (wellFormed_iff_regular.2 h.regular) (h.getElem?_arguments hy) with
    ⟨⟨node, -, hblocks⟩, -⟩ | ⟨-, hmixed⟩
  · exact absurd (h.blocks_old hwell.regular hblocks) (hdifferential.unblocked node)
  · exact hmixed

end Differential

end StagedTangent.Program
