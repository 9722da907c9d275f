import StagedTangent.Proofs.Evaluation.OperationError
import StagedTangent.Proofs.Staging.Execution

/-!
# Code refines plain evaluation

Running the code of a program along its directions agrees with plain evaluation of its tape, for
whatever the operations mean: if every needed node has a value the run yields that of the result,
and otherwise it stops with the error of the first needed call that fails, by stage and then by
place. The main statement is `toCode_refines_evaluation`.
-/

namespace StagedTangent

variable {α : Type}

namespace Program

variable {p q : Program} {interpret : Interpretation α} {inputs : List (Value α)}

/-! ## The inputs of the stages -/

/-- Base arguments and directions are the values of their arguments. -/
theorem value?_listed (hp : p.Regular) {position node : Nat}
    (h : p.arguments[position]? = some node) :
    p.value? interpret inputs node = inputs[position]? :=
  value?_argument (hp.argument_at h)

theorem mapM_argumentsAt_zero (hp : p.Regular) {args directions : List (Value α)}
    (hargs : args.length = p.baseArity) :
    (p.argumentsAt 0).mapM (p.value? interpret (args ++ directions)) = some args := by
  have hbase := hp.baseArity_le
  rw [argumentsAt_zero, mapM_eq_some_iff, List.forall₂_iff_get]
  refine ⟨by rw [List.length_take]; omega, fun i hi hi' => ?_⟩
  have hlisted : p.arguments[i]? = some ((p.arguments.take p.baseArity).get ⟨i, hi⟩) := by
    rw [List.get_eq_getElem, List.getElem_take, List.getElem?_eq_getElem]
  rw [value?_listed hp hlisted, List.getElem?_append_left hi', List.getElem?_eq_getElem hi',
    List.get_eq_getElem]

theorem mapM_argumentsAt_succ (hp : p.Regular) {args directions : List (Value α)} {stage : Nat}
    {direction : Value α} (hargs : args.length = p.baseArity)
    (hlength : directions.length = p.order) (h : directions[stage]? = some direction) :
    (p.argumentsAt (stage + 1)).mapM (p.value? interpret (args ++ directions)) =
      some [direction] := by
  have hlt : stage < directions.length := (List.getElem?_eq_some_iff.1 h).1
  have hposition : p.baseArity + stage < p.arguments.length := by
    rw [order] at hlength
    omega
  obtain ⟨node, hnode⟩ : ∃ node, p.arguments[p.baseArity + stage]? = some node :=
    ⟨_, List.getElem?_eq_getElem hposition⟩
  have hvalue : p.value? interpret (args ++ directions) node = some direction := by
    rw [value?_listed hp hnode, ← hargs, List.getElem?_append_right (by omega),
      Nat.add_sub_cancel_left, h]
  rw [argumentsAt_succ, hnode]
  simp [hvalue]

/-- As many values as the program has arguments are what its stages ask for. -/
theorem stageInputs (hp : p.Regular) {args directions : List (Value α)}
    (hargs : args.length = p.baseArity) (hlength : directions.length = p.order) :
    p.StageInputs interpret (args ++ directions) 0 args directions := by
  have hrest : ∀ (rest : List (Value α)) (stage : Nat) (first : List (Value α)),
      (p.argumentsAt stage).mapM (p.value? interpret (args ++ directions)) = some first →
      (∀ i (v : Value α), rest[i]? = some v → directions[stage + i]? = some v) →
      p.StageInputs interpret (args ++ directions) stage first rest := by
    intro rest
    induction rest with
    | nil =>
      intro stage first hfirst _
      exact hfirst
    | cons direction rest ih =>
      intro stage first hfirst hdirections
      refine ⟨hfirst, ih (stage + 1) [direction] ?_ fun i v hv => ?_⟩
      · exact mapM_argumentsAt_succ hp hargs hlength (hdirections 0 direction rfl)
      · have := hdirections (i + 1) v hv
        rwa [show stage + (i + 1) = stage + 1 + i by omega] at this
  exact hrest directions 0 args (mapM_argumentsAt_zero hp hargs) fun i v hv => by simpa using hv

/-! ## The first failure -/

/-- A needed call fails by itself, and none does so before it. -/
structure FirstFailure (p : Program) (interpret : Interpretation α) (inputs : List (Value α))
    (node : Nat) (e : RunError) : Prop where
  needed : p.Needed node
  fails : p.outcome interpret inputs node = .failure e
  first : ∀ m e', p.Needed m → p.outcome interpret inputs m = .failure e' →
    m = node ∨ p.Before node m

theorem FirstFailure.unique {m n : Nat} {e e' : RunError}
    (h : p.FirstFailure interpret inputs m e) (h' : p.FirstFailure interpret inputs n e') :
    e = e' := by
  have heq : m = n := by
    rcases h.first n e' h'.needed h'.fails with rfl | hbefore
    · rfl
    · rcases h'.first m e h.needed h.fails with rfl | hbefore'
      · rfl
      · exact absurd hbefore' hbefore.asymm
  subst heq
  have := h.fails.symm.trans h'.fails
  cases this
  rfl

/-- Going through the schedule finds the first failure. -/
theorem firstFailure_of_schedule (hp : p.Regular) {e : RunError}
    (h : p.firstFailure? interpret inputs p.schedule = some e) :
    ∃ node, p.FirstFailure interpret inputs node e := by
  obtain ⟨earlier, node, later, hsplit, hnode, hearlier⟩ := List.findSome?_eq_some_iff.1 h
  have hmem : ∀ m, p.Needed m ↔ m ∈ earlier ∨ m = node ∨ m ∈ later := by
    intro m
    rw [← mem_schedule hp, hsplit, List.mem_append, List.mem_cons]
  refine ⟨node, (hmem node).2 (.inr (.inl rfl)), Outcome.failure?_eq_some.1 hnode,
    fun m e' hm he' => ?_⟩
  rcases (hmem m).1 hm with hm | rfl | hm
  · have := hearlier m hm
    rw [he'] at this
    cases this
  · exact .inl rfl
  · have hsorted := pairwise_schedule hp
    rw [hsplit, List.pairwise_append] at hsorted
    exact .inr ((List.pairwise_cons.1 hsorted.2.1).1 m hm)

/-- Without a failure among the needed nodes all of them have values. -/
theorem firstFailure?_schedule_eq_none (hp : p.Regular)
    (hinputs : inputs.length = p.arguments.length) :
    p.firstFailure? interpret inputs p.schedule = none ↔ p.Evaluates interpret inputs := by
  rw [firstFailure?, List.findSome?_eq_none_iff]
  constructor
  · intro h node hneeded
    by_contra hv
    have hnone : p.value? interpret inputs node = none :=
      Option.eq_none_iff_forall_ne_some.2 fun v hv' => hv ⟨v, hv'⟩
    obtain ⟨n, e, hn, he⟩ := exists_failure hp hinputs hneeded hnone
    have := h n ((mem_schedule hp).2 hn)
    rw [he] at this
    cases this
  · intro h node hnode
    obtain ⟨v, hv⟩ := h node ((mem_schedule hp).1 hnode)
    rw [value?_eq_some.1 hv]
    rfl

/-! ## Running code -/

/-- What a run comes to by plain evaluation: the value of the result if every needed node has one,
and otherwise the error of the first failure. -/
def RunsTo (p : Program) (interpret : Interpretation α) (inputs : List (Value α))
    (r : Except RunError (Value α)) : Prop :=
  (p.Evaluates interpret inputs ∧
    ∃ v, p.value? interpret inputs p.result = some v ∧ r = .ok v) ∨
  (¬ p.Evaluates interpret inputs ∧
    ∃ node e, p.FirstFailure interpret inputs node e ∧ r = .error e)

theorem RunsTo.unique {r r' : Except RunError (Value α)} (h : p.RunsTo interpret inputs r)
    (h' : p.RunsTo interpret inputs r') : r = r' := by
  rcases h with ⟨heval, v, hv, rfl⟩ | ⟨hnot, node, e, hfirst, rfl⟩
  · rcases h' with ⟨-, v', hv', rfl⟩ | ⟨hnot', -⟩
    · rw [Option.some.inj (hv.symm.trans hv')]
    · exact absurd heval hnot'
  · rcases h' with ⟨heval', -⟩ | ⟨-, node', e', hfirst', rfl⟩
    · exact absurd heval' hnot
    · rw [hfirst.unique hfirst']

/-- A run of the code of a program comes to what plain evaluation says. -/
theorem exists_runAlong (h : p.WellFormed) (interpret : Interpretation α) (number : Nat)
    {args directions : List (Value α)} (hargs : args.length = p.baseArity)
    (hlength : directions.length = p.order) :
    ∃ code, p.toCode = .ok code ∧
      p.RunsTo interpret (args ++ directions)
        (code.runAlong interpret number args directions) := by
  have hp := h.regular
  have hinputs := hp.length_append hargs hlength
  obtain ⟨scope, final, hok, hcode⟩ := exists_toCode h
  refine ⟨⟨scope, final.size⟩, hcode, ?_⟩
  have hschedule : (List.range' 0 (p.order + 1)).flatMap p.plan.neededAt = p.schedule := by
    rw [schedule, List.range_eq_range']
  have hstages : p.StageInputs interpret (args ++ directions) 0 args directions :=
    stageInputs hp hargs hlength
  have hrun := call_layOutFrom hp number (Naming.bound_empty []) hlength hstages hok
  rw [hschedule] at hrun
  rcases hrun with ⟨v, hnone, hv, hrun⟩ | ⟨e, he, hrun⟩
  · exact .inl ⟨(firstFailure?_schedule_eq_none hp hinputs).1 hnone, v, hv, hrun⟩
  · obtain ⟨node, hfirst⟩ := firstFailure_of_schedule hp he
    refine .inr ⟨fun heval => ?_, node, e, hfirst, hrun⟩
    rw [(firstFailure?_schedule_eq_none hp hinputs).2 heval] at he
    cases he

/-- The same for code that is there already. -/
theorem runsTo_of_toCode (h : p.WellFormed) {code : Code} (hcode : p.toCode = .ok code)
    (interpret : Interpretation α) (number : Nat) {args directions : List (Value α)}
    (hargs : args.length = p.baseArity) (hlength : directions.length = p.order) :
    p.RunsTo interpret (args ++ directions)
      (code.runAlong interpret number args directions) := by
  obtain ⟨code', hcode', hrun⟩ := exists_runAlong h interpret number hargs hlength
  obtain rfl : code = code' := Except.ok.inj (hcode.symm.trans hcode')
  exact hrun

/-- A run yields a value exactly if plain evaluation gives that value to the result. -/
theorem runAlong_eq_ok_iff (h : p.WellFormed) {code : Code} (hcode : p.toCode = .ok code)
    (number : Nat) {args directions : List (Value α)} (hargs : args.length = p.baseArity)
    (hlength : directions.length = p.order) {v : Value α} :
    code.runAlong interpret number args directions = .ok v ↔
      p.value? interpret (args ++ directions) p.result = some v := by
  rcases runsTo_of_toCode h hcode interpret number hargs hlength with
    ⟨-, w, hw, hrun⟩ | ⟨hnot, node, e, -, hrun⟩
  · rw [hrun, hw, Except.ok.injEq, Option.some.injEq]
  · rw [hrun]
    constructor
    · rintro ⟨⟩
    · intro hv
      exact absurd ((evaluates_iff h.regular).2 ⟨v, hv⟩) hnot

/-! ## What has no influence -/

/-- Programs that differ at most in nodes that their result does not need. -/
structure AgreesOnNeeded (p q : Program) : Prop where
  arguments : q.arguments = p.arguments
  baseArity : q.baseArity = p.baseArity
  result : q.result = p.result
  nodes : ∀ node, p.Needed node → q.nodes[node]? = p.nodes[node]?

theorem AgreesOnNeeded.needed (h : p.AgreesOnNeeded q) (hp : p.Regular) (hq : q.Regular)
    {node : Nat} : q.Needed node ↔ p.Needed node := by
  constructor
  · intro hneeded
    have hpath := (needed_iff hq).1 hneeded
    rw [h.result] at hpath
    induction hpath with
    | refl => exact needed_result hp
    | tail hpath huse ih =>
      have hb := ih ((needed_iff hq).2 (by rw [h.result]; exact hpath))
      obtain ⟨node, hnode, ho⟩ := huse
      exact hb.of_uses hp ⟨node, by rw [← h.nodes _ hb, hnode], ho⟩
  · intro hneeded
    have hpath := (needed_iff hp).1 hneeded
    induction hpath with
    | refl =>
      rw [← h.result]
      exact needed_result hq
    | tail hpath huse ih =>
      have hb : p.Needed _ := (needed_iff hp).2 hpath
      obtain ⟨node, hnode, ho⟩ := huse
      exact (ih hb).of_uses hq ⟨node, by rw [h.nodes _ hb, hnode], ho⟩

/-- Needed nodes have the same outcome in both programs. -/
theorem AgreesOnNeeded.outcome (h : p.AgreesOnNeeded q) (hp : p.Regular) (hq : q.Regular)
    {node : Nat} (hneeded : p.Needed node) :
    q.outcome interpret inputs node = p.outcome interpret inputs node := by
  induction node using Nat.strongRecOn with
  | ind node ih =>
    obtain ⟨entry, hentry⟩ := hneeded.exists_node hp
    have hentry' : q.nodes[node]? = some entry := by rw [h.nodes node hneeded, hentry]
    cases entry with
    | argument position =>
      rw [Program.outcome, Program.outcome, outcomeIn_argument hentry, outcomeIn_argument hentry']
    | call op operands =>
      rw [outcome_call hp hentry, outcome_call hq hentry']
      refine congrArg _ (mapM_congr_left fun o ho => ?_)
      rw [value?_eq, value?_eq, ih o (hp.operand_lt hentry ho) (hneeded.operand hp hentry ho)]

/-- Needed nodes have the same stage in both programs. -/
theorem AgreesOnNeeded.stage (h : p.AgreesOnNeeded q) (hp : p.Regular) (hq : q.Regular)
    {node : Nat} (hneeded : p.Needed node) : q.stage node = p.stage node := by
  induction node using Nat.strongRecOn with
  | ind node ih =>
    obtain ⟨entry, hentry⟩ := hneeded.exists_node hp
    have hentry' : q.nodes[node]? = some entry := by rw [h.nodes node hneeded, hentry]
    cases entry with
    | argument position =>
      rw [stage_argument hentry, stage_argument hentry', stageOfArgument, stageOfArgument,
        h.baseArity]
    | call op operands =>
      rw [stage_call hentry fun o ho => hp.operand_lt hentry ho,
        stage_call hentry' fun o ho => hq.operand_lt hentry' ho]
      have hmap : operands.map q.stage = operands.map p.stage :=
        List.map_congr_left fun o ho =>
          ih o (hp.operand_lt hentry ho) (hneeded.operand hp hentry ho)
      rw [hmap]

theorem AgreesOnNeeded.firstFailure (h : p.AgreesOnNeeded q) (hp : p.Regular) (hq : q.Regular)
    {node : Nat} {e : RunError} (hfirst : p.FirstFailure interpret inputs node e) :
    q.FirstFailure interpret inputs node e := by
  refine ⟨(h.needed hp hq).2 hfirst.needed, by rw [h.outcome hp hq hfirst.needed, hfirst.fails],
    fun m e' hm he' => ?_⟩
  have hm' := (h.needed hp hq).1 hm
  rw [h.outcome hp hq hm'] at he'
  rw [Before, h.stage hp hq hfirst.needed, h.stage hp hq hm']
  exact hfirst.first m e' hm' he'

theorem AgreesOnNeeded.evaluates (h : p.AgreesOnNeeded q) (hp : p.Regular) (hq : q.Regular) :
    q.Evaluates interpret inputs ↔ p.Evaluates interpret inputs := by
  constructor
  · intro heval node hneeded
    obtain ⟨v, hv⟩ := heval node ((h.needed hp hq).2 hneeded)
    exact ⟨v, by rw [value?_eq, ← h.outcome hp hq hneeded, ← value?_eq, hv]⟩
  · intro heval node hneeded
    have hneeded' := (h.needed hp hq).1 hneeded
    obtain ⟨v, hv⟩ := heval node hneeded'
    exact ⟨v, by rw [value?_eq, h.outcome hp hq hneeded', ← value?_eq, hv]⟩

/-- A run comes to the same for both programs. -/
theorem AgreesOnNeeded.runsTo (h : p.AgreesOnNeeded q) (hp : p.Regular) (hq : q.Regular)
    {r : Except RunError (Value α)} (hr : p.RunsTo interpret inputs r) :
    q.RunsTo interpret inputs r := by
  rcases hr with ⟨heval, v, hv, hr⟩ | ⟨hnot, node, e, hfirst, hr⟩
  · refine .inl ⟨(h.evaluates hp hq).2 heval, v, ?_, hr⟩
    rw [h.result, value?_eq, h.outcome hp hq (needed_result hp), ← value?_eq, hv]
  · exact .inr ⟨fun heval => hnot ((h.evaluates hp hq).1 heval), node, e,
      h.firstFailure hp hq hfirst, hr⟩

/-- A run depends on the operations only through the outcomes of the nodes. -/
theorem RunsTo.of_outcome {interpret' : Interpretation α} {r : Except RunError (Value α)}
    (h : p.outcome interpret' inputs = p.outcome interpret inputs)
    (hr : p.RunsTo interpret inputs r) : p.RunsTo interpret' inputs r := by
  have hvalue : p.value? interpret' inputs = p.value? interpret inputs := by
    funext node
    rw [value?_eq, h, ← value?_eq]
  have heval : p.Evaluates interpret' inputs ↔ p.Evaluates interpret inputs := by
    rw [Evaluates, hvalue, ← Evaluates]
  rcases hr with ⟨hall, v, hv, hr⟩ | ⟨hnot, node, e, hfirst, hr⟩
  · exact .inl ⟨heval.2 hall, v, by rw [hvalue, hv], hr⟩
  · refine .inr ⟨fun hall => hnot (heval.1 hall), node, e,
      ⟨hfirst.needed, by rw [h, hfirst.fails], fun m e' hm he' => ?_⟩, hr⟩
    rw [h] at he'
    exact hfirst.first m e' hm he'

/-- Only what the operations do to as many operands as they take has any influence. -/
theorem outcome_congr (hp : p.Regular) {interpret' : Interpretation α}
    (h : ∀ op (vs : List (Value α)), vs.length = op.arity → interpret' op vs = interpret op vs) :
    p.outcome interpret' inputs = p.outcome interpret inputs := by
  have hfill : fill (outcomeOf interpret' inputs) p.nodes =
      fill (outcomeOf interpret inputs) p.nodes := by
    refine fill_congr fun place node hnode => ?_
    cases node with
    | argument position => rfl
    | call op operands =>
      rw [outcomeOf, outcomeOf]
      cases hvs : operands.mapM fun operand =>
          ((fill (outcomeOf interpret inputs) (p.nodes.take place)).getD operand .blocked).value? with
      | none => rfl
      | some vs =>
        have hcount : vs.length = op.arity := by
          rw [length_of_mapM_eq_some hvs, hp.operand_count hnode]
        rw [Outcome.ofCall, Outcome.ofCall, h op vs hcount]
  funext node
  rw [outcome, outcome, outcomeIn, outcomeIn, hfill]

/-- A call that fails does so on as many operands as its operation takes. -/
theorem FirstFailure.exists_operands (hp : p.Regular) {node : Nat} {e : RunError}
    (h : p.FirstFailure interpret inputs node e) :
    ∃ op vs, vs.length = op.arity ∧ interpret op vs = .error e := by
  obtain ⟨entry, hentry⟩ := h.needed.exists_node hp
  have hfails := h.fails
  cases entry with
  | argument position =>
    rw [outcome, outcomeIn_argument hentry] at hfails
    cases hinput : inputs[position]? with
    | none => simp [hinput] at hfails
    | some v => simp [hinput] at hfails
  | call op operands =>
    rw [outcome_call hp hentry] at hfails
    obtain ⟨vs, hvs, he⟩ := Outcome.ofCall_eq_failure.1 hfails
    exact ⟨op, vs, by rw [length_of_mapM_eq_some hvs, hp.operand_count hentry], he⟩

/-- Whatever a run fails with, an operation gives on as many operands as it takes. -/
theorem RunsTo.exists_operands (hp : p.Regular) {r : Except RunError (Value α)} {e : RunError}
    (h : p.RunsTo interpret inputs r) (hr : r = .error e) :
    ∃ op vs, vs.length = op.arity ∧ interpret op vs = .error e := by
  rcases h with ⟨-, v, -, rfl⟩ | ⟨-, node, e', hfirst, rfl⟩
  · cases hr
  · cases hr
    exact hfirst.exists_operands hp

/-! ## The refinement -/

/-- Running the code of a program refines plain evaluation of its tape, whatever the operations
mean. Nodes that the result does not need have no influence, nor has what an operation would do to
another number of operands than it takes; with the operations of the evaluator a run never misses a
name, calls what is no closure or gets a wrong number of values. -/
theorem toCode_refines_evaluation (h : p.WellFormed) (interpret : Interpretation α) (number : Nat)
    (args directions : List (Value α)) (hargs : args.length = p.baseArity)
    (hlength : directions.length = p.order) :
    ∃ code, p.toCode = .ok code ∧
      (p.Evaluates interpret (args ++ directions) →
        ∃ v, p.value? interpret (args ++ directions) p.result = some v ∧
          code.runAlong interpret number args directions = .ok v) ∧
      (¬ p.Evaluates interpret (args ++ directions) →
        ∃ node e, p.FirstFailure interpret (args ++ directions) node e ∧
          code.runAlong interpret number args directions = .error e) ∧
      (∀ q code', q.WellFormed → p.AgreesOnNeeded q → q.toCode = .ok code' →
        code'.runAlong interpret number args directions =
          code.runAlong interpret number args directions) ∧
      (∀ interpret' : Interpretation α,
        (∀ op vs, vs.length = op.arity → interpret' op vs = interpret op vs) →
        code.runAlong interpret' number args directions =
          code.runAlong interpret number args directions) ∧
      (∀ e, code.runAlong interpret number args directions = .error e →
        ∃ op vs, vs.length = op.arity ∧ interpret op vs = .error e) ∧
      (∀ [Scalar α] (e : RunError),
        code.runAlong Value.apply number args directions = .error e → e.OfOperation) := by
  have hp := h.regular
  obtain ⟨code, hcode, hrun⟩ := exists_runAlong h interpret number hargs hlength
  refine ⟨code, hcode, ?_, ?_, ?_, ?_, fun e he => hrun.exists_operands hp he, fun e he => ?_⟩
  · intro heval
    rcases hrun with ⟨-, hok⟩ | ⟨hnot, -⟩
    · exact hok
    · exact absurd heval hnot
  · intro hnot
    rcases hrun with ⟨heval, -⟩ | ⟨-, herror⟩
    · exact absurd heval hnot
    · exact herror
  · intro q code' hwell hagree hcode'
    have hargs' : args.length = q.baseArity := by rw [hargs, hagree.baseArity]
    have hlength' : directions.length = q.order := by
      rw [hlength, order, order, hagree.arguments, hagree.baseArity]
    have hrun' := runsTo_of_toCode hwell hcode' interpret number hargs' hlength'
    exact hrun'.unique (hagree.runsTo hp hwell.regular hrun)
  · intro interpret' hsame
    have hrun' := runsTo_of_toCode h hcode interpret' number hargs hlength
    exact hrun'.unique (hrun.of_outcome (outcome_congr hp hsame))
  · have hrun' := runsTo_of_toCode h hcode Value.apply number hargs hlength
    obtain ⟨op, vs, hcount, hfail⟩ := hrun'.exists_operands hp he
    exact Value.apply_error hcount hfail

/-- A product of a base argument and a direction, with products of whole numbers. -/
theorem toCode_refines_evaluation_product :
    ∃ code, Program.toCode
        ⟨.ofNodes #[.argument 0, .argument 1, .call .mul [0, 1]], [0, 1], 2, 1⟩ = .ok code ∧
      code.runAlong (fun _ vs =>
          match vs with
          | [.scalar x, .scalar y] => .ok (.scalar (x * y))
          | _ => .error (.notAClosure .scalar)) 0 [.scalar 2] [.scalar 3] =
        .ok (.scalar (6 : Nat)) := by
  obtain ⟨code, hcode, hrun, -⟩ := toCode_refines_evaluation
    (p := ⟨.ofNodes #[.argument 0, .argument 1, .call .mul [0, 1]], [0, 1], 2, 1⟩) (by decide)
    (fun _ vs =>
      match vs with
      | [.scalar x, .scalar y] => .ok (.scalar (x * y))
      | _ => .error (.notAClosure .scalar)) 0 [.scalar (2 : Nat)] [.scalar 3] rfl rfl
  obtain ⟨v, hv, hok⟩ := hrun ((evaluates_iff (wellFormed_iff_regular.1 (by decide))).2 ⟨_, rfl⟩)
  cases hv
  exact ⟨code, hcode, hok⟩

end Program

end StagedTangent
