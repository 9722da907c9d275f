import StagedTangent.Proofs.Program.Path
import StagedTangent.Staging.Placement

/-!
# The order in which code computes

Code runs stage by stage and, within a stage, in the order of the tape. `Program.schedule` lists the
needed nodes in that order and `Program.Before` compares two nodes by it: the schedule is sorted
(`pairwise_schedule`). An operand is known no later than its call (`stage_le_of_uses`) and stands
before it, so running the schedule never meets a value that is not there yet.
-/

namespace StagedTangent.Program

variable {p : Program}

theorem stageOfArgument_of_lt {position : Nat} (h : position < p.baseArity) :
    p.stageOfArgument position = 0 := if_pos h

theorem stageOfArgument_of_ge {position : Nat} (h : p.baseArity ≤ position) :
    p.stageOfArgument position = position - p.baseArity + 1 := if_neg (by omega)

/-! ## Stages along uses -/

private theorem le_foldl_max {values : List Nat} {start value : Nat}
    (h : value ≤ start ∨ value ∈ values) : value ≤ values.foldl max start := by
  induction values generalizing start with
  | nil => simpa using h
  | cons head rest ih =>
    refine ih ?_
    rcases h with h | h
    · exact .inl (Nat.le_trans h (Nat.le_max_left _ _))
    · rcases List.mem_cons.1 h with rfl | h
      · exact .inl (Nat.le_max_right _ _)
      · exact .inr h

private theorem foldl_max_le {values : List Nat} {start bound : Nat} (hstart : start ≤ bound)
    (h : ∀ value ∈ values, value ≤ bound) : values.foldl max start ≤ bound := by
  induction values generalizing start with
  | nil => exact hstart
  | cons head rest ih =>
    exact ih (Nat.max_le.2 ⟨hstart, h _ (List.mem_cons_self ..)⟩)
      fun value hv => h value (List.mem_cons_of_mem _ hv)

/-- A value is not known later than what it is computed from. -/
theorem stage_le_of_uses (hp : p.Regular) {user operand : Nat} (h : p.Uses user operand) :
    p.stage operand ≤ p.stage user := by
  obtain ⟨op, operands, hnode, ho⟩ := h.exists_call
  rw [stage_call hnode fun o ho => hp.operand_lt hnode ho]
  exact le_foldl_max (.inr (List.mem_map_of_mem ho))

/-- No stage is beyond the last. -/
theorem stage_le_order (hp : p.Regular) (node : Nat) : p.stage node ≤ p.order := by
  induction node using Nat.strongRecOn with
  | ind node ih =>
    rcases Nat.lt_or_ge node p.nodes.length with hlt | hge
    · obtain ⟨entry, hentry⟩ : ∃ entry, p.nodes[node]? = some entry :=
        ⟨_, List.getElem?_eq_getElem hlt⟩
      cases entry with
      | argument position =>
        rw [stage_argument hentry, order]
        have := hp.position_lt hentry
        rcases Nat.lt_or_ge position p.baseArity with hb | hb
        · rw [stageOfArgument_of_lt hb]
          omega
        · rw [stageOfArgument_of_ge hb]
          omega
      | call op operands =>
        rw [stage_call hentry fun o ho => hp.operand_lt hentry ho]
        refine foldl_max_le (Nat.zero_le _) fun value hv => ?_
        obtain ⟨operand, ho, rfl⟩ := List.mem_map.1 hv
        exact ih operand (hp.operand_lt hentry ho)
    · rw [stage, Array.getD_eq_getD_getElem?, Array.getElem?_eq_none (by rwa [size_stages])]
      exact Nat.zero_le _

/-! ## The schedule -/

/-- Earlier by stage or, within a stage, by place. -/
def Before (p : Program) (m n : Nat) : Prop :=
  p.stage m < p.stage n ∨ p.stage m = p.stage n ∧ m < n

theorem Before.asymm {m n : Nat} (h : p.Before m n) : ¬ p.Before n m := by
  unfold Before at *
  omega

/-- The needed nodes, stage by stage. -/
def schedule (p : Program) : List Nat := (List.range (p.order + 1)).flatMap p.plan.neededAt

theorem mem_neededAt (hp : p.Regular) {stage node : Nat} :
    node ∈ p.plan.neededAt stage ↔ p.Needed node ∧ p.stage node = stage := by
  simp only [Plan.neededAt, List.mem_filter, List.mem_range, Bool.and_eq_true, decide_eq_true_eq]
  constructor
  · rintro ⟨-, hstage, hneeded⟩
    exact ⟨hneeded, hstage⟩
  · rintro ⟨hneeded, hstage⟩
    refine ⟨?_, hstage, hneeded⟩
    change node < p.stages.size
    rw [size_stages]
    exact hneeded.lt_length hp

theorem pairwise_neededAt (stage : Nat) : (p.plan.neededAt stage).Pairwise (· < ·) :=
  List.pairwise_lt_range.filter _

/-- The schedule has the needed nodes and no others. -/
theorem mem_schedule (hp : p.Regular) {node : Nat} : node ∈ p.schedule ↔ p.Needed node := by
  simp only [schedule, List.mem_flatMap, List.mem_range, mem_neededAt hp]
  constructor
  · rintro ⟨stage, -, hneeded, -⟩
    exact hneeded
  · intro hneeded
    exact ⟨p.stage node, Nat.lt_succ_of_le (stage_le_order hp node), hneeded, rfl⟩

/-- The schedule is sorted. -/
theorem pairwise_schedule (hp : p.Regular) : p.schedule.Pairwise p.Before := by
  refine List.pairwise_flatMap.2 ⟨fun stage _ => ?_, ?_⟩
  · refine (pairwise_neededAt stage).imp_of_mem fun hm hn hlt => ?_
    exact .inr ⟨((mem_neededAt hp).1 hm).2.trans ((mem_neededAt hp).1 hn).2.symm, hlt⟩
  · refine List.pairwise_lt_range.imp fun hlt m hm n hn => ?_
    refine .inl ?_
    rw [((mem_neededAt hp).1 hm).2, ((mem_neededAt hp).1 hn).2]
    exact hlt

/-! ## The arguments of a stage -/

private theorem filter_zipIdx_eq {l : List Nat} {start position : Nat} :
    (l.zipIdx start).filter (fun entry => decide (entry.2 = start + position)) =
      (l[position]?.map (fun node => (node, start + position))).toList := by
  induction l generalizing start position with
  | nil => rfl
  | cons node rest ih =>
    rw [List.zipIdx_cons, List.filter_cons]
    cases position with
    | zero =>
      have hrest : (rest.zipIdx (start + 1)).filter (fun entry => decide (entry.2 = start)) = [] := by
        refine List.filter_eq_nil_iff.2 fun entry hentry => ?_
        have := List.le_snd_of_mem_zipIdx hentry
        simp only [decide_eq_true_eq]
        omega
      simp [hrest]
    | succ position =>
      have hshift : start + (position + 1) = start + 1 + position := by omega
      rw [if_neg (by simp), hshift, ih]
      simp

/-- At stage zero the base arguments become known. -/
theorem argumentsAt_zero (p : Program) : p.argumentsAt 0 = p.arguments.take p.baseArity := by
  have hstage : ∀ position, p.stageOfArgument position = 0 ↔ position < p.baseArity := by
    intro position
    unfold stageOfArgument
    split <;> simp_all
  simp only [argumentsAt, hstage]
  conv_lhs => rw [← List.take_append_drop p.baseArity p.arguments, List.zipIdx_append,
    List.filter_append]
  have hfirst : ((p.arguments.take p.baseArity).zipIdx 0).filter
      (fun entry => decide (entry.2 < p.baseArity)) = (p.arguments.take p.baseArity).zipIdx 0 := by
    refine List.filter_eq_self.2 fun entry hentry => ?_
    have := List.snd_lt_of_mem_zipIdx hentry
    rw [List.length_take] at this
    simp only [decide_eq_true_eq]
    omega
  have hrest : ((p.arguments.drop p.baseArity).zipIdx
      (0 + (p.arguments.take p.baseArity).length)).filter
        (fun entry => decide (entry.2 < p.baseArity)) = [] := by
    refine List.filter_eq_nil_iff.2 fun entry hentry => ?_
    have hge := List.le_snd_of_mem_zipIdx hentry
    have hlt := List.snd_lt_of_mem_zipIdx hentry
    rw [List.length_drop, List.length_take] at hlt
    rw [List.length_take] at hge
    simp only [decide_eq_true_eq]
    omega
  rw [hfirst, hrest, List.append_nil, List.zipIdx_map_fst]

/-- At any other stage one direction becomes known. -/
theorem argumentsAt_succ (p : Program) (stage : Nat) :
    p.argumentsAt (stage + 1) = p.arguments[p.baseArity + stage]?.toList := by
  have hstage : ∀ position, p.stageOfArgument position = stage + 1 ↔
      position = 0 + (p.baseArity + stage) := by
    intro position
    unfold stageOfArgument
    split <;> omega
  simp only [argumentsAt, hstage, filter_zipIdx_eq]
  cases p.arguments[p.baseArity + stage]? <;> rfl

/-- The arguments of a stage are those that have it. -/
theorem mem_argumentsAt (hp : p.Regular) {stage node position : Nat}
    (h : p.nodes[node]? = some (.argument position)) (hstage : p.stage node = stage) :
    node ∈ p.argumentsAt stage := by
  rw [stage_argument h] at hstage
  refine List.mem_map.2 ⟨(node, position), List.mem_filter.2 ⟨?_, by simpa using hstage⟩, rfl⟩
  exact List.mem_zipIdx_iff_getElem?.2 (hp.argument_listed h)

end StagedTangent.Program
