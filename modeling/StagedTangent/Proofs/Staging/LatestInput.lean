import StagedTangent.Proofs.Staging.Scoping

/-!
# The stage of the latest input

A plan gives a call the latest of the stages of its operands. In one pass this comes to the latest
of the stages of all arguments that the call is computed from, however far back they stand and
however often their values are shared: `stage_le_of_path` and `exists_input_of_stage` are the two
halves. The main statement, `stages_latest`, carries it over to code. A stage behind the first binds
nothing that does not depend on its own direction, so that nothing is computed again for another
direction that could have been computed before, and no binding depends on a direction that is still
to come.
-/

namespace StagedTangent.Program

variable {p : Program} {node : Nat}

/-- The stages of the arguments that a node is computed from, in the order of the tape. -/
def inputStages (p : Program) (node : Nat) : List Nat :=
  p.nodes.zipIdx.filterMap fun entry =>
    match entry.1 with
    | .argument position =>
      if (p.neededFor node).getD entry.2 false then some (p.stageOfArgument position) else none
    | .call _ _ => none

/-! ## Stages and paths -/

/-- A value is not known before anything that it is computed from. -/
theorem stage_le_of_path (hp : p.Regular) {earlier : Nat} (h : p.Path node earlier) :
    p.stage earlier ≤ p.stage node := by
  induction h with
  | refl => exact Nat.le_refl _
  | tail _ huse ih => exact Nat.le_trans (stage_le_of_uses hp huse) ih

/-- A node that is not known from the beginning is computed from an argument of its stage. -/
theorem exists_input_of_stage (hp : p.Regular) (h : 0 < p.stage node) :
    ∃ input position, p.nodes[input]? = some (.argument position) ∧ p.Path node input ∧
      p.stage input = p.stage node := by
  induction node using Nat.strongRecOn with
  | ind node ih =>
    cases hentry : p.nodes[node]? with
    | none =>
      have hbeyond : p.stages.size ≤ node := by
        rw [size_stages]
        exact List.getElem?_eq_none_iff.1 hentry
      rw [stage, Array.getD_eq_getD_getElem?, Array.getElem?_eq_none hbeyond] at h
      exact absurd h (Nat.lt_irrefl 0)
    | some entry =>
      cases entry with
      | argument position => exact ⟨node, position, hentry, .refl, rfl⟩
      | call op operands =>
        -- One of the operands has the latest stage, and it stands before the call.
        have hlatest := stage_call hentry fun o ho => hp.operand_lt hentry ho
        rw [List.foldl_max, Nat.zero_max] at hlatest
        cases hmax : (operands.map p.stage).max? with
        | none =>
          rw [hlatest, hmax] at h
          exact absurd h (Nat.lt_irrefl 0)
        | some latest =>
          rw [hmax, Option.getD_some] at hlatest
          obtain ⟨operand, ho, rfl⟩ := List.mem_map.1 (List.max?_mem hmax)
          rw [hlatest] at h ⊢
          obtain ⟨input, position, hinput, hpath, hstage⟩ := ih operand (hp.operand_lt hentry ho) h
          exact ⟨input, position, hinput, .head (uses_of_call hentry ho) hpath, hstage⟩

/-! ## The latest input -/

theorem mem_inputStages (hp : p.Regular) (hnode : node < p.nodes.length) {stage : Nat} :
    stage ∈ p.inputStages node ↔ ∃ input position,
      p.nodes[input]? = some (.argument position) ∧ p.Path node input ∧ p.stage input = stage := by
  rw [inputStages, List.mem_filterMap]
  constructor
  · rintro ⟨⟨entry, input⟩, hmem, hstage⟩
    have hentry := List.mem_zipIdx_iff_getElem?.1 hmem
    cases entry with
    | argument position =>
      obtain ⟨hneeded, hstage⟩ := Option.ite_none_right_eq_some.1 hstage
      refine ⟨input, position, hentry, ((neededFor_iff hp).1 hneeded).2, ?_⟩
      rw [stage_argument hentry]
      exact Option.some.inj hstage
    | call op operands => cases hstage
  · rintro ⟨input, position, hinput, hpath, rfl⟩
    refine ⟨(.argument position, input), List.mem_zipIdx_iff_getElem?.2 hinput, ?_⟩
    rw [stage_argument hinput]
    exact if_pos ((neededFor_iff hp).2 ⟨hnode, hpath⟩)

/-- The stage of a node is the latest of the stages of the arguments that it is computed from. -/
theorem stage_eq_max_inputStages (hp : p.Regular) (hnode : node < p.nodes.length) :
    p.stage node = (p.inputStages node).max?.getD 0 := by
  have hle : ∀ stage ∈ p.inputStages node, stage ≤ p.stage node := by
    intro stage hstage
    obtain ⟨input, position, -, hpath, rfl⟩ := (mem_inputStages hp hnode).1 hstage
    exact stage_le_of_path hp hpath
  refine Nat.le_antisymm ?_ ?_
  · rcases Nat.eq_zero_or_pos (p.stage node) with hzero | hpos
    · rw [hzero]
      exact Nat.zero_le _
    · exact List.le_max?_getD_of_mem ((mem_inputStages hp hnode).2 (exists_input_of_stage hp hpos))
  · cases hmax : (p.inputStages node).max? with
    | none => exact Nat.zero_le _
    | some latest => exact hle latest (List.max?_mem hmax)

/-! ## Layers -/

/-- Every scope of scoped code holds the layer of its stage. -/
theorem Scoped.exists_layerOf {stage : Nat} {names : List (Symbol × Nat)} {root scope : Scope}
    (h : p.Scoped stage names root) (hmem : scope ∈ root.nest) :
    ∃ names', p.LayerOf scope.stage names' scope.layer := by
  induction h with
  | innermost hlayer _ =>
    obtain rfl := List.mem_singleton.1 hmem
    exact ⟨_, hlayer.stage_eq.symm ▸ hlayer⟩
  | enclosing hlayer _ ih =>
    rcases List.mem_cons.1 hmem with rfl | hmem
    · exact ⟨_, hlayer.stage_eq.symm ▸ hlayer⟩
    · exact ih hmem

/-- A layer behind the first takes one argument, the only one of its stage. -/
theorem LayerOf.exists_param (hp : p.Regular) {stage : Nat} {names : List (Symbol × Nat)}
    {layer : Layer} (h : p.LayerOf stage names layer) (hpos : 0 < stage) :
    ∃ param position, layer.params = [param] ∧
      p.nodes[param.node]? = some (.argument position) ∧ p.stage param.node = stage ∧
      ∀ input position', p.nodes[input]? = some (.argument position') → p.stage input = stage →
        input = param.node := by
  obtain ⟨node, hlisted, hparams⟩ := h.direction hpos
  obtain ⟨param, hparam, rfl⟩ := List.map_eq_singleton_iff.1 hparams
  have hargument := hp.argument_at hlisted
  refine ⟨param, _, hparam, hargument, ?_, fun input position' hinput hstage => ?_⟩
  · rw [stage_argument hargument, stageOfArgument_of_ge (by omega)]
    omega
  · rw [stage_argument hinput] at hstage
    have hposition : position' = p.baseArity + stage - 1 := by
      rcases Nat.lt_or_ge position' p.baseArity with hlt | hge
      · rw [stageOfArgument_of_lt hlt] at hstage
        omega
      · rw [stageOfArgument_of_ge hge] at hstage
        omega
    have hlisted' := hp.argument_listed hinput
    rw [hposition, hlisted] at hlisted'
    exact (Option.some.inj hlisted').symm

/-- The plan of a well-formed program gives every node the latest of the stages of the arguments
that it is computed from, and the first stage if there are none. So in its code a binding of a stage
behind the first depends on the direction that this very stage takes, and no binding depends on a
direction that a stage further inside takes. -/
theorem stages_latest (h : p.WellFormed) :
    p.plan.stages.size = p.size ∧
    (∀ node < p.size, p.plan.stages[node]? = some ((p.inputStages node).max?.getD 0)) ∧
    ∃ code, p.toCode = .ok code ∧ ∀ scope ∈ code.scopes, ∀ b ∈ scope.layer.bindings,
      (0 < scope.stage → ∃ param, scope.layer.params = [param] ∧
        (p.neededFor b.node).getD param.node false = true) ∧
      ∀ inner ∈ code.scopes, scope.stage < inner.stage → ∀ param ∈ inner.layer.params,
        (p.neededFor b.node).getD param.node false = false := by
  have hp := h.regular
  have hsize : p.plan.stages.size = p.size := by
    rw [size_eq_length]
    exact size_stages p
  obtain ⟨code, hcode, hscoped⟩ := exists_scoped_code h
  refine ⟨hsize, fun node hnode => ?_, code, hcode, fun scope hscope b hb => ?_⟩
  · rw [size_eq_length] at hnode
    obtain ⟨stage, hentry⟩ : ∃ stage, p.stages[node]? = some stage :=
      ⟨_, Array.getElem?_eq_getElem (by rwa [size_stages])⟩
    rw [← stage_eq_max_inputStages hp hnode, Program.stage, Array.getD_eq_getD_getElem?, hentry]
    exact hentry
  · obtain ⟨names, hlayer⟩ := hscoped.exists_layerOf hscope
    obtain ⟨-, hneeded, hstage⟩ := (hlayer.mem_iff b.node).1 (List.mem_map_of_mem hb)
    have hlt := hneeded.lt_length hp
    refine ⟨fun hpos => ?_, fun inner hinner hdeeper param hparam => ?_⟩
    · obtain ⟨param, -, hparams, -, -, honly⟩ := hlayer.exists_param hp hpos
      obtain ⟨input, position, hinput, hpath, hlatest⟩ :=
        exists_input_of_stage hp (hstage.symm ▸ hpos)
      obtain rfl := honly input position hinput (hlatest.trans hstage)
      exact ⟨param, hparams, (neededFor_iff hp).2 ⟨hlt, hpath⟩⟩
    · obtain ⟨names', hlayer'⟩ := hscoped.exists_layerOf hinner
      obtain ⟨param', -, hparams, -, hstage', -⟩ :=
        hlayer'.exists_param hp (Nat.zero_lt_of_lt hdeeper)
      rw [hparams] at hparam
      obtain rfl := List.mem_singleton.1 hparam
      rw [Bool.eq_false_iff]
      intro hdepends
      have hle := stage_le_of_path hp ((neededFor_iff hp).1 hdepends).2
      rw [hstage, hstage'] at hle
      exact Nat.not_le_of_lt hdeeper hle

/-- Of `sin x * v + cos x` along a direction `v` the cosine is known from the beginning and the sum
with the direction. -/
theorem stages_latest_cosine :
    let p : Program := ⟨.ofNodes #[.argument 0, .call .sin [0], .argument 1, .call .mul [1, 2],
      .call .cos [0], .call .add [3, 4]], [0, 2], 5, 1⟩
    p.plan.stages[4]? = some 0 ∧ p.plan.stages[5]? = some 1 ∧
      ∃ code, p.toCode = .ok code ∧ ∀ scope ∈ code.scopes, ∀ b ∈ scope.layer.bindings,
        0 < scope.stage → ∃ param, scope.layer.params = [param] ∧
          (p.neededFor b.node).getD param.node false = true := by
  intro p
  obtain ⟨-, hstages, code, hcode, hbindings⟩ := stages_latest (p := p) (by decide)
  exact ⟨(hstages 4 (by decide)).trans (by decide), (hstages 5 (by decide)).trans (by decide), code,
    hcode,
    fun scope hscope b hb => (hbindings scope hscope b hb).1⟩

end StagedTangent.Program
