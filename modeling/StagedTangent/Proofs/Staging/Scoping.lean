import StagedTangent.Proofs.Staging.Layout

/-!
# The names in code

Code gives names to the arguments of a program and to the calls that its result needs, and refers to
nodes by these names only. `Program.Scoped` is the judgement that code is closed and complete: read
from the outside in, every stage takes its own arguments and binds its own calls in the order of the
tape, and whatever it mentions has been named before, in the same scope or in one around it. The
main statement, `toCode_wellScoped`, is that laying out yields such code for every well-formed
program and otherwise the first defect of the program.
-/

namespace StagedTangent

/-! ## Names and what they stand for -/

/-- The name of a parameter and the node that it stands for. -/
def Param.entry (param : Param) : Symbol × Nat := (param.symbol, param.node)

/-- The name of a binding and the node that it computes. -/
def Binding.entry (b : Binding) : Symbol × Nat := (b.symbol, b.node)

/-- What a layer names, in order: its parameters and then its bindings. -/
def Layer.names (layer : Layer) : List (Symbol × Nat) :=
  layer.params.map Param.entry ++ layer.bindings.map Binding.entry

/-- What code names, scope by scope from the outside in. -/
def Code.names (code : Code) : List (Symbol × Nat) :=
  code.scopes.flatMap fun scope => scope.layer.names

namespace Naming

variable {named : Naming} {node : Nat}

/-- The names that have been given, with the nodes that they stand for. -/
def names (named : Naming) : List (Symbol × Nat) :=
  named.toList.zipIdx.map fun entry => (⟨entry.2 + 1⟩, entry.1)

@[simp] theorem names_push (next : Nat) :
    names (named.push next) = named.names ++ [(named.fresh, next)] := by
  simp [names, fresh, List.zipIdx_append]

/-- Names are numbered from one, without a gap. -/
theorem map_fst_names :
    named.names.map Prod.fst = (List.range named.size).map fun n => Symbol.mk (n + 1) := by
  refine List.ext_getElem? fun i => ?_
  rcases Nat.lt_or_ge i named.size with hi | hi
  · simp [names, hi]
  · simp [names, hi]

theorem mem_names_of_symbol? {s : Symbol} (h : named.symbol? node = some s) :
    (s, node) ∈ named.names := by
  rw [symbol?_eq_findIdx?, Option.map_eq_some_iff] at h
  obtain ⟨place, hplace, rfl⟩ := h
  obtain ⟨hlt, hnode, -⟩ := List.findIdx?_eq_some_iff_getElem.1 hplace
  refine List.mem_map.2 ⟨(node, place), List.mem_zipIdx_iff_getElem?.2 ?_, rfl⟩
  rw [List.getElem?_eq_getElem hlt, beq_iff_eq.1 hnode]

/-- The names that a call is given for its operands stand for them. -/
theorem forall₂_of_args {stage user : Nat} {operands : List Nat} {symbols : List Symbol}
    (h : named.args stage user operands = .ok symbols) :
    List.Forall₂ (fun s operand => (s, operand) ∈ named.names) symbols operands := by
  induction operands generalizing symbols with
  | nil =>
    obtain rfl : [] = symbols := Except.ok.inj h
    exact .nil
  | cons operand rest ih =>
    obtain ⟨s, tail, hs, htail, rfl⟩ := args_cons_eq_ok.1 h
    exact .cons (mem_names_of_symbol? hs) (ih htail)

end Naming

namespace Program

variable {p : Program}

/-! ## The judgement -/

/-- A binding applies the operation of its node, and its arguments are names in scope that stand for
the operands of that node. -/
def Binds (p : Program) (names : List (Symbol × Nat)) (b : Binding) : Prop :=
  ∃ operands, p.nodes[b.node]? = some (.call b.op operands) ∧
    List.Forall₂ (fun s operand => (s, operand) ∈ names) b.args operands

/-- A layer is the one of a stage of a program, where the scopes around it give some names. -/
structure LayerOf (p : Program) (stage : Nat) (names : List (Symbol × Nat)) (layer : Layer) :
    Prop where
  stage_eq : layer.stage = stage
  /-- The outermost layer takes the base arguments, in the order of their positions. -/
  base : stage = 0 → layer.params.map Param.node = p.arguments.take p.baseArity
  /-- Every other layer takes one argument, the direction of its stage. -/
  direction : 0 < stage → ∃ node, p.arguments[p.baseArity + stage - 1]? = some node ∧
    layer.params.map Param.node = [node]
  /-- Bindings stand in the order of the tape. -/
  sorted : (layer.bindings.map Binding.node).Pairwise (· < ·)
  /-- The calls of the stage that the result needs are bound, and nothing else is. -/
  mem_iff : ∀ node, node ∈ layer.bindings.map Binding.node ↔
    p.IsCall node ∧ p.Needed node ∧ p.stage node = stage
  /-- A binding mentions names of the scopes around the layer, parameters and earlier bindings. -/
  binds : ∀ before b after, layer.bindings = before ++ b :: after →
    p.Binds (names ++ layer.params.map Param.entry ++ before.map Binding.entry) b

/-- A scope holds the stages of a program from a given one on, where the scopes around it give some
names. -/
inductive Scoped (p : Program) : Nat → List (Symbol × Nat) → Scope → Prop where
  /-- The last stage returns a name that stands for the result. -/
  | innermost {names : List (Symbol × Nat)} {layer : Layer} {result : Symbol} :
    p.LayerOf p.order names layer → (result, p.result) ∈ names ++ layer.names →
    Scoped p p.order names (.innermost layer result)
  /-- Any other stage encloses the next one, which sees its names as well. -/
  | enclosing {stage : Nat} {names : List (Symbol × Nat)} {layer : Layer} {inner : Scope} :
    p.LayerOf stage names layer → Scoped p (stage + 1) (names ++ layer.names) inner →
    Scoped p stage names (.enclosing layer inner)

/-- The stages of scoped code ascend to the last one. -/
theorem Scoped.stages {stage : Nat} {names : List (Symbol × Nat)} {scope : Scope}
    (h : p.Scoped stage names scope) :
    scope.nest.map Scope.stage = List.range' stage (p.order + 1 - stage) ∧ stage ≤ p.order := by
  induction h with
  | innermost hlayer _ =>
    refine ⟨?_, Nat.le_refl _⟩
    rw [Nat.add_sub_cancel_left]
    exact congrArg (fun stage => [stage]) hlayer.stage_eq
  | @enclosing stage names layer inner hlayer _ ih =>
    obtain ⟨hstages, hle⟩ := ih
    refine ⟨?_, Nat.le_of_succ_le hle⟩
    have hcount : p.order + 1 - stage = p.order + 1 - (stage + 1) + 1 := by omega
    rw [hcount, List.range'_succ, ← hstages]
    exact congrArg (fun head => head :: inner.nest.map Scope.stage) hlayer.stage_eq

/-! ## One stage -/

theorem map_node_layOutParams (named : Naming) (nodes : List Nat) :
    (layOutParams named nodes).1.map Param.node = nodes := by
  induction nodes generalizing named with
  | nil => rfl
  | cons node rest ih => simp only [layOutParams, List.map_cons, ih]

theorem names_layOutParams (named : Naming) (nodes : List Nat) :
    (layOutParams named nodes).2.names =
      named.names ++ (layOutParams named nodes).1.map Param.entry := by
  induction nodes generalizing named with
  | nil => simp [layOutParams]
  | cons node rest ih =>
    simp only [layOutParams, List.map_cons]
    rw [ih, Naming.names_push, List.append_assoc]
    rfl

/-- How a list of nodes with a first one has been laid out. -/
theorem layOutBindings_cons_eq_ok {stage n : Nat} {rest : List Nat} {named final : Naming}
    {bindings : List Binding}
    (h : p.layOutBindings stage named (n :: rest) = .ok (bindings, final)) :
    (¬ p.IsCall n ∧ p.layOutBindings stage named rest = .ok (bindings, final)) ∨
    ∃ op operands symbols tail, p.nodes[n]? = some (.call op operands) ∧
      named.args stage n operands = .ok symbols ∧
      p.layOutBindings stage (named.push n) rest = .ok (tail, final) ∧
      bindings = ⟨named.fresh, n, op, symbols⟩ :: tail := by
  by_cases hcall : p.IsCall n
  · obtain ⟨op, operands, hn⟩ := hcall
    rw [layOutBindings_of_call stage named rest hn] at h
    obtain ⟨symbols, hargs, h⟩ := bind_eq_ok.1 h
    obtain ⟨⟨tail, last⟩, hrest, h⟩ := bind_eq_ok.1 h
    obtain ⟨rfl, rfl⟩ := Prod.mk.inj (Except.ok.inj h)
    exact .inr ⟨op, operands, symbols, tail, hn, hargs, hrest, rfl⟩
  · rw [layOutBindings_of_not_isCall stage named rest hcall] at h
    exact .inl ⟨hcall, h⟩

/-- Bindings name their nodes, behind what was named before. -/
theorem names_layOutBindings {stage : Nat} {nodes : List Nat} {named final : Naming}
    {bindings : List Binding} (h : p.layOutBindings stage named nodes = .ok (bindings, final)) :
    final.names = named.names ++ bindings.map Binding.entry := by
  induction nodes generalizing named bindings with
  | nil =>
    obtain ⟨rfl, rfl⟩ := Prod.mk.inj (Except.ok.inj h)
    simp
  | cons n rest ih =>
    rcases layOutBindings_cons_eq_ok h with
      ⟨-, hrest⟩ | ⟨op, operands, symbols, tail, -, -, hrest, rfl⟩
    · exact ih hrest
    · rw [ih hrest, Naming.names_push, List.append_assoc]
      rfl

/-- The bound nodes are the calls among the nodes, in their order. -/
theorem sublist_layOutBindings {stage : Nat} {nodes : List Nat} {named final : Naming}
    {bindings : List Binding} (h : p.layOutBindings stage named nodes = .ok (bindings, final)) :
    (bindings.map Binding.node).Sublist nodes ∧
      ∀ node, node ∈ bindings.map Binding.node ↔ p.IsCall node ∧ node ∈ nodes := by
  induction nodes generalizing named bindings with
  | nil =>
    obtain ⟨rfl, rfl⟩ := Prod.mk.inj (Except.ok.inj h)
    simp
  | cons n rest ih =>
    rcases layOutBindings_cons_eq_ok h with
      ⟨hcall, hrest⟩ | ⟨op, operands, symbols, tail, hn, -, hrest, rfl⟩
    · obtain ⟨hsub, hmem⟩ := ih hrest
      refine ⟨hsub.cons n, fun node => ?_⟩
      rw [hmem, List.mem_cons]
      constructor
      · rintro ⟨hc, hnode⟩
        exact ⟨hc, .inr hnode⟩
      · rintro ⟨hc, rfl | hnode⟩
        · exact absurd hc hcall
        · exact ⟨hc, hnode⟩
    · obtain ⟨hsub, hmem⟩ := ih hrest
      refine ⟨hsub.cons_cons n, fun node => ?_⟩
      rw [List.map_cons, List.mem_cons, List.mem_cons, hmem]
      constructor
      · rintro (rfl | ⟨hc, hnode⟩)
        · exact ⟨⟨op, operands, hn⟩, .inl rfl⟩
        · exact ⟨hc, .inr hnode⟩
      · rintro ⟨hc, rfl | hnode⟩
        · exact .inl rfl
        · exact .inr ⟨hc, hnode⟩

/-- A binding mentions what was named before the stage or by an earlier binding. -/
theorem binds_layOutBindings {stage : Nat} {nodes : List Nat} {named final : Naming}
    {bindings : List Binding} (h : p.layOutBindings stage named nodes = .ok (bindings, final)) :
    ∀ before b after, bindings = before ++ b :: after →
      p.Binds (named.names ++ before.map Binding.entry) b := by
  induction nodes generalizing named bindings with
  | nil =>
    obtain ⟨rfl, rfl⟩ := Prod.mk.inj (Except.ok.inj h)
    intro before b after hsplit
    simp at hsplit
  | cons n rest ih =>
    rcases layOutBindings_cons_eq_ok h with
      ⟨-, hrest⟩ | ⟨op, operands, symbols, tail, hn, hargs, hrest, rfl⟩
    · exact ih hrest
    · intro before b after hsplit
      cases before with
      | nil =>
        obtain ⟨rfl, -⟩ := List.cons.inj hsplit
        refine ⟨operands, hn, ?_⟩
        rw [List.map_nil, List.append_nil]
        exact Naming.forall₂_of_args hargs
      | cons first before =>
        obtain ⟨rfl, htail⟩ := List.cons.inj hsplit
        have hbinds := ih hrest before b after htail
        rwa [Naming.names_push, List.append_assoc] at hbinds

/-- A stage is laid out as the layer of that stage. -/
theorem layerOf_layOutLayer (hp : p.Regular) {stage : Nat} {named final : Naming} {layer : Layer}
    (hstage : stage ≤ p.order) (h : p.layOutLayer p.plan stage named = .ok (layer, final)) :
    p.LayerOf stage named.names layer ∧ final.names = named.names ++ layer.names := by
  obtain ⟨⟨bindings, last⟩, hb, h⟩ := bind_eq_ok.1 h
  obtain ⟨rfl, rfl⟩ := Prod.mk.inj (Except.ok.inj h)
  obtain ⟨hsub, hmem⟩ := sublist_layOutBindings hb
  have hbinds := binds_layOutBindings hb
  have hnames := names_layOutBindings hb
  rw [names_layOutParams] at hbinds hnames
  refine ⟨⟨rfl, ?_, ?_, (pairwise_neededAt stage).sublist hsub, fun node => ?_, hbinds⟩, ?_⟩
  · rintro rfl
    rw [map_node_layOutParams, argumentsAt_zero]
  · intro hpos
    obtain ⟨stage, rfl⟩ := Nat.exists_eq_succ_of_ne_zero (Nat.ne_of_gt hpos)
    have hposition : p.baseArity + stage < p.arguments.length := by
      rw [order] at hstage
      omega
    refine ⟨p.arguments[p.baseArity + stage], List.getElem?_eq_getElem hposition, ?_⟩
    rw [map_node_layOutParams, argumentsAt_succ, List.getElem?_eq_getElem hposition]
    rfl
  · rw [hmem, mem_neededAt hp]
  · rw [hnames, Layer.names, List.append_assoc]

/-! ## All stages -/

/-- The stages from a given one on are laid out as the scopes of those stages. -/
theorem scoped_layOutFrom (hp : p.Regular) {inner stage : Nat} {named final : Naming}
    {scope : Scope} (hlast : stage + inner = p.order)
    (h : p.layOutFrom p.plan stage named inner = .ok (scope, final)) :
    p.Scoped stage named.names scope ∧
      final.names = named.names ++ scope.nest.flatMap fun scope => scope.layer.names := by
  induction inner generalizing stage named scope with
  | zero =>
    obtain ⟨⟨layer, middle⟩, hlayer, h⟩ := bind_eq_ok.1 h
    obtain ⟨hof, hnames⟩ := layerOf_layOutLayer hp (by omega) hlayer
    cases hs : middle.symbol? p.result with
    | none =>
      simp only [hs] at h
      cases h
    | some s =>
      simp only [hs] at h
      obtain ⟨rfl, rfl⟩ := Prod.mk.inj (Except.ok.inj h)
      obtain rfl : stage = p.order := hlast
      have hresult := Naming.mem_names_of_symbol? hs
      rw [hnames] at hresult
      refine ⟨.innermost hof hresult, ?_⟩
      rw [hnames]
      simp [Scope.nest, Scope.layer]
  | succ inner ih =>
    obtain ⟨⟨layer, middle⟩, hlayer, h⟩ := bind_eq_ok.1 h
    obtain ⟨⟨scope', last⟩, hscope, h⟩ := bind_eq_ok.1 h
    obtain ⟨rfl, rfl⟩ := Prod.mk.inj (Except.ok.inj h)
    obtain ⟨hof, hnames⟩ := layerOf_layOutLayer hp (by omega) hlayer
    obtain ⟨hinner, hrest⟩ := ih (by omega) hscope
    rw [hnames] at hinner hrest
    refine ⟨.enclosing hof hinner, ?_⟩
    rw [hrest, List.append_assoc]
    rfl

/-- A well-formed program has code, and its code is scoped. -/
theorem exists_scoped_code (h : p.WellFormed) :
    ∃ code, p.toCode = .ok code ∧ p.Scoped 0 [] code.root := by
  obtain ⟨scope, final, hok, hcode⟩ := exists_toCode h
  exact ⟨_, hcode, (scoped_layOutFrom h.regular (Nat.zero_add _) hok).1⟩

/-! ## Failing -/

/-- The checks of a program never find an operand without a name. -/
theorem check_ne_unnamedOperand (p : Program) (node operand stage : Nat) :
    p.check ≠ .error (.unnamedOperand node operand stage) := by
  have hoperand : ∀ size user o : Nat,
      operandDefect? size user o ≠ some (.unnamedOperand node operand stage) := by
    intro size user o
    unfold operandDefect?
    split
    · simp
    · split <;> simp
  have hnode : ∀ entry, p.nodeDefect? entry ≠ some (.unnamedOperand node operand stage) := by
    intro entry h
    unfold nodeDefect? at h
    split at h
    · split at h <;> simp at h
    · split at h
      · simp at h
      · obtain ⟨o, -, ho⟩ := List.exists_of_findSome?_eq_some h
        exact hoperand _ _ _ ho
  intro h
  have hdefect : p.defect? = some (.unnamedOperand node operand stage) := by
    unfold check at h
    split at h
    · next heq =>
      cases h
      exact heq
    · cases h
  simp only [defect?, Option.or_eq_some_iff] at hdefect
  rcases hdefect with harity | ⟨-, hentry | ⟨-, hnodes | ⟨-, hresult⟩⟩⟩
  · simp [arityDefect?] at harity
  · obtain ⟨entry, -, hentry⟩ := List.exists_of_findSome?_eq_some hentry
    simp [entryDefect?] at hentry
  · obtain ⟨entry, -, hentry⟩ := List.exists_of_findSome?_eq_some hnodes
    exact hnode entry hentry
  · simp [resultDefect?] at hresult

/-- Laying a program out fails exactly with what is wrong with the program. -/
theorem toCode_eq_error_iff (p : Program) (e : Defect) :
    p.toCode = .error e ↔ p.check = .error e := by
  by_cases h : p.WellFormed
  · obtain ⟨scope, final, -, hcode⟩ := exists_toCode h
    rw [hcode, (check_eq_ok_iff p).2 h]
    exact ⟨nofun, nofun⟩
  · obtain ⟨e', he'⟩ : ∃ e', p.check = .error e' := by
      cases hcheck : p.check with
      | error e' => exact ⟨e', rfl⟩
      | ok u => exact absurd ((check_eq_ok_iff p).1 hcheck) h
    have hcode : p.toCode = .error e' := by
      unfold toCode
      rw [he']
      rfl
    rw [hcode, he', Except.error.injEq, Except.error.injEq]

/-- Laying out fails exactly where the checks of a program do, with the defect that they find, which
is never an operand without a name. The code of any other program has the stages of the program from
the outside in, numbers its names from one without a gap or repetition, and is scoped: every stage
takes its arguments, binds its needed calls once and in the order of the tape, and mentions only
names given before, in the place of the nodes that they stand for. -/
theorem toCode_wellScoped (p : Program) :
    (∀ e, p.toCode = .error e ↔ p.check = .error e) ∧
    (∀ node operand stage, p.toCode ≠ .error (.unnamedOperand node operand stage)) ∧
    ∀ code, p.toCode = .ok code →
      code.scopes.map Scope.stage = List.range (p.order + 1) ∧
      code.names.map Prod.fst = (List.range code.symbols).map (fun n => ⟨n + 1⟩) ∧
      p.Scoped 0 [] code.root := by
  refine ⟨toCode_eq_error_iff p, fun node operand stage h => ?_, fun code hcode => ?_⟩
  · exact check_ne_unnamedOperand p node operand stage ((toCode_eq_error_iff p _).1 h)
  · have hwell : p.WellFormed := by
      rw [← check_eq_ok_iff]
      cases hcheck : p.check with
      | ok u => rfl
      | error e =>
        rw [(toCode_eq_error_iff p e).2 hcheck] at hcode
        cases hcode
    obtain ⟨scope, final, hok, hcode'⟩ := exists_toCode hwell
    obtain rfl : code = ⟨scope, final.size⟩ := Except.ok.inj (hcode.symm.trans hcode')
    obtain ⟨hscoped, hnames⟩ := scoped_layOutFrom hwell.regular (Nat.zero_add _) hok
    refine ⟨?_, ?_, hscoped⟩
    · rw [List.range_eq_range']
      exact hscoped.stages.1
    · rw [← Naming.map_fst_names, hnames]
      rfl

end Program

end StagedTangent
