import Mathlib.Data.List.Flatten
import Mathlib.Data.List.Nodup
import StagedTangent.Proofs.Staging.RunShape

/-!
# What closures capture

A closure over some stage has bound the names of the stages before it and no others, each to the
value that plain evaluation gives to the node that it stands for. The invariant is
`Program.Arrived`: at every stage what is still to be run is the scope of the stage, and the
environment recalls what the stages before it have named. It holds at the start, every stage keeps
it, and so it holds however many directions have been given. Nothing of this depends on what the
directions are. Only behind the last stage there is no closure of the program any more, and what
comes out there is a closure only if it was put in. The main statement is `runAlong_captures`.
-/

namespace StagedTangent

/-- What the stages of code before a given one name. -/
def Code.namesBefore (code : Code) (stage : Nat) : List (Symbol × Nat) :=
  (code.scopes.take stage).flatMap fun scope => scope.layer.names

theorem Code.nodup_namesBefore {code : Code} (h : (code.names.map Prod.fst).Nodup) (stage : Nat) :
    ((code.namesBefore stage).map Prod.fst).Nodup := by
  have hsplit : code.namesBefore stage ++
      (code.scopes.drop stage).flatMap (fun scope => scope.layer.names) = code.names := by
    rw [namesBefore, ← List.flatMap_append, List.take_append_drop]
    rfl
  rw [← hsplit, List.map_append] at h
  exact h.of_append_left

theorem Code.namesBefore_sublist (code : Code) {stage later : Nat} (h : stage ≤ later) :
    (code.namesBefore stage).Sublist (code.namesBefore later) :=
  ((List.take_prefix_take_left h).sublist).flatMap _

/-! ## What an environment recalls -/

section Recalls

variable {α : Type} {value : Nat → Option (Value α)} {names : List (Symbol × Nat)}
  {env : Env (Value α)} {s : Symbol} {node : Nat} {v : Value α}

/-- The environment binds the given names and no others, in their order, to the values of the nodes
that they stand for. -/
inductive Env.Recalls (value : Nat → Option (Value α)) :
    List (Symbol × Nat) → Env (Value α) → Prop where
  | nil : Recalls value [] []
  | bind {names : List (Symbol × Nat)} {env : Env (Value α)} {s : Symbol} {node : Nat}
    {v : Value α} : Recalls value names env → value node = some v →
    Recalls value (names ++ [(s, node)]) ((s, v) :: env)

theorem Env.lookup_of_get (h : env.get s = .ok v) : env.lookup s = some v := by
  unfold Env.get at h
  split at h
  · next heq => rw [heq, Except.ok.inj h]
  · cases h

namespace Env.Recalls

theorem exists_value (h : Recalls value names env) (hmem : (s, node) ∈ names) :
    ∃ v, value node = some v := by
  induction h with
  | nil => cases hmem
  | bind _ hv ih =>
    rcases List.mem_append.1 hmem with hmem | hmem
    · exact ih hmem
    · cases List.mem_singleton.1 hmem
      exact ⟨_, hv⟩

/-- What is bound to names that differ from each other is found under them. -/
theorem lookup_iff (h : Recalls value names env) (hnodup : (names.map Prod.fst).Nodup) :
    env.lookup s = some v ↔ ∃ node, (s, node) ∈ names ∧ value node = some v := by
  induction h with
  | nil => simp
  | @bind names env t last w _ hw ih =>
    rw [List.map_append, List.nodup_append] at hnodup
    obtain ⟨hbefore, -, hnew⟩ := hnodup
    have hfresh : ∀ node, (t, node) ∉ names := fun node hmem =>
      hnew t (List.mem_map_of_mem (f := Prod.fst) hmem) t (by simp) rfl
    rw [List.lookup_cons]
    by_cases hs : s = t
    · subst hs
      simp only [BEq.rfl, Option.some.injEq, List.mem_append, List.mem_singleton, Prod.mk.injEq]
      constructor
      · rintro rfl
        exact ⟨last, .inr ⟨trivial, rfl⟩, hw⟩
      · rintro ⟨node, hmem | ⟨-, rfl⟩, hv⟩
        · exact absurd hmem (hfresh node)
        · exact Option.some.inj (hw.symm.trans hv)
    · rw [beq_false_of_ne hs]
      simp [ih hbefore, hs]

/-- Exactly the given names are bound. -/
theorem exists_lookup_iff (h : Recalls value names env) (hnodup : (names.map Prod.fst).Nodup) :
    (∃ v, env.lookup s = some v) ↔ s ∈ names.map Prod.fst := by
  simp only [h.lookup_iff hnodup, List.mem_map, Prod.exists, exists_and_right, exists_eq_right]
  constructor
  · rintro ⟨v, node, hmem, -⟩
    exact ⟨node, hmem⟩
  · rintro ⟨node, hmem⟩
    obtain ⟨v, hv⟩ := h.exists_value hmem
    exact ⟨v, node, hmem, hv⟩

/-- Parameters are bound to the values of their arguments. -/
theorem bindParams (h : Recalls value names env) {params : List Param} {args : List (Value α)}
    (hargs : List.Forall₂ (fun param arg => value param.node = some arg) params args) :
    Recalls value (names ++ params.map Param.entry) (env.bindParams params args) := by
  induction hargs generalizing names env with
  | nil =>
    rw [List.map_nil, List.append_nil]
    exact h
  | @cons param arg params args hv _ ih =>
    rw [List.map_cons, List.append_cons]
    exact ih (h.bind hv)

end Env.Recalls

end Recalls

/-! ## One stage -/

namespace Program

variable {α : Type} {p : Program} {interpret : Interpretation α} {inputs : List (Value α)}
  {names : List (Symbol × Nat)} {env env' : Env (Value α)} {stage : Nat} {layer : Layer}

open Env (Recalls)

/-- The names of operands have the values of the operands. -/
theorem mapM_value?_of_get (h : Recalls (p.value? interpret inputs) names env)
    (hnodup : (names.map Prod.fst).Nodup) {symbols : List Symbol} {operands : List Nat}
    (hstand : List.Forall₂ (fun s operand => (s, operand) ∈ names) symbols operands)
    {vs : List (Value α)} (hget : symbols.mapM env.get = .ok vs) :
    operands.mapM (p.value? interpret inputs) = some vs := by
  induction hstand generalizing vs with
  | nil =>
    obtain rfl : [] = vs := Except.ok.inj hget
    rfl
  | @cons s operand symbols operands hmem _ ih =>
    rw [List.mapM_cons] at hget
    obtain ⟨v, hv, hget⟩ := bind_eq_ok.1 hget
    obtain ⟨tail, htail, hget⟩ := bind_eq_ok.1 hget
    obtain rfl : v :: tail = vs := Except.ok.inj hget
    obtain ⟨w, hw⟩ := h.exists_value hmem
    have hsame := (h.lookup_iff hnodup).2 ⟨operand, hmem, hw⟩
    rw [Env.lookup_of_get hv] at hsame
    rw [List.mapM_cons, hw, ih htail, Option.some.inj hsame]
    rfl

/-- A binding that succeeds is bound to the value of its node. -/
theorem recalls_bind (hp : p.Regular) (h : Recalls (p.value? interpret inputs) names env)
    (hnodup : (names.map Prod.fst).Nodup) {b : Binding} (hb : p.Binds names b)
    (hrun : env.bind interpret b = .ok env') :
    Recalls (p.value? interpret inputs) (names ++ [b.entry]) env' := by
  obtain ⟨operands, hnode, hstand⟩ := hb
  obtain ⟨vs, hvs, hrun⟩ := bind_eq_ok.1 hrun
  obtain ⟨v, hv, hrun⟩ := bind_eq_ok.1 hrun
  obtain rfl := Except.ok.inj hrun
  exact h.bind ((value?_call_eq_some hp hnode).2 ⟨vs, mapM_value?_of_get h hnodup hstand hvs, hv⟩)

/-- Bindings are run one by one, each behind those before it. -/
theorem recalls_bindings (hp : p.Regular) (hlayer : p.LayerOf stage names layer)
    (hnodup : ((names ++ layer.names).map Prod.fst).Nodup) {before after : List Binding}
    (hsplit : layer.bindings = before ++ after)
    (h : Recalls (p.value? interpret inputs)
      (names ++ layer.params.map Param.entry ++ before.map Binding.entry) env)
    (hrun : after.foldlM (Env.bind interpret) env = .ok env') :
    Recalls (p.value? interpret inputs) (names ++ layer.names) env' := by
  induction after generalizing before env with
  | nil =>
    obtain rfl := Except.ok.inj hrun
    rw [Layer.names, hsplit, List.append_nil, ← List.append_assoc]
    exact h
  | cons b after ih =>
    rw [List.foldlM_cons] at hrun
    obtain ⟨env'', hb, hrun⟩ := bind_eq_ok.1 hrun
    have hnames : ((names ++ layer.params.map Param.entry ++ before.map Binding.entry).map
        Prod.fst).Nodup := by
      refine hnodup.sublist (List.Sublist.map _ ?_)
      rw [Layer.names, ← List.append_assoc, hsplit, List.map_append]
      exact (List.sublist_append_left _ _).append_left _
    refine ih (by rw [hsplit, List.append_cons]) ?_ hrun
    rw [List.map_append, ← List.append_assoc]
    exact recalls_bind hp h hnames (hlayer.binds before b after hsplit) hb

/-- A stage that succeeds binds its parameters and bindings behind what is there. -/
theorem recalls_run (hp : p.Regular) (hlayer : p.LayerOf stage names layer)
    (h : Recalls (p.value? interpret inputs) names env)
    (hnodup : ((names ++ layer.names).map Prod.fst).Nodup) {args : List (Value α)}
    (hargs : List.Forall₂ (fun param arg => p.value? interpret inputs param.node = some arg)
      layer.params args)
    (hrun : layer.run interpret env args = .ok env') :
    Recalls (p.value? interpret inputs) (names ++ layer.names) env' := by
  unfold Layer.run at hrun
  split at hrun
  · refine recalls_bindings hp hlayer hnodup (List.nil_append _).symm ?_ hrun
    rw [List.map_nil, List.append_nil]
    exact h.bindParams hargs
  · cases hrun

/-! ## All stages -/

/-- The arguments of a stage are the values of its parameters: at the first stage these are the base
arguments. -/
theorem LayerOf.forall₂_base (hp : p.Regular) (h : p.LayerOf 0 names layer) {args : List (Value α)}
    (hlength : args.length = layer.params.length) (more : List (Value α)) :
    List.Forall₂ (fun param arg => p.value? interpret (args ++ more) param.node = some arg)
      layer.params args := by
  rw [List.forall₂_iff_get]
  refine ⟨hlength.symm, fun i hi hi' => ?_⟩
  have hlisted : (p.arguments.take p.baseArity)[i]? = some (layer.params.get ⟨i, hi⟩).node := by
    rw [← h.base rfl, List.getElem?_map, List.getElem?_eq_getElem hi]
    rfl
  rw [List.getElem?_take] at hlisted
  split at hlisted
  · rw [value?_listed hp hlisted, List.getElem?_append_left hi', List.getElem?_eq_getElem hi']
    rfl
  · cases hlisted

/-- At any other stage it is the direction of the stage. -/
theorem LayerOf.forall₂_direction (hp : p.Regular) (h : p.LayerOf (stage + 1) names layer)
    {direction : Value α} (hinput : inputs[p.baseArity + stage]? = some direction) :
    List.Forall₂ (fun param arg => p.value? interpret inputs param.node = some arg)
      layer.params [direction] := by
  obtain ⟨node, hlisted, hparams⟩ := h.direction (Nat.succ_pos stage)
  obtain ⟨param, hparam, rfl⟩ := List.map_eq_singleton_iff.1 hparams
  rw [hparam]
  refine .cons ?_ .nil
  rw [value?_listed hp hlisted]
  exact hinput

theorem Scoped.layerOf {scope : Scope} (h : p.Scoped stage names scope) :
    p.LayerOf stage names scope.layer := by
  cases h with
  | innermost hlayer _ => exact hlayer
  | enclosing hlayer _ => exact hlayer

/-- A run of the code of a program has come to a stage: what is still to be run is the scope of the
stage, and the environment recalls what the stages before it name. -/
structure Arrived (p : Program) (code : Code) (value : Nat → Option (Value α)) (stage : Nat)
    (scope : Scope) (env : Env (Value α)) : Prop where
  wellScoped : p.Scoped stage (code.namesBefore stage) scope
  nest : code.scopes.drop stage = scope.nest
  recalls : Recalls value (code.namesBefore stage) env

namespace Arrived

variable {code : Code} {scope : Scope} {number : Nat} {value : Nat → Option (Value α)}

theorem start (hscoped : p.Scoped 0 [] code.root) : p.Arrived code value 0 code.root [] :=
  ⟨hscoped, rfl, .nil⟩

theorem stage_eq {c : Closure (Value α)} (h : p.Arrived code value stage c.scope c.env) :
    c.stage = stage := h.wellScoped.layerOf.stage_eq

theorem stage_le (h : p.Arrived code value stage scope env) : stage ≤ p.order :=
  h.wellScoped.stages.2

/-- The next stage sees the names of this one as well. -/
theorem namesBefore_succ (h : p.Arrived code value stage scope env) :
    code.namesBefore (stage + 1) = code.namesBefore stage ++ scope.layer.names := by
  have hhead : code.scopes[stage]? = some scope := by
    have hdrop := congrArg List.head? h.nest
    rw [List.head?_drop] at hdrop
    rw [hdrop]
    cases scope <;> rfl
  rw [Code.namesBefore, List.take_add_one, hhead, List.flatMap_append]
  simp [Code.namesBefore]

theorem nodup_succ (h : p.Arrived code value stage scope env)
    (hnodup : (code.names.map Prod.fst).Nodup) :
    ((code.namesBefore stage ++ scope.layer.names).map Prod.fst).Nodup := by
  rw [← h.namesBefore_succ]
  exact Code.nodup_namesBefore hnodup (stage + 1)

/-- A call runs the stage, and comes to the next one or, behind the last stage, to the value of the
result. -/
theorem call (hp : p.Regular) (hnodup : (code.names.map Prod.fst).Nodup)
    (h : p.Arrived code (p.value? interpret inputs) stage scope env) {args : List (Value α)}
    (hargs : List.Forall₂ (fun param arg => p.value? interpret inputs param.node = some arg)
      scope.layer.params args) {v : Value α}
    (hcall : scope.call interpret number env args = .ok v) :
    (stage < p.order ∧ ∃ c, v = .closure c ∧
      p.Arrived code (p.value? interpret inputs) (stage + 1) c.scope c.env) ∨
    (stage = p.order ∧ p.value? interpret inputs p.result = some v) := by
  obtain ⟨env', hrun, hcall⟩ := bind_eq_ok.1 hcall
  have hdistinct := h.nodup_succ hnodup
  have hrecalls := recalls_run hp h.wellScoped.layerOf h.recalls hdistinct hargs hrun
  cases scope with
  | innermost layer result =>
    cases h.wellScoped with
    | innermost _ hmem =>
      obtain ⟨w, hw⟩ := hrecalls.exists_value hmem
      have hfound := (hrecalls.lookup_iff hdistinct).2 ⟨p.result, hmem, hw⟩
      rw [Env.lookup_of_get hcall] at hfound
      exact .inr ⟨rfl, hfound ▸ hw⟩
  | enclosing layer inner =>
    obtain rfl := Except.ok.inj hcall
    have hnames : code.namesBefore (stage + 1) = code.namesBefore stage ++ layer.names :=
      h.namesBefore_succ
    have hnest := h.nest
    cases h.wellScoped with
    | enclosing _ hinner =>
      refine .inl ⟨hinner.stages.2, _, rfl, hnames ▸ hinner, ?_, hnames ▸ hrecalls⟩
      rw [← List.drop_drop, hnest]
      rfl

/-- Further directions lead to further stages. -/
theorem calls (hp : p.Regular) (hnodup : (code.names.map Prod.fst).Nodup)
    {c : Closure (Value α)} {directions : List (Value α)} {v : Value α}
    (h : p.Arrived code (p.value? interpret inputs) (stage + 1) c.scope c.env)
    (hinputs : ∀ i d, directions[i]? = some d → inputs[p.baseArity + stage + i]? = some d)
    (hlast : stage + 1 + directions.length ≤ p.order)
    (hcalls : directions.foldlM (Value.call interpret number) (.closure c) = .ok v) :
    ∃ d, v = .closure d ∧ p.Arrived code (p.value? interpret inputs)
      (stage + 1 + directions.length) d.scope d.env := by
  induction directions generalizing stage c with
  | nil => exact ⟨c, (Except.ok.inj hcalls).symm, h⟩
  | cons direction directions ih =>
    rw [List.foldlM_cons] at hcalls
    obtain ⟨w, hcall, hcalls⟩ := bind_eq_ok.1 hcalls
    rw [List.length_cons] at hlast ⊢
    rcases h.call hp hnodup
      (h.wellScoped.layerOf.forall₂_direction hp (hinputs 0 direction rfl)) hcall with
      ⟨-, d, rfl, hd⟩ | ⟨heq, -⟩
    · have hlater : ∀ i e, directions[i]? = some e →
          inputs[p.baseArity + (stage + 1) + i]? = some e := by
        intro i e he
        have := hinputs (i + 1) e he
        rwa [show p.baseArity + stage + (i + 1) = p.baseArity + (stage + 1) + i by omega] at this
      have := ih hd hlater (by omega) hcalls
      rwa [show stage + 1 + 1 + directions.length = stage + 1 + (directions.length + 1) by omega]
        at this
    · omega

end Arrived

/-! ## Runs -/

/-- What is given later comes behind what has been given. -/
theorem getElem?_behind {given later : List (Value α)} {n i : Nat} (h : given.length = n) :
    (given ++ later)[n + i]? = later[i]? := by
  rw [List.getElem?_append_right (h ▸ Nat.le_add_right ..), h, Nat.add_sub_cancel_left]

/-- The names in the code of a program differ from each other. -/
theorem nodup_names (h : p.WellFormed) {code : Code} (hcode : p.toCode = .ok code) :
    (code.names.map Prod.fst).Nodup := by
  obtain ⟨scope, final, hok, hcode'⟩ := exists_toCode h
  obtain rfl := Except.ok.inj (hcode.symm.trans hcode')
  have hnames : final.names = Code.names ⟨scope, final.size⟩ :=
    (scoped_layOutFrom h.regular (Nat.zero_add _) hok).2
  rw [← hnames, Naming.map_fst_names]
  exact List.nodup_range.map fun m n heq => by simpa using heq

theorem scoped_root (h : p.WellFormed) {code : Code} (hcode : p.toCode = .ok code) :
    p.Scoped 0 [] code.root := by
  obtain ⟨code', hcode', hscoped⟩ := exists_scoped_code h
  obtain rfl := Except.ok.inj (hcode.symm.trans hcode')
  exact hscoped

/-- While directions are missing, a run comes to the stage behind those that have been given. What
is given later has no influence on it. -/
theorem arrived_of_runAlong (h : p.WellFormed) {code : Code} (hcode : p.toCode = .ok code)
    {number : Nat} {args directions : List (Value α)} (more : List (Value α))
    (hlast : directions.length < p.order) {v : Value α}
    (hrun : code.runAlong interpret number args directions = .ok v) :
    ∃ c, v = .closure c ∧ p.Arrived code (p.value? interpret (args ++ directions ++ more))
      (directions.length + 1) c.scope c.env := by
  have hscoped := scoped_root h hcode
  have hcount := Code.length_args_of_runAlong hrun
  have hbase := hscoped.length_params h.regular
  obtain ⟨w, hcall, hcalls⟩ := bind_eq_ok.1 hrun
  have hargs : List.Forall₂ (fun param arg =>
      p.value? interpret (args ++ directions ++ more) param.node = some arg)
      code.root.layer.params args := by
    rw [List.append_assoc]
    exact hscoped.layerOf.forall₂_base h.regular hcount (directions ++ more)
  rcases (Arrived.start hscoped).call h.regular (nodup_names h hcode) hargs hcall with
    ⟨-, c, rfl, hc⟩ | ⟨heq, -⟩
  · have hinputs : ∀ i d, directions[i]? = some d →
        (args ++ directions ++ more)[p.baseArity + 0 + i]? = some d := by
      intro i d hd
      rw [List.append_assoc, Nat.add_zero, getElem?_behind (hcount.trans hbase),
        List.getElem?_append_left (List.getElem?_eq_some_iff.1 hd).1, hd]
    obtain ⟨d, rfl, hd⟩ := hc.calls h.regular (nodup_names h hcode) hinputs (by omega) hcalls
    refine ⟨d, rfl, ?_⟩
    rwa [Nat.add_comm directions.length]
  · omega

/-! ## Runs on quantities -/

open Quantity

/-- What can still be called is a closure. -/
theorem exists_closure_of_calls {number : Nat} {directions : List (Value α)} {v : Value α}
    {d : Closure (Value α)}
    (h : directions.foldlM (Value.call interpret number) v = .ok (.closure d)) :
    ∃ c, v = .closure c := by
  cases v with
  | closure c => exact ⟨c, rfl⟩
  | scalar x => cases directions <;> cases h
  | vector xs => cases directions <;> cases h

variable [Scalar α]

/-- On quantities a closure comes out only while directions are missing. -/
theorem length_lt_order (h : p.WellFormed) {code : Code} (hcode : p.toCode = .ok code)
    {number : Nat} {args directions : List (Quantity α)} {c : Closure (Value α)}
    (hrun : code.runAlong Value.apply number (args.map toValue) (directions.map toValue) =
      .ok (.closure c)) : directions.length < p.order := by
  by_contra hlast
  have hcount := Code.length_args_of_runAlong hrun
  rw [(scoped_root h hcode).length_params h.regular, List.length_map] at hcount
  rw [← List.take_append_drop p.order directions, List.map_append, Code.runAlong] at hrun
  obtain ⟨w, hcall, hcalls⟩ := bind_eq_ok.1 hrun
  rw [List.foldlM_append] at hcalls
  obtain ⟨v, hfirst, hrest⟩ := bind_eq_ok.1 hcalls
  have hall : (directions.take p.order).length = p.order := by
    rw [List.length_take]
    omega
  obtain ⟨q, -, rfl⟩ := (runAlong_toValue_iff h hcode number hcount hall).1
    (bind_eq_ok.2 ⟨w, hcall, hfirst⟩)
  obtain ⟨d, hd⟩ := exists_closure_of_calls hrest
  exact toValue_ne_closure q d hd

/-- A value that is a closure is the input of an argument. -/
theorem exists_input_of_closure (hp : p.Regular) {inputs : List (Value α)} {node : Nat}
    {e : Closure (Value α)} (h : p.value? Value.apply inputs node = some (.closure e)) :
    ∃ position < p.arguments.length, inputs[position]? = some (.closure e) := by
  obtain ⟨entry, hnode⟩ : ∃ entry, p.nodes[node]? = some entry :=
    ⟨_, List.getElem?_eq_getElem (lt_length_of_valueIn h)⟩
  cases entry with
  | argument position =>
    rw [value?_argument hnode] at h
    exact ⟨position, hp.position_lt hnode, h⟩
  | call op operands =>
    obtain ⟨vs, -, happly⟩ := (value?_call_eq_some hp hnode).1 h
    obtain ⟨q, hq⟩ := exists_of_apply happly
    exact absurd hq.symm (toValue_ne_closure q e)

/-- Where quantities come first, it is one of the inputs behind them. -/
theorem closure_mem_take (hp : p.Regular) {inputs : List (Quantity α)} {more : List (Value α)}
    {node : Nat} {e : Closure (Value α)}
    (h : p.value? Value.apply (inputs.map toValue ++ more) node = some (.closure e)) :
    .closure e ∈ more.take (p.arguments.length - inputs.length) := by
  obtain ⟨position, hposition, hinput⟩ := exists_input_of_closure hp h
  rcases Nat.lt_or_ge position (inputs.map toValue).length with hfirst | hbehind
  · rw [List.getElem?_append_left hfirst, List.getElem?_map, Option.map_eq_some_iff] at hinput
    obtain ⟨q, -, hq⟩ := hinput
    exact absurd hq (toValue_ne_closure q e)
  · rw [List.getElem?_append_right hbehind] at hinput
    rw [List.length_map] at hbehind hinput
    refine List.mem_of_getElem? (i := position - inputs.length) ?_
    rw [List.getElem?_take, if_pos (by omega), hinput]

/-- Where calls go on behind the last stage, this stage has handed one of its tangents back. -/
theorem exists_handedBack (hp : p.Regular) {code : Code}
    (hnodup : (code.names.map Prod.fst).Nodup) {number : Nat} {inputs : List (Quantity α)}
    {more : List (Value α)} {c d : Closure (Value α)}
    (hc : p.Arrived code (p.value? Value.apply (inputs.map toValue ++ more)) (stage + 1)
      c.scope c.env)
    (hinputs : inputs.length = p.baseArity + stage) (hlast : p.order < stage + 1 + more.length)
    (hcalls : more.foldlM (Value.call Value.apply number) (.closure c) = .ok (.closure d)) :
    ∃ before after e, more = before ++ after ∧ stage + before.length = p.order ∧
      .closure e ∈ before ∧
      before.foldlM (Value.call Value.apply number) (.closure c) = .ok (.closure e) ∧
      after.foldlM (Value.call Value.apply number) (.closure e) = .ok (.closure d) := by
  have hle := hc.stage_le
  have hplace : ∀ i v, more[i]? = some v →
      (inputs.map toValue ++ more)[p.baseArity + stage + i]? = some v := fun i v hv =>
    (getElem?_behind (by rw [List.length_map, hinputs])).trans hv
  -- The calls up to the last stage, the one that runs it, and the others.
  obtain ⟨k, hk⟩ := Nat.exists_eq_add_of_le hle
  have hlt : k < more.length := by omega
  obtain ⟨first, direction, after, hsplit, hlength⟩ :
      ∃ first direction after, more = first ++ [direction] ++ after ∧ first.length = k :=
    ⟨more.take k, more[k], more.drop (k + 1), by simp, List.length_take_of_le (Nat.le_of_lt hlt)⟩
  have hmore : ∀ (i : Nat) (v : Value α), (first ++ [direction])[i]? = some v →
      more[i]? = some v := by
    intro i v hv
    rw [hsplit]
    exact (List.getElem?_append_left (List.getElem?_eq_some_iff.1 hv).1).trans hv
  rw [hsplit, List.append_assoc, List.foldlM_append] at hcalls
  obtain ⟨w, hfirst, hcalls⟩ := bind_eq_ok.1 hcalls
  rw [List.singleton_append, List.foldlM_cons] at hcalls
  obtain ⟨v, hcall, hrest⟩ := bind_eq_ok.1 hcalls
  have hbefore : ∀ (i : Nat) (v : Value α), first[i]? = some v →
      (inputs.map toValue ++ more)[p.baseArity + stage + i]? = some v := fun i v hv =>
    hplace i v (hmore i v ((List.getElem?_append_left (List.getElem?_eq_some_iff.1 hv).1).trans hv))
  obtain ⟨c', rfl, hc'⟩ := hc.calls hp hnodup hbefore (by omega) hfirst
  rw [hlength, Nat.add_right_comm] at hc'
  -- The last stage yields the value of the result, and that is a closure only as an input.
  have hgiven : (first ++ [direction])[k]? = some direction := by
    rw [← hlength]
    exact List.getElem?_concat_length
  have hdirection := hplace k direction (hmore k direction hgiven)
  rw [Nat.add_assoc] at hdirection
  rcases hc'.call hp hnodup (hc'.wellScoped.layerOf.forall₂_direction hp hdirection) hcall with
    ⟨habsurd, -⟩ | ⟨-, hresult⟩
  · omega
  obtain ⟨e, rfl⟩ := exists_closure_of_calls hrest
  refine ⟨first ++ [direction], after, e, hsplit, ?_, ?_, ?_, hrest⟩
  · rw [List.length_append, List.length_singleton]
    omega
  · have hcount : p.arguments.length - inputs.length = (first ++ [direction]).length := by
      have := hp.baseArity_le
      rw [order] at hk
      rw [List.length_append, List.length_singleton]
      omega
    have hmem := closure_mem_take hp hresult
    rwa [hcount, hsplit, List.take_left] at hmem
  · rw [List.foldlM_append, hfirst, ok_bind, List.foldlM_cons, hcall]
    rfl

/-- A closure that a run on quantities comes to has bound the names of the stages before it and no
others, each to the value of its node, whatever further directions there may be. Further calls leave
all this as it is, whatever their tangents are. Only the last stage can hand a tangent back that is
a closure itself; what comes out then is this tangent, or what calling it has come to. -/
theorem runAlong_captures (h : p.WellFormed) {code : Code} (hcode : p.toCode = .ok code)
    (number : Nat) {args directions : List (Quantity α)} {c : Closure (Value α)}
    (hrun : code.runAlong Value.apply number (args.map toValue) (directions.map toValue) =
      .ok (.closure c)) :
    c.stage = directions.length + 1 ∧
    (∀ s, (∃ v, c.bound? s = some v) ↔ s ∈ (code.namesBefore c.stage).map Prod.fst) ∧
    (∀ s node, (s, node) ∈ code.namesBefore c.stage → ∀ rest : List (Quantity α),
      ∃ q, p.value? Quantity.apply (args ++ directions ++ rest) node = some q ∧
        c.bound? s = some q.toValue) ∧
    ∀ (number' : Nat) (more : List (Value α)) (d : Closure (Value α)),
      more.foldlM (Value.call Value.apply number') (.closure c) = .ok (.closure d) →
      (c.stage + more.length ≤ p.order ∧ d.stage = c.stage + more.length ∧
        ∀ s v, c.bound? s = some v → d.bound? s = some v) ∨
      ∃ before after e, more = before ++ after ∧ c.stage + before.length = p.order + 1 ∧
        .closure e ∈ before ∧
        before.foldlM (Value.call Value.apply number') (.closure c) = .ok (.closure e) ∧
        after.foldlM (Value.call Value.apply number') (.closure e) = .ok (.closure d) := by
  have hdistinct := nodup_names h hcode
  have hlast := length_lt_order h hcode hrun
  have harrived : ∀ more, p.Arrived code
      (p.value? Value.apply (args.map toValue ++ directions.map toValue ++ more))
      (directions.length + 1) c.scope c.env := by
    intro more
    obtain ⟨c', hc', harrived⟩ :=
      arrived_of_runAlong h hcode more (by rwa [List.length_map]) hrun
    obtain rfl := Value.closure.inj hc'
    rwa [List.length_map] at harrived
  have hstage := (harrived []).stage_eq
  have hnodup := Code.nodup_namesBefore hdistinct (directions.length + 1)
  rw [hstage]
  refine ⟨rfl, fun s => (harrived []).recalls.exists_lookup_iff hnodup, fun s node hmem rest => ?_,
    fun number' more d hcalls => ?_⟩
  · have hrecalls := (harrived (rest.map toValue)).recalls
    obtain ⟨v, hv⟩ := hrecalls.exists_value hmem
    have hfound := (hrecalls.lookup_iff hnodup).2 ⟨node, hmem, hv⟩
    rw [← List.map_append, ← List.map_append, value?_toValue, Option.map_eq_some_iff] at hv
    obtain ⟨q, hq, rfl⟩ := hv
    exact ⟨q, hq, hfound⟩
  · have hcount := Code.length_args_of_runAlong hrun
    rw [(scoped_root h hcode).length_params h.regular, List.length_map] at hcount
    have hc := harrived more
    rw [← List.map_append] at hc
    have hinputs : (args ++ directions).length = p.baseArity + directions.length := by
      rw [List.length_append, hcount]
    rcases Nat.lt_or_ge p.order (directions.length + 1 + more.length) with hbeyond | hwithin
    · obtain ⟨before, after, e, hsplit, hlength, hmem, hbefore, hafter⟩ :=
        exists_handedBack h.regular hdistinct hc hinputs hbeyond hcalls
      exact .inr ⟨before, after, e, hsplit, by omega, hmem, hbefore, hafter⟩
    · obtain ⟨d', hd', hd⟩ := hc.calls h.regular hdistinct
        (fun i v hv => (getElem?_behind (by rw [List.length_map, hinputs])).trans hv) hwithin hcalls
      obtain rfl := Value.closure.inj hd'
      refine .inl ⟨hwithin, hd.stage_eq, fun s v hv => ?_⟩
      -- The names of the later stages come behind those of the earlier ones.
      obtain ⟨node, hmem, hvalue⟩ := (hc.recalls.lookup_iff hnodup).1 hv
      refine (hd.recalls.lookup_iff (Code.nodup_namesBefore hdistinct _)).2 ⟨node, ?_, hvalue⟩
      exact (code.namesBefore_sublist (Nat.le_add_right ..)).subset hmem

/-- Of the derivative of a sine, the closure at a point has bound the point and the cosine. -/
theorem runAlong_captures_cosine :
    let p : Program := ⟨.ofNodes #[.argument 0, .argument 1, .call .cos [0], .call .mul [2, 1]],
      [0, 1], 3, 1⟩
    ∃ code c, p.toCode = .ok code ∧
      code.runAlong Value.apply 0 [.scalar (1 : Float)] [] = .ok (.closure c) ∧ c.stage = 1 ∧
      (∀ s, (∃ v, c.bound? s = some v) ↔ s ∈ [⟨1⟩, ⟨2⟩]) ∧
      ∃ q, p.value? Quantity.apply [.scalar (1 : Float), .scalar 5] 2 = some q ∧
        c.bound? ⟨2⟩ = some q.toValue := by
  intro p
  let inner : Scope := .innermost ⟨1, [⟨⟨3⟩, 1⟩], [⟨⟨4⟩, 3, .mul, [⟨2⟩, ⟨3⟩]⟩]⟩ ⟨4⟩
  let code : Code := ⟨.enclosing ⟨0, [⟨⟨1⟩, 0⟩], [⟨⟨2⟩, 2, .cos, [⟨1⟩]⟩]⟩ inner, 4⟩
  have hcode : p.toCode = .ok code := by decide +kernel
  have hrun : code.runAlong Value.apply 0 ([Quantity.scalar (1 : Float)].map Quantity.toValue)
      (([] : List (Quantity Float)).map Quantity.toValue) =
        .ok (.closure ⟨0, inner, [(⟨2⟩, .scalar (Scalar.cos 1)), (⟨1⟩, .scalar 1)]⟩) := rfl
  obtain ⟨hstage, hbound, hvalue, -⟩ := runAlong_captures (by decide) hcode 0 hrun
  exact ⟨_, _, hcode, hrun, hstage, hbound, hvalue ⟨2⟩ 2 (by decide) [.scalar 5]⟩

/-- A closure among the tangents can come out of the last stage, and it has bound something else. -/
theorem call_hands_closure_back :
    let p : Program := ⟨.ofNodes #[.argument 0, .argument 1], [0, 1], 1, 1⟩
    p.WellFormed ∧ ∃ code c other, p.toCode = .ok code ∧
      code.runAlong Value.apply 0 [.scalar (2 : Float)] [] = .ok (.closure c) ∧
      code.runAlong Value.apply 1 [.vector [(3 : Float), 4]] [] = .ok (.closure other) ∧
      Value.call Value.apply 2 (.closure c) (.closure other) = .ok (.closure other) ∧
      c.bound? ⟨1⟩ = some (.scalar 2) ∧ other.bound? ⟨1⟩ ≠ c.bound? ⟨1⟩ := by
  intro p
  have hcode : p.toCode = .ok ⟨.enclosing ⟨0, [⟨⟨1⟩, 0⟩], []⟩
      (.innermost ⟨1, [⟨⟨2⟩, 1⟩], []⟩ ⟨2⟩), 2⟩ := by decide +kernel
  refine ⟨by decide, _, _, _, hcode, rfl, rfl, rfl, rfl, fun heq => ?_⟩
  cases heq

end Program

end StagedTangent
