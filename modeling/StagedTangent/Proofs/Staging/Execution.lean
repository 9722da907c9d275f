import StagedTangent.Proofs.Evaluation.Plain
import StagedTangent.Proofs.Staging.Layout

/-!
# Running what was laid out

Code computes what plain evaluation computes. The invariant is `Naming.Bound`: every node that has a
name has a value, and the environment gives that value to the name. A parameter and a binding each
keep it; a stage keeps it or stops with the first failure among its needed nodes; and so a whole run
stops with the first failure of the schedule or yields the value of the result (`call_layOutFrom`).
-/

namespace StagedTangent

variable {α : Type}

/-- The environment has the value of every named node under its name. -/
def Naming.Bound (named : Naming) (value : Nat → Option (Value α)) (env : Env (Value α)) : Prop :=
  ∀ node s, named.symbol? node = some s → ∃ v, value node = some v ∧ env.get s = .ok v

namespace Naming

variable {named : Naming} {value : Nat → Option (Value α)} {env : Env (Value α)}

theorem bound_empty (env : Env (Value α)) : Bound #[] value env := by
  intro node s h
  rw [symbol?_eq_none.2 (by simp)] at h
  cases h

theorem get_cons_self (env : Env (Value α)) (s : Symbol) (v : Value α) :
    Env.get ((s, v) :: env) s = .ok v := by
  simp [Env.get]

theorem get_cons_of_ne (env : Env (Value α)) {s t : Symbol} (v : Value α) (h : t ≠ s) :
    Env.get ((s, v) :: env) t = env.get t := by
  simp only [Env.get, List.lookup_cons, beq_eq_false_iff_ne.2 h]

/-- Naming a node and binding its value keeps the invariant. -/
theorem Bound.push (h : named.Bound value env) {node : Nat} {v : Value α}
    (hv : value node = some v) :
    Bound (named.push node) value ((named.fresh, v) :: env) := by
  intro m s hs
  rw [symbol?_push] at hs
  cases hold : named.symbol? m with
  | some t =>
    rw [hold, Option.some_or, Option.some.injEq] at hs
    subst hs
    rw [get_cons_of_ne _ _ (ne_fresh hold)]
    exact h m t hold
  | none =>
    rw [hold, Option.none_or] at hs
    split at hs
    · next heq =>
      obtain rfl := Option.some.inj hs
      subst heq
      exact ⟨v, hv, get_cons_self _ _ _⟩
    · cases hs

/-- The names of operands have the values of the operands. -/
theorem Bound.mapM_get (h : named.Bound value env) {stage user : Nat} {operands : List Nat}
    {symbols : List Symbol} (hargs : named.args stage user operands = .ok symbols) :
    ∃ vs, operands.mapM value = some vs ∧ symbols.mapM env.get = .ok vs := by
  induction operands generalizing symbols with
  | nil =>
    obtain rfl : [] = symbols := Except.ok.inj hargs
    exact ⟨[], rfl, rfl⟩
  | cons o rest ih =>
    obtain ⟨s, tail, hs, htail, rfl⟩ := args_cons_eq_ok.1 hargs
    obtain ⟨v, hv, hget⟩ := h o s hs
    obtain ⟨vs, hvs, hgets⟩ := ih htail
    refine ⟨v :: vs, ?_, ?_⟩
    · rw [List.mapM_cons, hv, hvs]
      rfl
    · rw [List.mapM_cons, hget, hgets]
      rfl

end Naming

namespace Program

variable {p : Program} {interpret : Interpretation α} {inputs : List (Value α)}

/-- The first failure among listed nodes. -/
def firstFailure? (p : Program) (interpret : Interpretation α) (inputs : List (Value α))
    (nodes : List Nat) : Option RunError :=
  nodes.findSome? fun node => (p.outcome interpret inputs node).failure?

/-! ## One stage -/

/-- Binding parameters to the values of their arguments keeps the invariant. -/
theorem bound_layOutParams {named : Naming} {env : Env (Value α)} {nodes : List Nat}
    {args : List (Value α)} (h : named.Bound (p.value? interpret inputs) env)
    (hargs : nodes.mapM (p.value? interpret inputs) = some args) :
    Naming.Bound (layOutParams named nodes).2 (p.value? interpret inputs)
      (Env.bindParams env (layOutParams named nodes).1 args) := by
  induction nodes generalizing named env args with
  | nil =>
    obtain rfl : [] = args := by simpa using hargs
    exact h
  | cons node rest ih =>
    obtain _ | ⟨hv, hrest⟩ := mapM_eq_some_iff.1 hargs
    exact ih (h.push hv) (mapM_eq_some_iff.2 hrest)

theorem length_layOutParams (named : Naming) (nodes : List Nat) :
    (layOutParams named nodes).1.length = nodes.length := by
  induction nodes generalizing named with
  | nil => rfl
  | cons node rest ih => simp only [layOutParams, List.length_cons, ih]

/-- A binding computes the outcome of its node. -/
theorem bind_of_call (hp : p.Regular) {named : Naming} {env : Env (Value α)} {n stage : Nat}
    {op : Op} {operands : List Nat} {symbols : List Symbol}
    (h : named.Bound (p.value? interpret inputs) env)
    (hn : p.nodes[n]? = some (.call op operands))
    (hargs : named.args stage n operands = .ok symbols) :
    (∃ v, p.outcome interpret inputs n = .value v ∧
      Env.bind interpret env ⟨named.fresh, n, op, symbols⟩ = .ok ((named.fresh, v) :: env)) ∨
    ∃ e, p.outcome interpret inputs n = .failure e ∧
      Env.bind interpret env ⟨named.fresh, n, op, symbols⟩ = .error e := by
  obtain ⟨vs, hvs, hgets⟩ := h.mapM_get hargs
  rw [outcome_call hp hn, hvs]
  unfold Env.bind
  simp only [hgets, Outcome.ofCall]
  cases hrun : interpret op vs with
  | ok v =>
    refine .inl ⟨v, rfl, ?_⟩
    change (interpret op vs >>= fun value => Except.ok ((named.fresh, value) :: env)) = _
    rw [hrun]
    rfl
  | error e =>
    refine .inr ⟨e, rfl, ?_⟩
    change (interpret op vs >>= fun value => Except.ok ((named.fresh, value) :: env)) = _
    rw [hrun]
    rfl

theorem failure?_of_not_isCall {n : Nat} (h : ¬ p.IsCall n) :
    (p.outcome interpret inputs n).failure? = none := by
  rcases Nat.lt_or_ge n p.nodes.length with hlt | hge
  · obtain ⟨entry, hentry⟩ : ∃ entry, p.nodes[n]? = some entry :=
      ⟨_, List.getElem?_eq_getElem hlt⟩
    cases entry with
    | argument position =>
      rw [outcome, outcomeIn_argument hentry]
      cases inputs[position]? <;> rfl
    | call op operands => exact absurd ⟨op, operands, hentry⟩ h
  · rw [outcome, outcomeIn_of_length_le hge]
    rfl

/-- Bindings keep the invariant or stop with the first failure among their nodes. -/
theorem foldlM_layOutBindings (hp : p.Regular) {stage : Nat} {nodes : List Nat} {named final : Naming}
    {bindings : List Binding} {env : Env (Value α)}
    (h : named.Bound (p.value? interpret inputs) env)
    (hok : p.layOutBindings stage named nodes = .ok (bindings, final)) :
    (∃ env', p.firstFailure? interpret inputs nodes = none ∧
      bindings.foldlM (Env.bind interpret) env = .ok env' ∧
      final.Bound (p.value? interpret inputs) env') ∨
    ∃ e, p.firstFailure? interpret inputs nodes = some e ∧
      bindings.foldlM (Env.bind interpret) env = .error e := by
  induction nodes generalizing named bindings env with
  | nil =>
    obtain ⟨rfl, rfl⟩ : [] = bindings ∧ named = final := by simpa [layOutBindings] using hok
    exact .inl ⟨env, rfl, rfl, h⟩
  | cons n rest ih =>
    by_cases hcall : p.IsCall n
    · obtain ⟨op, operands, hn⟩ := hcall
      rw [layOutBindings_of_call stage named rest hn] at hok
      obtain ⟨symbols, hargs, hok⟩ := bind_eq_ok.1 hok
      obtain ⟨⟨tail, last⟩, hrest, hok⟩ := bind_eq_ok.1 hok
      obtain ⟨rfl, rfl⟩ := Prod.mk.inj (Except.ok.inj hok)
      rcases bind_of_call hp h hn hargs with ⟨v, hv, hbind⟩ | ⟨e, he, hbind⟩
      · have hhead : (p.outcome interpret inputs n).failure? = none := by rw [hv]; rfl
        have hpush := h.push (value?_eq_some.2 hv)
        simp only [firstFailure?, List.findSome?_cons, hhead, List.foldlM_cons, hbind]
        exact ih hpush hrest
      · have hhead : (p.outcome interpret inputs n).failure? = some e := by rw [he]; rfl
        refine .inr ⟨e, ?_, ?_⟩
        · simp only [firstFailure?, List.findSome?_cons, hhead]
        · rw [List.foldlM_cons, hbind]
          rfl
    · rw [layOutBindings_of_not_isCall stage named rest hcall] at hok
      simp only [firstFailure?, List.findSome?_cons, failure?_of_not_isCall hcall]
      exact ih h hok

/-- A stage keeps the invariant or stops with the first failure among its needed nodes. -/
theorem run_layOutLayer (hp : p.Regular) {stage : Nat} {named final : Naming} {layer : Layer}
    {env : Env (Value α)} {args : List (Value α)}
    (h : named.Bound (p.value? interpret inputs) env)
    (hargs : (p.argumentsAt stage).mapM (p.value? interpret inputs) = some args)
    (hok : p.layOutLayer p.plan stage named = .ok (layer, final)) :
    (∃ env', p.firstFailure? interpret inputs (p.plan.neededAt stage) = none ∧
      layer.run interpret env args = .ok env' ∧ final.Bound (p.value? interpret inputs) env') ∨
    ∃ e, p.firstFailure? interpret inputs (p.plan.neededAt stage) = some e ∧
      layer.run interpret env args = .error e := by
  obtain ⟨⟨bindings, last⟩, hb, hok⟩ := bind_eq_ok.1 hok
  obtain ⟨rfl, rfl⟩ := Prod.mk.inj (Except.ok.inj hok)
  have hlength : args.length = (layOutParams named (p.argumentsAt stage)).1.length := by
    rw [length_layOutParams, length_of_mapM_eq_some hargs]
  unfold Layer.run
  rw [if_pos hlength]
  exact foldlM_layOutBindings hp (bound_layOutParams h hargs) hb

/-! ## All stages -/

/-- The values that become known from a given stage on, one list per stage. -/
def StageInputs (p : Program) (interpret : Interpretation α) (inputs : List (Value α)) :
    Nat → List (Value α) → List (Value α) → Prop
  | stage, args, [] => (p.argumentsAt stage).mapM (p.value? interpret inputs) = some args
  | stage, args, direction :: rest =>
    (p.argumentsAt stage).mapM (p.value? interpret inputs) = some args ∧
      p.StageInputs interpret inputs (stage + 1) [direction] rest

/-- Calling a laid out scope, and what it yields along one direction per further stage, stops with
the first failure of the schedule or yields the value of the result. -/
theorem call_layOutFrom (hp : p.Regular) (number : Nat) {inner stage : Nat}
    {named final : Naming} {scope : Scope} {env : Env (Value α)}
    {args directions : List (Value α)} (h : named.Bound (p.value? interpret inputs) env)
    (hlength : directions.length = inner) (hinputs : p.StageInputs interpret inputs stage args directions)
    (hok : p.layOutFrom p.plan stage named inner = .ok (scope, final)) :
    (∃ v, p.firstFailure? interpret inputs
        ((List.range' stage (inner + 1)).flatMap p.plan.neededAt) = none ∧
      p.value? interpret inputs p.result = some v ∧
      (scope.call interpret number env args >>= directions.foldlM (Value.call interpret number)) =
        .ok v) ∨
    ∃ e, p.firstFailure? interpret inputs
        ((List.range' stage (inner + 1)).flatMap p.plan.neededAt) = some e ∧
      (scope.call interpret number env args >>= directions.foldlM (Value.call interpret number)) =
        .error e := by
  induction inner generalizing stage named scope env args directions with
  | zero =>
    obtain rfl := List.length_eq_zero_iff.1 hlength
    obtain ⟨⟨layer, middle⟩, hlayer, hok⟩ := bind_eq_ok.1 hok
    cases hs : middle.symbol? p.result with
    | none =>
      simp only [hs] at hok
      cases hok
    | some s =>
      simp only [hs] at hok
      obtain ⟨rfl, rfl⟩ := Prod.mk.inj (Except.ok.inj hok)
      have hlist : (List.range' stage (0 + 1)).flatMap p.plan.neededAt =
          p.plan.neededAt stage := by simp
      rw [hlist]
      unfold Scope.call Scope.layer
      rcases run_layOutLayer hp h hinputs hlayer with ⟨env', hnone, hrun, hbound⟩ | ⟨e, he, hrun⟩
      · obtain ⟨v, hv, hget⟩ := hbound _ s hs
        refine .inl ⟨v, hnone, hv, ?_⟩
        simp only [hrun]
        change (env'.get s >>= _) = _
        rw [hget]
        rfl
      · refine .inr ⟨e, he, ?_⟩
        simp only [hrun]
        rfl
  | succ inner ih =>
    obtain _ | ⟨direction, rest⟩ := directions
    · cases hlength
    obtain ⟨hargs, hinner⟩ := hinputs
    obtain ⟨⟨layer, middle⟩, hlayer, hok⟩ := bind_eq_ok.1 hok
    obtain ⟨⟨scope', last⟩, hscope, hok⟩ := bind_eq_ok.1 hok
    obtain ⟨rfl, rfl⟩ := Prod.mk.inj (Except.ok.inj hok)
    rw [List.range'_succ, List.flatMap_cons, firstFailure?, List.findSome?_append]
    unfold Scope.call Scope.layer
    rcases run_layOutLayer hp h hargs hlayer with ⟨env', hnone, hrun, hbound⟩ | ⟨e, he, hrun⟩
    · rw [firstFailure?] at hnone
      simp only [hrun, hnone, Option.none_or]
      exact ih hbound (Nat.succ.inj hlength) hinner hscope
    · rw [firstFailure?] at he
      refine .inr ⟨e, ?_, ?_⟩
      · rw [he, Option.some_or]
      · simp only [hrun]
        rfl

end Program

end StagedTangent
