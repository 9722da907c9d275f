import StagedTangent.Proofs.Staging.OnQuantities
import StagedTangent.Proofs.Staging.Scoping

/-!
# What shows of a run

Of a value shows whether it is a scalar, a vector of some length or a closure at some stage. What
shows of a run, its error included, is settled by the shapes of its inputs after every single
direction: numbers never decide whether a run goes on, how it fails or what it looks like
(`toCode_outline_of_shape`). The invariant of two such runs is `Value.Alike`, a relation that goes
through everything that closures have bound; every step that can fail keeps it or fails in both
runs with one error, `Together`.
-/

namespace StagedTangent

variable {α β : Type}

/-! ## Two results -/

/-- Two results that are the same error, or two values in a relation. -/
inductive Together {ε γ δ : Type} (r : γ → δ → Prop) : Except ε γ → Except ε δ → Prop where
  | error (e : ε) : Together r (.error e) (.error e)
  | ok {a : γ} {b : δ} : r a b → Together r (.ok a) (.ok b)

namespace Together

variable {ε γ δ γ' δ' ι ι' : Type} {r : γ → δ → Prop} {r' : γ' → δ' → Prop}

/-- Steps that go together, one behind the other. -/
theorem bind {x : Except ε γ} {y : Except ε δ} {f : γ → Except ε γ'} {g : δ → Except ε δ'}
    (h : Together r x y) (hstep : ∀ a b, r a b → Together r' (f a) (g b)) :
    Together r' (x >>= f) (y >>= g) := by
  cases h with
  | error e => exact .error e
  | ok hab => exact hstep _ _ hab

/-- A view under which related values are the same does not tell the results apart. -/
theorem map_eq {ρ : Type} {x : Except ε γ} {y : Except ε δ} {f : γ → ρ} {g : δ → ρ}
    (h : Together r x y) (hview : ∀ a b, r a b → f a = g b) : x.map f = y.map g := by
  cases h with
  | error e => rfl
  | ok hab => exact congrArg Except.ok (hview _ _ hab)

theorem mapM {s : ι → ι' → Prop} {f : ι → Except ε γ} {g : ι' → Except ε δ} {xs : List ι}
    {ys : List ι'} (h : List.Forall₂ s xs ys) (hstep : ∀ x y, s x y → Together r (f x) (g y)) :
    Together (List.Forall₂ r) (xs.mapM f) (ys.mapM g) := by
  induction h with
  | nil => exact .ok .nil
  | cons hxy _ ih =>
    rw [List.mapM_cons, List.mapM_cons]
    exact (hstep _ _ hxy).bind fun _ _ hab => ih.bind fun _ _ hrest => .ok (.cons hab hrest)

theorem foldlM {s : ι → ι' → Prop} {f : γ → ι → Except ε γ} {g : δ → ι' → Except ε δ}
    {xs : List ι} {ys : List ι'} (h : List.Forall₂ s xs ys)
    (hstep : ∀ a b x y, r a b → s x y → Together r (f a x) (g b y)) {a : γ} {b : δ}
    (hab : r a b) : Together r (xs.foldlM f a) (ys.foldlM g b) := by
  induction h generalizing a b with
  | nil => exact .ok hab
  | cons hxy _ ih =>
    rw [List.foldlM_cons, List.foldlM_cons]
    exact (hstep _ _ _ _ hab hxy).bind fun _ _ h => ih h

end Together

/-! ## Values that look alike -/

mutual

/-- Two values that differ at most in their numbers and in the runs that have made them. -/
inductive Value.Alike : Value α → Value β → Prop where
  | scalar (x : α) (y : β) : Value.Alike (.scalar x) (.scalar y)
  | vector {xs : List α} {ys : List β} : xs.length = ys.length →
    Value.Alike (.vector xs) (.vector ys)
  | closure (run run' : Nat) (scope : Scope) {env : Env (Value α)} {env' : Env (Value β)} :
    Env.Alike env env' → Value.Alike (.closure ⟨run, scope, env⟩) (.closure ⟨run', scope, env'⟩)

/-- Two environments that bind the same names to values that look alike. -/
inductive Env.Alike : Env (Value α) → Env (Value β) → Prop where
  | nil : Env.Alike [] []
  | cons (s : Symbol) {v : Value α} {w : Value β} {env : Env (Value α)} {env' : Env (Value β)} :
    Value.Alike v w → Env.Alike env env' → Env.Alike ((s, v) :: env) ((s, w) :: env')

end

/-- What shows of a value: everything but its numbers and what it has bound. -/
inductive Outline where
  | scalar
  | vector (length : Nat)
  | closure (stage : Nat)
deriving DecidableEq, Repr

/-- What shows of a value. -/
def Value.outline : Value α → Outline
  | .scalar _ => .scalar
  | .vector xs => .vector xs.length
  | .closure c => .closure c.stage

namespace Value.Alike

variable {a b : Value α} {a' b' : Value β}

theorem outline_eq (h : a.Alike a') : a.outline = a'.outline := by
  cases h with
  | scalar x y => rfl
  | vector h => exact congrArg Outline.vector h
  | closure run run' scope _ => rfl

/-- Quantities of one shape look alike. -/
theorem of_shape_eq {q : Quantity α} {q' : Quantity β} (h : q.shape = q'.shape) :
    q.toValue.Alike q'.toValue := by
  cases q with
  | scalar x =>
    cases q' with
    | scalar y => exact .scalar x y
    | vector ys => cases h
  | vector xs =>
    cases q' with
    | scalar y => cases h
    | vector ys =>
      refine .vector ?_
      have hlength := congrArg List.length (Quantity.vector.inj h)
      rwa [List.length_map, List.length_map] at hlength

/-! ## Operations -/

theorem mapElements (h : a.Alike a') (op : Opcode) (f : α → α) (g : β → β) :
    Together Alike (mapElements op f a) (mapElements op g a') := by
  cases h with
  | scalar x y => exact .ok (.scalar _ _)
  | vector h => exact .ok (.vector (by rwa [List.length_map, List.length_map]))
  | closure run run' scope _ => exact .error _

theorem zipElements (h : a.Alike a') (h' : b.Alike b') (op : Opcode) (f : α → α → α)
    (g : β → β → β) : Together Alike (zipElements op f a b) (zipElements op g a' b') := by
  cases h with
  | closure run run' scope _ => cases h' <;> exact .error _
  | scalar x y =>
    cases h' with
    | scalar z w => exact .ok (.scalar _ _)
    | vector hlength => exact .ok (.vector (by rwa [List.length_map, List.length_map]))
    | closure run run' scope _ => exact .error _
  | @vector xs xs' hxs =>
    cases h' with
    | scalar z w => exact .ok (.vector (by rwa [List.length_map, List.length_map]))
    | closure run run' scope _ => exact .error _
    | @vector ys ys' hys =>
      simp only [Value.zipElements, hxs, hys]
      split
      · exact .ok (.vector (by rw [List.length_zipWith, List.length_zipWith, hxs, hys]))
      · exact .error _

theorem element (h : a.Alike a') (place : Nat) :
    Together Alike (element place a) (element place a') := by
  cases h with
  | scalar x y => exact .error _
  | closure run run' scope _ => exact .error _
  | @vector xs xs' hxs =>
    simp only [Value.element]
    rcases Nat.lt_or_ge place xs.length with hlt | hge
    · rw [List.getElem?_eq_getElem hlt, List.getElem?_eq_getElem (hxs ▸ hlt)]
      exact .ok (.scalar _ _)
    · rw [List.getElem?_eq_none hge, List.getElem?_eq_none (hxs ▸ hge), hxs]
      exact .error _

theorem circshift (h : a.Alike a') (shift : Int) :
    Together Alike (circshift shift a) (circshift shift a') := by
  cases h with
  | scalar x y => exact .ok (.scalar x y)
  | vector h => exact .ok (.vector (by simp [rotate, h]))
  | closure run run' scope _ => exact .error _

variable [Scalar α] [Scalar β]

theorem dotProduct (h : a.Alike a') (h' : b.Alike b') :
    Together Alike (dotProduct a b) (dotProduct a' b') := by
  cases h with
  | closure run run' scope _ => cases h' <;> exact .error _
  | scalar x y =>
    cases h' with
    | scalar z w => exact .ok (.scalar _ _)
    | vector hlength => exact .error _
    | closure run run' scope _ => exact .error _
  | @vector xs xs' hxs =>
    cases h' with
    | scalar z w => exact .error _
    | closure run run' scope _ => exact .error _
    | @vector ys ys' hys =>
      simp only [Value.dotProduct, hxs, hys]
      split
      · exact .ok (.scalar _ _)
      · exact .error _

theorem sumElements (h : a.Alike a') : Together Alike (sumElements a) (sumElements a') := by
  cases h with
  | scalar x y => exact .ok (.scalar x y)
  | vector h => exact .ok (.scalar _ _)
  | closure run run' scope _ => exact .error _

end Value.Alike

/-- Whether an operation succeeds, its error and the look of its result are settled by the look of
its operands. -/
theorem Value.apply_alike [Scalar α] [Scalar β] (op : Op) {vs : List (Value α)}
    {ws : List (Value β)} (h : List.Forall₂ Value.Alike vs ws) :
    Together Value.Alike (Value.apply op vs) (Value.apply op ws) := by
  by_cases hcount : vs.length = op.arity
  · match op, vs, ws, hcount, h with
    | .constant c, [], [], _, .nil => exact .ok (.scalar _ _)
    | .add, [_, _], [_, _], _, .cons h (.cons h' .nil)
    | .sub, [_, _], [_, _], _, .cons h (.cons h' .nil)
    | .mul, [_, _], [_, _], _, .cons h (.cons h' .nil)
    | .div, [_, _], [_, _], _, .cons h (.cons h' .nil) => exact h.zipElements h' _ _ _
    | .neg, [_], [_], _, .cons h .nil | .sin, [_], [_], _, .cons h .nil
    | .cos, [_], [_], _, .cons h .nil | .exp, [_], [_], _, .cons h .nil
    | .log, [_], [_], _, .cons h .nil | .sqrt, [_], [_], _, .cons h .nil
    | .abs, [_], [_], _, .cons h .nil | .sign, [_], [_], _, .cons h .nil
    | .zeroLike, [_], [_], _, .cons h .nil => exact h.mapElements _ _ _
    | .dot, [_, _], [_, _], _, .cons h (.cons h' .nil) => exact h.dotProduct h'
    | .sum, [_], [_], _, .cons h .nil => exact h.sumElements
    | .index place, [_], [_], _, .cons h .nil => exact h.element place
    | .circshift shift, [_], [_], _, .cons h .nil => exact h.circshift shift
  · rw [Quantity.value_apply_of_length_ne hcount,
      Quantity.value_apply_of_length_ne (h.length_eq ▸ hcount), h.length_eq]
    exact .error _

/-! ## Runs -/

/-- Two meanings of the operations that do not tell values apart that look alike. -/
def KeepLook (interpret : Interpretation α) (interpret' : Interpretation β) : Prop :=
  ∀ op vs ws, List.Forall₂ Value.Alike vs ws →
    Together Value.Alike (interpret op vs) (interpret' op ws)

section Runs

variable {interpret : Interpretation α} {interpret' : Interpretation β} {env : Env (Value α)}
  {env' : Env (Value β)} {args directions : List (Value α)} {args' directions' : List (Value β)}

theorem Env.Alike.get (h : Env.Alike env env') (s : Symbol) :
    Together Value.Alike (Env.get env s) (Env.get env' s) := by
  induction env generalizing env' with
  | nil =>
    cases h
    exact .error _
  | cons entry env ih =>
    obtain _ | ⟨t, hv, hrest⟩ := h
    simp only [Env.get, List.lookup_cons]
    cases s == t with
    | true => exact .ok hv
    | false => exact ih hrest

theorem Env.Alike.bindParams (h : Env.Alike env env') (params : List Param)
    (hargs : List.Forall₂ Value.Alike args args') :
    Env.Alike (Env.bindParams env params args) (Env.bindParams env' params args') := by
  induction hargs generalizing params env env' with
  | nil =>
    rw [Env.bindParams, Env.bindParams, List.zip_nil_right, List.zip_nil_right]
    exact h
  | cons hv _ ih =>
    cases params with
    | nil => exact h
    | cons param params => exact ih (.cons param.symbol hv h) params

theorem Env.Alike.bind (h : Env.Alike env env') (hops : KeepLook interpret interpret')
    (b : Binding) :
    Together Env.Alike (Env.bind interpret env b) (Env.bind interpret' env' b) := by
  have hsymbols : List.Forall₂ Eq b.args b.args := List.forall₂_same.2 fun _ _ => rfl
  refine (Together.mapM hsymbols ?_).bind fun vs ws hvs =>
    (hops b.op vs ws hvs).bind fun v w hv => .ok (.cons b.symbol hv h)
  rintro s _ rfl
  exact h.get s

theorem Layer.run_alike (h : Env.Alike env env') (hops : KeepLook interpret interpret')
    (layer : Layer) (hargs : List.Forall₂ Value.Alike args args') :
    Together Env.Alike (layer.run interpret env args) (layer.run interpret' env' args') := by
  unfold Layer.run
  rw [hargs.length_eq]
  split
  · have hbindings : List.Forall₂ Eq layer.bindings layer.bindings :=
      List.forall₂_same.2 fun _ _ => rfl
    refine Together.foldlM hbindings ?_ (h.bindParams layer.params hargs)
    rintro env env' b _ h rfl
    exact h.bind hops b
  · exact .error _

theorem Scope.call_alike (h : Env.Alike env env') (hops : KeepLook interpret interpret')
    (number number' : Nat) (scope : Scope) (hargs : List.Forall₂ Value.Alike args args') :
    Together Value.Alike (scope.call interpret number env args)
      (scope.call interpret' number' env' args') := by
  refine (Layer.run_alike h hops scope.layer hargs).bind fun env env' h => ?_
  cases scope with
  | innermost layer result => exact h.get result
  | enclosing layer inner => exact .ok (.closure number number' inner h)

theorem Value.call_alike (hops : KeepLook interpret interpret') (number number' : Nat)
    {v arg : Value α} {v' arg' : Value β} (h : v.Alike v') (harg : arg.Alike arg') :
    Together Value.Alike (v.call interpret number arg) (v'.call interpret' number' arg') := by
  cases h with
  | scalar x y => exact .error _
  | vector h => exact .error _
  | closure run run' scope henv =>
    exact Scope.call_alike henv hops number number' scope (.cons harg .nil)

/-- Two runs of one code on inputs that look alike fail with the same error or come to values that
look alike. -/
theorem Code.runAlong_alike (hops : KeepLook interpret interpret') (number number' : Nat)
    (code : Code) (hargs : List.Forall₂ Value.Alike args args')
    (hdirections : List.Forall₂ Value.Alike directions directions') :
    Together Value.Alike (code.runAlong interpret number args directions)
      (code.runAlong interpret' number' args' directions') :=
  (Scope.call_alike .nil hops number number' code.root hargs).bind fun _ _ h =>
    Together.foldlM hdirections
      (fun _ _ _ _ hv harg => Value.call_alike hops number number' hv harg) h

/-! ## The stage of a run -/

/-- While directions are missing, a run that succeeds comes to a closure over the next scope. -/
theorem Scope.call_stage {number : Nat} {scope : Scope} {v : Value α}
    (hmissing : directions.length < scope.depth)
    (h : (scope.call interpret number env args >>= directions.foldlM (Value.call interpret number)) =
      .ok v) :
    ∃ c, v = .closure c ∧ (scope.nest.map Scope.stage)[directions.length + 1]? = some c.stage := by
  induction directions generalizing scope env args with
  | nil =>
    obtain ⟨w, hw, h⟩ := bind_eq_ok.1 h
    obtain rfl := Except.ok.inj h
    cases scope with
    | innermost layer result => cases hmissing
    | enclosing layer inner =>
      obtain ⟨env', -, hclosure⟩ := bind_eq_ok.1 hw
      obtain rfl := Except.ok.inj hclosure
      refine ⟨_, rfl, ?_⟩
      cases inner <;> rfl
  | cons direction directions ih =>
    obtain ⟨w, hw, h⟩ := bind_eq_ok.1 h
    cases scope with
    | innermost layer result => cases hmissing
    | enclosing layer inner =>
      obtain ⟨env', -, hclosure⟩ := bind_eq_ok.1 hw
      obtain rfl := Except.ok.inj hclosure
      exact ih (Nat.lt_of_succ_lt_succ hmissing) h

theorem Code.length_args_of_runAlong {number : Nat} {code : Code} {v : Value α}
    (h : code.runAlong interpret number args directions = .ok v) :
    args.length = code.root.layer.params.length := by
  obtain ⟨w, hw, -⟩ := bind_eq_ok.1 h
  obtain ⟨env', henv, -⟩ := bind_eq_ok.1 hw
  unfold Layer.run at henv
  split at henv
  · assumption
  · cases henv

end Runs

namespace Program

variable {p : Program}

/-- The code of a program takes the base arguments first. -/
theorem Scoped.length_params (hp : p.Regular) {scope : Scope} (h : p.Scoped 0 [] scope) :
    scope.layer.params.length = p.baseArity := by
  have hbase : p.LayerOf 0 [] scope.layer → scope.layer.params.length = p.baseArity := by
    intro hlayer
    rw [← List.length_map (f := Param.node), hlayer.base rfl, List.length_take]
    exact Nat.min_eq_left hp.baseArity_le
  generalize hstage : 0 = stage at h
  cases h with
  | innermost hlayer _ =>
    rw [← hstage] at hlayer
    exact hbase hlayer
  | enclosing hlayer _ =>
    subst hstage
    exact hbase hlayer

variable [Scalar α] [Scalar β]

/-- Two runs of the code of a program on inputs of the same shapes fail with one and the same error
or come to values of one shape, whatever the numbers are. That holds for any number of inputs and
after each direction: while directions are missing both runs have come to closures of one stage, the
next one, and after the last direction to scalars or vectors. -/
theorem toCode_outline_of_shape (h : p.WellFormed) (number number' : Nat)
    {args directions : List (Quantity α)} {args' directions' : List (Quantity β)}
    (hargs : args.map Quantity.shape = args'.map Quantity.shape)
    (hdirections : directions.map Quantity.shape = directions'.map Quantity.shape) :
    ∃ code, p.toCode = .ok code ∧ ∀ n ≤ directions.length,
      (code.runAlong Value.apply number (args.map Quantity.toValue)
          ((directions.take n).map Quantity.toValue)).map Value.outline =
        (code.runAlong Value.apply number' (args'.map Quantity.toValue)
          ((directions'.take n).map Quantity.toValue)).map Value.outline ∧
      ∀ v, code.runAlong Value.apply number (args.map Quantity.toValue)
          ((directions.take n).map Quantity.toValue) = .ok v →
        (n < p.order → v.outline = .closure (n + 1)) ∧
        (n = p.order → ∃ q : Quantity α, v = q.toValue) := by
  obtain ⟨code, hcode, hscoped⟩ := exists_scoped_code h
  have halike : ∀ {xs : List (Quantity α)} {ys : List (Quantity β)},
      xs.map Quantity.shape = ys.map Quantity.shape →
      List.Forall₂ Value.Alike (xs.map Quantity.toValue) (ys.map Quantity.toValue) := by
    intro xs ys hshape
    rw [List.forall₂_map_left_iff, List.forall₂_map_right_iff]
    rw [← List.forall₂_eq_eq_eq, List.forall₂_map_left_iff, List.forall₂_map_right_iff] at hshape
    exact hshape.imp fun _ _ => Value.Alike.of_shape_eq
  have hstages : code.root.nest.map Scope.stage = List.range' 0 (p.order + 1) := hscoped.stages.1
  have hdepth : code.root.depth = p.order := by
    have hlength := congrArg List.length hstages
    rw [List.length_map, Scope.length_nest, List.length_range'] at hlength
    omega
  refine ⟨code, hcode, fun n hn => ⟨?_, fun v hv => ⟨fun hlt => ?_, ?_⟩⟩⟩
  · have htake :
        (directions.take n).map Quantity.shape = (directions'.take n).map Quantity.shape := by
      rw [List.map_take, List.map_take, hdirections]
    exact (Code.runAlong_alike (fun op _ _ => Value.apply_alike op) number number' code
      (halike hargs) (halike htake)).map_eq fun _ _ hvalues => hvalues.outline_eq
  · have hlength : ((directions.take n).map Quantity.toValue).length = n := by
      rw [List.length_map, List.length_take, Nat.min_eq_left hn]
    obtain ⟨c, rfl, hstage⟩ := Scope.call_stage (by rwa [hlength, hdepth]) hv
    rw [hstages, hlength, List.getElem?_range' (by omega)] at hstage
    rw [Value.outline, ← Option.some.inj hstage]
    simp
  · rintro rfl
    have hcount := Code.length_args_of_runAlong hv
    rw [hscoped.length_params h.regular, List.length_map] at hcount
    have hall : (directions.take p.order).length = p.order := by
      rw [List.length_take, Nat.min_eq_left hn]
    obtain ⟨q, -, hq⟩ := (runAlong_toValue_iff h hcode number hcount hall).1 hv
    exact ⟨q, hq⟩

/-- Multiplying a vector by a direction that is a longer vector fails in the same way for all
numbers, and only once the direction is there. -/
theorem toCode_outline_of_shape_product :
    ∃ code, Program.toCode
        ⟨.ofNodes #[.argument 0, .argument 1, .call .mul [0, 1]], [0, 1], 2, 1⟩ = .ok code ∧
      (code.runAlong Value.apply 0 [.vector [(5 : Float)]] []).map Value.outline =
        .ok (.closure 1) ∧
      (code.runAlong Value.apply 0 [.vector [(5 : Float)]] [.vector [6, 7]]).map Value.outline =
        .error (.unequalLengths .mul 1 2) := by
  -- What happens with other numbers is what happens on the shapes.
  have hargs : [Quantity.vector [(5 : Float)]].map Quantity.shape =
      [Quantity.vector [()]].map Quantity.shape := rfl
  have hdirections : [Quantity.vector [(6 : Float), 7]].map Quantity.shape =
      [Quantity.vector [(), ()]].map Quantity.shape := rfl
  obtain ⟨code, hcode, hrun⟩ := toCode_outline_of_shape
    (p := ⟨.ofNodes #[.argument 0, .argument 1, .call .mul [0, 1]], [0, 1], 2, 1⟩) (by decide) 0 1
    hargs hdirections
  have hvalue : Program.toCode
      ⟨.ofNodes #[.argument 0, .argument 1, .call .mul [0, 1]], [0, 1], 2, 1⟩ =
        .ok ⟨.enclosing ⟨0, [⟨⟨1⟩, 0⟩], []⟩ (.innermost
          ⟨1, [⟨⟨2⟩, 1⟩], [⟨⟨3⟩, 2, .mul, [⟨1⟩, ⟨2⟩]⟩]⟩ ⟨3⟩), 3⟩ := by decide +kernel
  obtain rfl := Except.ok.inj (hcode.symm.trans hvalue)
  exact ⟨_, hvalue, (hrun 0 (by decide)).1.trans rfl, (hrun 1 (by decide)).1.trans rfl⟩

end Program

end StagedTangent
