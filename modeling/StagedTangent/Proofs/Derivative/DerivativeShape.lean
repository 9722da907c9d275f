import StagedTangent.Proofs.Derivative.TangentShape
import StagedTangent.Proofs.Staging.OnQuantities

/-!
# The shape of a derivative

Where a program can be evaluated, its derivative can be evaluated to something of the same shape if
no scalar tangent stands for a vector where this matters, and otherwise not
(`runAlong_derivative_shape_iff`). It never does if no addition combines a scalar with a vector
(`keepsShape_of_unmixed`); with such an addition before an index, running the code of the derivative
fails (`runAlong_derivative_element_of_mixed_sum`).
-/

namespace StagedTangent

open Quantity

/-! ## Without mixed additions -/

theorem eq_point_of_apart {a b : Shape} (h : apart a b = false) : a = point ↔ b = point := by
  cases a with
  | scalar u =>
    cases b with
    | scalar w => simp [point]
    | vector ws => cases h
  | vector us =>
    cases b with
    | scalar w => cases h
    | vector ws => simp [point]

/-- If an operand is a scalar, its tangent is not combined with a vector and no scalar is added to a
vector, then the result is a scalar. -/
theorem eq_point_of_not_widens {op : Op} {position : Nat} {vs : List Shape} {s v : Shape}
    (hcount : vs.length = op.arity) (hs : apply op vs = .ok s) (hv : vs[position]? = some v)
    (hpoint : v = point) (hnarrow : ¬ widens op position vs) (hmixes : mixes op vs = false) :
    s = point := by
  match op, vs, position, hcount, hs, hv with
  | .constant c, [], _, _, _, hv => cases hv
  | .add, [a, b], 0, _, hs, rfl | .sub, [a, b], 0, _, hs, rfl =>
    exact eq_point_of_zip hs hpoint ((eq_point_of_apart hmixes).1 hpoint)
  | .add, [a, b], 1, _, hs, rfl | .sub, [a, b], 1, _, hs, rfl =>
    exact eq_point_of_zip hs ((eq_point_of_apart hmixes).2 hpoint) hpoint
  | .mul, [a, b], 0, _, hs, rfl | .div, [a, b], 0, _, hs, rfl =>
    exact eq_point_of_zip hs hpoint (not_not.1 hnarrow)
  | .mul, [a, b], 1, _, hs, rfl => exact eq_point_of_zip hs (not_not.1 hnarrow) hpoint
  | .div, [a, b], 1, _, hs, rfl =>
    exact eq_point_of_zip hs (not_not.1 (not_or.1 hnarrow).1) hpoint
  | .dot, [a, b], _, _, hs, _ => exact (dot_shape_eq_ok_iff.1 hs).2
  | .neg, [a], 0, _, rfl, rfl | .sin, [a], 0, _, rfl, rfl | .cos, [a], 0, _, rfl, rfl
  | .exp, [a], 0, _, rfl, rfl | .log, [a], 0, _, rfl, rfl | .sqrt, [a], 0, _, rfl, rfl
  | .abs, [a], 0, _, rfl, rfl | .sign, [a], 0, _, rfl, rfl | .zeroLike, [a], 0, _, rfl, rfl =>
    exact (map_unit _ a).trans hpoint
  | .circshift shift, [a], 0, _, rfl, rfl => exact (circshift_shape shift a).trans hpoint
  | .sum, [a], _, _, rfl, _ => exact sum_shape a
  | .index place, [a], _, _, hs, _ => exact eq_point_of_element hs

namespace Program

variable {p d : Program} {x position : Nat}

theorem keepsShape_of_unmixed (hp : p.Regular) (hx : p.arguments[position]? = some x)
    {shapes : List Shape} (heval : p.Evaluates Quantity.apply shapes) (hunmixed : p.Unmixed shapes) :
    p.KeepsShape x shapes := by
  have hargument := hp.argument_at hx
  have hscalar : ∀ node, p.ScalarTangent x shapes node →
      p.value? Quantity.apply shapes node = some point := by
    intro node h
    induction h with
    | scalar hvalue => exact hvalue
    | @call node op operands vs hcarries hnode hvs hnarrow _ ih =>
      obtain ⟨hneeded, o, ho, ho'⟩ := (carries_call hp hargument hnode).1 hcarries
      obtain ⟨s, hs⟩ := heval node hneeded
      obtain ⟨vs', hvs', hop⟩ := (value?_call_eq_some hp hnode).1 hs
      rw [hvs] at hvs'
      cases hvs'
      obtain ⟨place, hplace⟩ := List.mem_iff_getElem?.1 ho
      obtain ⟨v, hv, hvalue⟩ := exists_getElem?_of_mapM hvs hplace
      rw [ih o ho ho'] at hvalue
      have hcount := (length_of_mapM_eq_some hvs).trans (hp.operand_count hnode)
      rw [hs, eq_point_of_not_widens hcount hop hv (Option.some.inj hvalue).symm
        (hnarrow place o hplace ho') (hunmixed node op operands vs hneeded hnode hvs)]
  exact ⟨hscalar p.result, fun _ _ _ _ _ h => hscalar _ h⟩

/-! ## Running the code of a derivative -/

variable {α : Type} [Scalar α] {inputs : List (Quantity α)}

theorem value?_shape (p : Program) (inputs : List (Quantity α)) (node : Nat) :
    p.value? Quantity.apply (inputs.map shape) node =
      (p.value? Quantity.apply inputs node).map shape :=
  valueIn_map commutes_shape p.nodes node

theorem evaluates_shape (heval : p.Evaluates Quantity.apply inputs) :
    p.Evaluates Quantity.apply (inputs.map shape) := by
  intro node hneeded
  obtain ⟨v, hv⟩ := heval node hneeded
  exact ⟨v.shape, by rw [value?_shape, hv, Option.map_some]⟩

/-- Whether an addition combines a scalar with a vector is a matter of shapes. -/
theorem unmixed_shape (hunmixed : p.Unmixed inputs) : p.Unmixed (inputs.map shape) := by
  intro node op operands vs hneeded hnode hvs
  have hmap : operands.mapM (p.value? Quantity.apply (inputs.map shape)) =
      (operands.mapM (p.value? Quantity.apply inputs)).map (List.map shape) := by
    rw [mapM_map_some]
    exact mapM_congr_left fun o _ => value?_shape p inputs o
  rw [hmap] at hvs
  obtain ⟨us, hus, rfl⟩ := Option.map_eq_some_iff.1 hvs
  exact (mixes_map op _ us).trans (hunmixed node op operands us hneeded hnode hus)

/-- Wherever the code of a program can be run on scalars and vectors, the code of its derivative can
be run along a direction of the right shape and yields something of the shape of the result exactly
if no scalar tangent stands for a vector where this matters. That is so if no addition that the
result needs combines a scalar with a vector. -/
theorem runAlong_derivative_shape_iff (h : p.WellFormed) (hd : p.derivative position = .ok d)
    (number : Nat) {args directions : List (Quantity α)} (hargs : args.length = p.baseArity)
    (hdirections : directions.length = p.order)
    (heval : p.Evaluates Quantity.apply (args ++ directions)) {a v : Quantity α}
    (ha : (args ++ directions)[position]? = some a) (hv : v.shape = a.shape) :
    ∃ (x : Nat) (code code' : Code) (u : Quantity α), p.arguments[position]? = some x ∧
      p.toCode = .ok code ∧ d.toCode = .ok code' ∧
      code.runAlong Value.apply number (args.map toValue) (directions.map toValue) =
        .ok u.toValue ∧
      ((∃ r : Quantity α, code'.runAlong Value.apply number (args.map toValue)
          ((directions ++ [v]).map toValue) = .ok r.toValue ∧ r.shape = u.shape) ↔
        p.KeepsShape x ((args ++ directions).map shape)) ∧
      (p.Unmixed (args ++ directions) → p.KeepsShape x ((args ++ directions).map shape)) := by
  have hp := h.regular
  obtain ⟨x, tangent, hx, hdifferential⟩ := exists_differential h hd
  obtain ⟨u, hu⟩ := heval p.result (needed_result hp)
  have hlength : ((args ++ directions).map shape).length = p.arguments.length := by
    rw [List.length_map, hp.length_append hargs hdirections]
  have hwell : d.WellFormed := wellFormed_iff_regular.2 hdifferential.regular
  have hargs' : args.length = d.baseArity := by rw [hargs, hdifferential.baseArity]
  have hdirections' : (directions ++ [v]).length = d.order := by
    rw [List.length_append, hdirections, hdifferential.order hp, List.length_singleton]
  obtain ⟨code, hcode, hrun⟩ := exists_runAlong_of_value? h number hargs hdirections hu
  obtain ⟨scope, final, -, hcode'⟩ := exists_toCode hwell
  have hshapes : ((args ++ directions).map shape)[position]? = some v.shape := by
    rw [List.getElem?_map, ha, Option.map_some, hv]
  have hkeeps := hdifferential.value?_result_shape_iff hp hx hlength hshapes
    (evaluates_shape heval) (s := u.shape) (by rw [value?_shape, hu, Option.map_some])
  have hinputs : (args ++ directions).map shape ++ [v.shape] =
      (args ++ (directions ++ [v])).map shape := by
    rw [← List.append_assoc, List.map_append, List.map_append, List.map_append]
    rfl
  rw [hinputs, value?_shape, Option.map_eq_some_iff] at hkeeps
  refine ⟨x, code, _, u, hx, hcode, hcode', hrun, ?_, fun hunmixed =>
    keepsShape_of_unmixed hp hx (evaluates_shape heval) (unmixed_shape hunmixed)⟩
  rw [← hkeeps]
  constructor
  · rintro ⟨r, hr, hshape⟩
    obtain ⟨q, hq, heq⟩ :=
      (runAlong_toValue_iff hwell hcode' number hargs' hdirections').1 hr
    obtain rfl := toValue_injective heq
    exact ⟨r, hq, hshape⟩
  · rintro ⟨r, hr, hshape⟩
    exact ⟨r, (runAlong_toValue_iff hwell hcode' number hargs' hdirections').2 ⟨r, hr, rfl⟩,
      hshape⟩

/-- The product of a scalar and a vector has a derivative of its shape, as it adds nothing. -/
theorem runAlong_derivative_shape_iff_product :
    ∃ d code,
      Program.derivative
        ⟨.ofNodes #[.argument 0, .argument 1, .call .mul [0, 1]], [0, 1], 2, 2⟩ 0 = .ok d ∧
      d.toCode = .ok code ∧
      ∃ r : Quantity Float, code.runAlong Value.apply 0 [.scalar 3, .vector [1, 2]] [.scalar 1] =
        .ok r.toValue ∧ r.shape = .vector [(), ()] := by
  -- Nothing depends on which numbers these are.
  generalize (1 : Float) = one, (2 : Float) = two, (3 : Float) = three
  obtain ⟨d, hd⟩ : ∃ d, Program.derivative
      ⟨.ofNodes #[.argument 0, .argument 1, .call .mul [0, 1]], [0, 1], 2, 2⟩ 0 = .ok d :=
    ⟨_, rfl⟩
  obtain ⟨x, code, code', u, -, hcode, hcode', hrun, hiff, hunmixed⟩ :=
    runAlong_derivative_shape_iff (by decide) hd 0
      (show [Quantity.scalar three, .vector [one, two]].length = 2 from rfl)
      (show [].length = 0 from rfl)
      ((evaluates_iff (wellFormed_iff_regular.1 (by decide))).2 ⟨_, rfl⟩)
      (show _ = some (Quantity.scalar three) from rfl)
      (show (Quantity.scalar one).shape = _ from rfl)
  obtain ⟨q, hq, hu⟩ := (runAlong_toValue_iff (by decide) hcode 0 rfl rfl).1 hrun
  obtain rfl := toValue_injective hu
  cases hq
  obtain ⟨r, hr, hshape⟩ := hiff.2 (hunmixed fun node op operands vs _ hnode _ => by
    match node, hnode with
    | 2, rfl => rfl)
  exact ⟨d, code', hd, hcode', r, hr, hshape⟩

/-- An element of the sum of a scalar and a vector has a value, but its derivative with respect to
the scalar has none: the tangent of the sum is a scalar, of which there is no element. -/
theorem runAlong_derivative_element_of_mixed_sum :
    let p : Program := ⟨.ofNodes #[.argument 0, .argument 1, .call .add [0, 1],
      .call (.index 0) [2]], [0, 1], 3, 2⟩
    ∃ d code code' x, p.WellFormed ∧ p.derivative 0 = .ok d ∧
      p.toCode = .ok code ∧ d.toCode = .ok code' ∧
      code.runAlong Value.apply 0 [.scalar (1 : Float), .vector [1, 2]] [] = .ok (.scalar x) ∧
      code'.runAlong Value.apply 0 [.scalar (1 : Float), .vector [1, 2]] [.scalar 1] =
        .error (.wrongKind .index .vector .scalar) := by
  generalize (1 : Float) = one, (2 : Float) = two
  let d : Program := ⟨⟨[#[.argument 0, .argument 1, .call .add [0, 1], .call (.index 0) [2]],
    #[.argument 2, .call (.index 0) [4]]], 6, rfl⟩, [0, 1, 4], 5, 2⟩
  let code : Code := ⟨.innermost ⟨0, [⟨⟨1⟩, 0⟩, ⟨⟨2⟩, 1⟩], [⟨⟨3⟩, 2, .add, [⟨1⟩, ⟨2⟩]⟩,
    ⟨⟨4⟩, 3, .index 0, [⟨3⟩]⟩]⟩ ⟨4⟩, 4⟩
  let code' : Code := ⟨.enclosing ⟨0, [⟨⟨1⟩, 0⟩, ⟨⟨2⟩, 1⟩], []⟩
    (.innermost ⟨1, [⟨⟨3⟩, 4⟩], [⟨⟨4⟩, 5, .index 0, [⟨3⟩]⟩]⟩ ⟨4⟩), 4⟩
  exact ⟨d, code, code', Scalar.add one one, by decide, rfl, by decide +kernel, by decide +kernel, rfl, rfl⟩

end Program

end StagedTangent
