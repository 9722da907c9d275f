import StagedTangent.Proofs.Derivative.Soundness
import StagedTangent.Proofs.Staging.OnQuantities

/-!
# The code of a derivative computes the directional derivative

Over a field, with any functions for the elementary operations, the code of a derivative yields along
a direction the coefficient of `ε` that the code of the program yields over dual numbers, when the
argument in question moves in that direction. The main statement is `runAlong_derivative`.
-/

namespace StagedTangent.Program

open Quantity
open scoped DualNumber

variable {K : Type} [Field K] [Elementary K] {p d : Program} {position : Nat}

/-- Running the code of a derivative along a direction yields the change of what the code of the
program yields over dual numbers, where the argument at the position changes by the direction and the
others do not. This holds wherever everything that the result needs has a value and no addition
that it needs combines a scalar with a vector; `abs` is then only applied to what does not change. -/
theorem runAlong_derivative (h : p.WellFormed) (hd : p.derivative position = .ok d) (number : Nat)
    {args directions : List (Quantity K)} (hargs : args.length = p.baseArity)
    (hdirections : directions.length = p.order)
    (heval : p.Evaluates Quantity.apply (args ++ directions))
    (hunmixed : p.Unmixed (args ++ directions)) {a v : Quantity K}
    (ha : (args ++ directions)[position]? = some a) (hv : v.shape = a.shape) :
    ∃ (code code' : Code) (u : Quantity K[ε]), p.toCode = .ok code ∧ d.toCode = .ok code' ∧
      code.runAlong Value.apply number
          (((seed (args ++ directions) position v).take p.baseArity).map toValue)
          (((seed (args ++ directions) position v).drop p.baseArity).map toValue) =
        .ok u.toValue ∧
      code'.runAlong Value.apply number (args.map toValue) ((directions ++ [v]).map toValue) =
        .ok u.change.toValue ∧
      ∀ node operand, p.Needed node → p.nodes[node]? = some (.call .abs [operand]) →
        ∃ b : Quantity K,
          p.value? Quantity.apply (seed (args ++ directions) position v) operand =
            some b.still := by
  have hp := h.regular
  obtain ⟨x, tangent, hx, hdifferential⟩ := exists_differential h hd
  have hbase := hp.baseArity_le
  have hlength := hp.length_append hargs hdirections
  have huniform : p.Evaluates uniform (args ++ directions) :=
    (evaluates_uniform_iff hp).2 ⟨heval, hunmixed⟩
  obtain ⟨u, hu, hchange⟩ := hdifferential.exists_change hp hx hlength ha hv huniform
  have hseed : (seed (args ++ directions) position v).length = p.arguments.length := by
    rw [length_seed, hlength]
  have htake : ((seed (args ++ directions) position v).take p.baseArity).length =
      p.baseArity := by
    rw [List.length_take, hseed]
    omega
  have hdrop : ((seed (args ++ directions) position v).drop p.baseArity).length = p.order := by
    rw [List.length_drop, hseed, Program.order]
  have hargs' : args.length = d.baseArity := by rw [hargs, hdifferential.baseArity]
  have hdirections' : (directions ++ [v]).length = d.order := by
    rw [List.length_append, hdirections, hdifferential.order hp, List.length_singleton]
  obtain ⟨code, hcode, hrun⟩ := exists_runAlong_of_value? h number htake hdrop
    (by rw [List.take_append_drop]; exact value?_uniform hp hu)
  obtain ⟨code', hcode', hrun'⟩ := exists_runAlong_of_value?
    (wellFormed_iff_regular.2 hdifferential.regular) number hargs' hdirections'
    (by rw [← List.append_assoc]; exact value?_uniform hdifferential.regular hchange)
  refine ⟨code, code', u, hcode, hcode', hrun, hrun', fun node operand hneeded hnode => ?_⟩
  have hneeded' := hneeded.operand hp hnode (List.mem_singleton_self operand)
  obtain ⟨b, hb⟩ := huniform operand hneeded'
  rw [← map_primal_seed ha hv] at hb
  obtain ⟨w, hw, -⟩ := exists_value?_of_primal hb
  refine ⟨w.primal, ?_⟩
  rw [← hdifferential.still_of_abs hp hx hseed (changesAt_seed ha hv) hneeded hnode hw]
  exact value?_uniform hp hw

/-- The derivative of the square over the rationals, at three. -/
theorem runAlong_derivative_square :
    ∃ d code,
      Program.derivative ⟨.ofNodes #[.argument 0, .call .mul [0, 0]], [0], 1, 1⟩ 0 = .ok d ∧
        d.toCode = .ok code ∧
        code.runAlong (@Value.apply ℚ (@fieldScalar ℚ _ default)) 0 [.scalar 3] [.scalar 1] =
          .ok (.scalar 6) := by
  let _ : Elementary ℚ := default
  obtain ⟨d, hd⟩ : ∃ d,
      Program.derivative ⟨.ofNodes #[.argument 0, .call .mul [0, 0]], [0], 1, 1⟩ 0 = .ok d :=
    ⟨_, rfl⟩
  obtain ⟨code, code', u, hcode, hcode', hrun, hrun', -⟩ :=
    runAlong_derivative (K := ℚ) (by decide) hd 0
      (show [Quantity.scalar (3 : ℚ)].length = 1 from rfl) (show [].length = 0 from rfl)
      ((evaluates_iff (wellFormed_iff_regular.1 (by decide))).2 ⟨_, rfl⟩)
      (fun node op operands vs _ hnode _ => by
        match node, hnode with
        | 1, rfl => rfl)
      (show _ = some (Quantity.scalar (3 : ℚ)) from rfl)
      (show (Quantity.scalar (1 : ℚ)).shape = _ from rfl)
  obtain ⟨square, hsquare, hu⟩ := (runAlong_toValue_iff (by decide) hcode 0 rfl rfl).1 hrun
  cases hsquare
  cases u with
  | vector xs => cases hu
  | scalar x =>
    cases hu
    refine ⟨d, code', hd, hcode', hrun'.trans ?_⟩
    norm_num [Quantity.change, Quantity.map, Quantity.toValue]

end StagedTangent.Program
