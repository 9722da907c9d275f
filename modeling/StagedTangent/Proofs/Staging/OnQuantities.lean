import StagedTangent.Proofs.Evaluation.Quantity
import StagedTangent.Proofs.Staging.Refinement

/-!
# Code on quantities

Code that is run on scalars and vectors yields a scalar or a vector, the one that plain evaluation
over quantities finds for the result.
-/

namespace StagedTangent.Program

open Quantity

variable {α : Type} [Scalar α] {p : Program} {inputs : List (Quantity α)}

theorem value?_toValue (p : Program) (inputs : List (Quantity α)) (node : Nat) :
    p.value? Value.apply (inputs.map toValue) node =
      (p.value? Quantity.apply inputs node).map toValue :=
  valueIn_map commutes_toValue p.nodes node

/-- A run on quantities yields exactly the quantity that plain evaluation finds. -/
theorem runAlong_toValue_iff (h : p.WellFormed) {code : Code} (hcode : p.toCode = .ok code)
    (number : Nat) {args directions : List (Quantity α)} (hargs : args.length = p.baseArity)
    (hdirections : directions.length = p.order) {v : Value α} :
    code.runAlong Value.apply number (args.map toValue) (directions.map toValue) = .ok v ↔
      ∃ q, p.value? Quantity.apply (args ++ directions) p.result = some q ∧ v = q.toValue := by
  rw [runAlong_eq_ok_iff h hcode number (by rwa [List.length_map]) (by rwa [List.length_map]),
    ← List.map_append, value?_toValue, Option.map_eq_some_iff]
  exact exists_congr fun q => and_congr_right fun _ => eq_comm

/-- A program whose result has a value on quantities has code that yields it. -/
theorem exists_runAlong_of_value? (h : p.WellFormed) (number : Nat)
    {args directions : List (Quantity α)} (hargs : args.length = p.baseArity)
    (hdirections : directions.length = p.order) {q : Quantity α}
    (hq : p.value? Quantity.apply (args ++ directions) p.result = some q) :
    ∃ code, p.toCode = .ok code ∧
      code.runAlong Value.apply number (args.map toValue) (directions.map toValue) =
        .ok q.toValue := by
  obtain ⟨scope, final, -, hcode⟩ := exists_toCode h
  exact ⟨_, hcode, (runAlong_toValue_iff h hcode number hargs hdirections).2 ⟨q, hq, rfl⟩⟩

end StagedTangent.Program
