import StagedTangent.Proofs.Derivative.DegreeMeaning
import StagedTangent.Proofs.Staging.Refinement

/-!
# Repeated derivatives are multilinear

Fix everything but one direction. As a repeated derivative is linear in each direction by degree,
one evaluation over scalars that vary with the coefficients of a combination shows how the
derivative depends on that direction: running its code along a combination of two directions yields
the combination of the two runs (`runAlong_multilinear`).
-/

namespace StagedTangent

open Degree Quantity

variable {R : Type} [CommRing R]

namespace Quantity

/-- The combination of two quantities with coefficients, elementwise. -/
def combination (s t : R) (u w : Quantity R) : Quantity R := zipWith (fun x y => s * x + t * y) u w

/-- All combinations of two quantities. -/
def combinations (u w : Quantity R) : Quantity (R × R → R) :=
  zipWith (fun x y c => c.1 * x + c.2 * y) u w

theorem combinations_at (u w : Quantity R) (c : R × R) :
    ((combinations u w).map fun f => f c) = combination c.1 c.2 u w := map_zipWith ..

theorem combination_first {u w : Quantity R} (h : u.shape = w.shape) : combination 1 0 u w = u := by
  rw [combination, zipWith_congr (g := fun x _ => x) (fun x y => by ring),
    zipWith_left_of_shape_eq (fun x => x) h, map_same]

theorem combination_second {u w : Quantity R} (h : u.shape = w.shape) :
    combination 0 1 u w = w := by
  rw [combination, zipWith_congr (g := fun _ y => y) (fun x y => by ring),
    zipWith_right_of_shape_eq (fun y => y) h, map_same]

end Quantity

namespace Degree

variable {g : Degree} {v : Value (R × R → R)}

/-- A value that is linear or zero is a quantity, and the combination of its values at the two
directions. -/
theorem Holds.exists_quantity (h : g.Holds v) (hg : g.Within linear) :
    ∃ q : Quantity (R × R → R), v = q.toValue ∧ ∀ c : R × R, q.map (fun f => f c) =
      combination c.1 c.2 (q.map fun f => f (1, 0)) (q.map fun f => f (0, 1)) := by
  cases v with
  | scalar f =>
    refine ⟨.scalar f, rfl, fun c => ?_⟩
    exact congrArg Quantity.scalar (h.within hg c)
  | vector fs =>
    refine ⟨.vector fs, rfl, fun c => ?_⟩
    rw [combination, Quantity.zipWith_self]
    exact congrArg Quantity.vector (List.map_congr_left fun f hf => (h f hf).within hg c)
  | closure c =>
    obtain rfl : g = constant := h
    exact absurd hg (by decide)

theorem of_combination (x y : R) : linear.Of fun c : R × R => c.1 * x + c.2 * y := by
  intro c
  change c.1 * x + c.2 * y = c.1 * (1 * x + 0 * y) + c.2 * (0 * x + 1 * y)
  ring

theorem holds_combinations (u w : Quantity R) : linear.Holds (combinations u w).toValue := by
  cases u with
  | scalar x =>
    cases w with
    | scalar y => exact of_combination x y
    | vector ys =>
      intro f hf
      obtain ⟨y, -, rfl⟩ := List.mem_map.1 hf
      exact of_combination x y
  | vector xs =>
    cases w with
    | scalar y =>
      intro f hf
      obtain ⟨x, -, rfl⟩ := List.mem_map.1 hf
      exact of_combination x y
    | vector ys =>
      intro f hf
      obtain ⟨i, hi, rfl⟩ := List.mem_iff_getElem.1 hf
      rw [List.getElem_zipWith]
      exact of_combination _ _

theorem holds_same (v : Value R) : constant.Holds (v.mapNumbers fun x (_ : R × R) => x) := by
  cases v with
  | scalar x => exact fun _ => rfl
  | vector xs =>
    intro f hf
    obtain ⟨x, -, rfl⟩ := List.mem_map.1 hf
    exact fun _ => rfl
  | closure c => rfl

end Degree

namespace Program

variable {p d : Program}

/-- Inputs of which the one at a place runs through the combinations of two quantities. -/
def runningThrough (inputs : List (Value R)) (place : Nat) (u w : Quantity R) :
    List (Value (R × R → R)) :=
  (inputs.map (Value.mapNumbers fun x _ => x)).set place (combinations u w).toValue

theorem runningThrough_at (inputs : List (Value R)) (place : Nat) (u w : Quantity R) (c : R × R) :
    (runningThrough inputs place u w).map (Value.mapNumbers fun f => f c) =
      (inputs.set place (combination c.1 c.2 u w).toValue).map (Value.mapNumbers fun x => x) := by
  rw [runningThrough, List.map_set, List.map_set, List.map_map, Value.mapNumbers_toValue,
    Value.mapNumbers_toValue, combinations_at, map_same]
  exact congrArg (fun values => List.set values place _)
    (List.map_congr_left fun v _ => Value.mapNumbers_mapNumbers _ _ v)

/-- Such inputs vary as their degrees say. -/
theorem holds_runningThrough {inputs : List (Value R)} {baseArity count i : Nat}
    (hlength : inputs.length = baseArity + count) (u w : Quantity R) :
    List.Forall₂ Holds (degreesIn baseArity count i)
      (runningThrough inputs (baseArity + i) u w) := by
  refine List.forall₂_iff_get.2 ⟨?_, fun j hj hj' => ?_⟩
  · rw [length_degreesIn, runningThrough, List.length_set, List.length_map, hlength]
  · simp only [List.get_eq_getElem, degreesIn, runningThrough, List.getElem_set]
    split
    · exact holds_combinations u w
    · rw [List.getElem_replicate, List.getElem_map]
      exact holds_same _

variable [Scalar R] [LawfulScalar R]

/-- If a program is linear or zero by degree in one of its directions and has a value at one
direction, then it has one at every direction of the same shape, and the value at a combination is
the combination of the values. -/
theorem exists_value?_combination (hp : p.Regular) {inputs : List (Value R)}
    {baseArity count i : Nat} (hlength : inputs.length = baseArity + count) {g : Degree}
    (hg : p.value? Degree.apply (degreesIn baseArity count i) p.result = some g)
    (hwithin : g.Within linear)
    {u w : Quantity R} (hshape : u.shape = w.shape) {v : Value R}
    (hv : p.value? Value.apply (inputs.set (baseArity + i) u.toValue) p.result = some v) :
    ∃ x y : Quantity R, x.shape = y.shape ∧ v = x.toValue ∧
      p.value? Value.apply (inputs.set (baseArity + i) w.toValue) p.result = some y.toValue ∧
      ∀ s t : R, p.value? Value.apply
        (inputs.set (baseArity + i) (combination s t u w).toValue) p.result =
          some (combination s t x y).toValue := by
  have hfirst := runningThrough_at inputs (baseArity + i) u w (1, 0)
  rw [combination_first hshape] at hfirst
  obtain ⟨varying, hvarying⟩ := exists_value?_of_at hfirst hv
  have hops : ∀ op degrees (vs : List (Value (R × R → R))) g v, List.Forall₂ Holds degrees vs →
      Degree.apply op degrees = .ok g → Value.apply op vs = .ok v → g.Holds v :=
    fun _ _ _ _ _ => holds_apply
  have hholds : g.Holds varying :=
    value?_related hp hops (holds_runningThrough hlength u w) hg hvarying
  obtain ⟨q, rfl, hq⟩ := hholds.exists_quantity hwithin
  have hat : ∀ c : R × R, p.value? Value.apply
      (inputs.set (baseArity + i) (combination c.1 c.2 u w).toValue) p.result =
        some (q.map fun f => f c).toValue :=
    fun c => (value?_toValue_at_iff (runningThrough_at inputs (baseArity + i) u w c)).2
      ⟨q, hvarying, rfl⟩
  have hone := hat (1, 0)
  have htwo := hat (0, 1)
  rw [combination_first hshape, hv] at hone
  rw [combination_second hshape] at htwo
  refine ⟨q.map fun f => f (1, 0), q.map fun f => f (0, 1), ?_, Option.some.inj hone, htwo,
    fun s t => ?_⟩
  · rw [shape_map, shape_map]
  · rw [hat (s, t), hq (s, t)]

variable {K : Type} [Field K] [Elementary K]

/-- Differentiating a program as often as one likes, each time with respect to a base argument,
gives code that is linear in each of its directions. If a run succeeds with one direction then it
succeeds, with everything else the same, with every direction of the same shape, and along a
combination of two directions it yields the combination of what it yields along the two. -/
theorem runAlong_multilinear (h : p.WellFormed) (horder : p.order = 0) {positions : List Nat}
    (hpositions : ∀ position ∈ positions, position < p.baseArity)
    (hd : positions.foldlM derivative p = .ok d) :
    ∃ code, d.toCode = .ok code ∧
      ∀ (number : Nat) (args directions : List (Value K)) (i : Nat) (u w : Quantity K)
        (v : Value K), args.length = p.baseArity → directions.length = positions.length →
        i < directions.length → u.shape = w.shape →
        code.runAlong Value.apply number args (directions.set i u.toValue) = .ok v →
        ∃ x y : Quantity K, x.shape = y.shape ∧ v = x.toValue ∧
          code.runAlong Value.apply number args (directions.set i w.toValue) = .ok y.toValue ∧
          ∀ s t : K, code.runAlong Value.apply number args
            (directions.set i (combination s t u w).toValue) =
              .ok (combination s t x y).toValue := by
  obtain ⟨hregular, hbase, harguments, hdegree⟩ :=
    exists_degree_of_derivatives h horder hpositions hd
  have hwell : d.WellFormed := wellFormed_iff_regular.2 hregular
  obtain ⟨scope, final, -, hcode⟩ := exists_toCode hwell
  refine ⟨_, hcode, fun number args directions i u w v hargs hdirections hi hshape hv => ?_⟩
  have hset : ∀ q : Quantity K, args ++ directions.set i q.toValue =
      (args ++ directions).set (p.baseArity + i) q.toValue := by
    intro q
    rw [List.set_append_right _ _ (by omega), hargs, Nat.add_sub_cancel_left]
  have hrun : ∀ (q : Quantity K) (v : Value K),
      Code.runAlong Value.apply number ⟨scope, final.size⟩ args (directions.set i q.toValue) =
        .ok v ↔ d.value? Value.apply ((args ++ directions).set (p.baseArity + i) q.toValue)
          d.result = some v := by
    intro q v
    rw [← hset]
    refine runAlong_eq_ok_iff hwell hcode number (hargs.trans hbase.symm) ?_
    rw [List.length_set, hdirections, order, harguments, hbase]
    omega
  obtain ⟨g, hg, hwithin, -⟩ := hdegree i
  obtain ⟨x, y, hxy, hx, hy, hcombination⟩ := exists_value?_combination hregular
    (by rw [List.length_append, hargs, hdirections]) hg (hwithin (by omega)) hshape
    ((hrun u v).1 hv)
  exact ⟨x, y, hxy, hx, (hrun w y.toValue).2 hy, fun s t => (hrun _ _).2 (hcombination s t)⟩

/-- The mixed second derivative of a product over the rationals, at three and seven: along five and
then two times one plus three times four. -/
theorem runAlong_multilinear_product :
    ∃ code, Program.toCode ⟨⟨[#[.argument 0, .argument 1, .call .mul [0, 1]],
        #[.argument 2, .call .mul [3, 1]], #[.argument 3, .call .mul [3, 5]]], 7, rfl⟩,
        [0, 1, 3, 5], 6, 2⟩ = .ok code ∧
      code.runAlong (@Value.apply ℚ (@fieldScalar ℚ _ default)) 0 [.scalar 3, .scalar 7]
        [.scalar 5, .scalar 14] = .ok (.scalar 70) := by
  let _ : Elementary ℚ := default
  have hd : [0, 1].foldlM derivative
      ⟨.ofNodes #[.argument 0, .argument 1, .call .mul [0, 1]], [0, 1], 2, 2⟩ =
        .ok ⟨⟨[#[.argument 0, .argument 1, .call .mul [0, 1]],
          #[.argument 2, .call .mul [3, 1]], #[.argument 3, .call .mul [3, 5]]], 7, rfl⟩,
          [0, 1, 3, 5], 6, 2⟩ := rfl
  obtain ⟨code, hcode, hmultilinear⟩ := runAlong_multilinear (K := ℚ) (by decide) rfl (by decide) hd
  obtain ⟨x, y, -, hx, hy, hrun⟩ := hmultilinear 0 [.scalar 3, .scalar 7] [.scalar 5, .scalar 0] 1
    (.scalar 1) (.scalar 4) (.scalar (5 * 1)) rfl rfl (by decide) rfl
    ((runAlong_eq_ok_iff (by decide) hcode 0 rfl rfl).2 rfl)
  have hy' : some (Value.scalar (5 * 4 : ℚ)) = some y.toValue :=
    (runAlong_eq_ok_iff (by decide) hcode 0 rfl rfl).1 hy
  obtain rfl : Quantity.scalar (5 * 1) = x := toValue_injective hx
  obtain rfl : Quantity.scalar (5 * 4) = y := toValue_injective (Option.some.inj hy')
  have hdirection : combination 2 3 (.scalar 1) (.scalar 4) = Quantity.scalar (14 : ℚ) :=
    congrArg Quantity.scalar (by norm_num)
  have hresult : combination 2 3 (.scalar (5 * 1)) (.scalar (5 * 4)) = Quantity.scalar (70 : ℚ) :=
    congrArg Quantity.scalar (by norm_num)
  have hcombination := hrun 2 3
  rw [hdirection, hresult] at hcombination
  exact ⟨code, hcode, hcombination⟩

end Program

end StagedTangent
