import StagedTangent.Proofs.Evaluation.Quantity

/-!
# Scalars that vary

Scalars that vary with a parameter are functions of it, with the operations taken at every point.
Evaluating over them and then at a point is the same as evaluating at the point
(`commutes_at`), so that one evaluation stands for a whole family of them. This holds for all
values: of a closure among the inputs only the kind has any influence on what a program computes.
-/

namespace StagedTangent

variable {α β σ : Type}

/-- The operations on scalars that vary, point by point. -/
instance varyingScalar [Scalar α] : Scalar (σ → α) where
  literal := fun c _ => Scalar.literal c
  zero := fun _ => Scalar.zero
  emptySum := fun _ => Scalar.emptySum
  add := fun f g s => Scalar.add (f s) (g s)
  sub := fun f g s => Scalar.sub (f s) (g s)
  mul := fun f g s => Scalar.mul (f s) (g s)
  div := fun f g s => Scalar.div (f s) (g s)
  neg := fun f s => Scalar.neg (f s)
  sin := fun f s => Scalar.sin (f s)
  cos := fun f s => Scalar.cos (f s)
  exp := fun f s => Scalar.exp (f s)
  log := fun f s => Scalar.log (f s)
  sqrt := fun f s => Scalar.sqrt (f s)
  abs := fun f s => Scalar.abs (f s)
  sign := fun f s => Scalar.sign (f s)

theorem scalarHom_at [Scalar α] (s : σ) : ScalarHom fun f : σ → α => f s :=
  ⟨fun _ => rfl, rfl, rfl, fun _ _ => rfl, fun _ _ => rfl, fun _ _ => rfl, fun _ _ => rfl,
    fun _ => rfl, fun _ => rfl, fun _ => rfl, fun _ => rfl, fun _ => rfl, fun _ => rfl,
    fun _ => rfl, fun _ => rfl⟩

theorem scalarHom_id [Scalar α] : ScalarHom fun x : α => x :=
  ⟨fun _ => rfl, rfl, rfl, fun _ _ => rfl, fun _ _ => rfl, fun _ _ => rfl, fun _ _ => rfl,
    fun _ => rfl, fun _ => rfl, fun _ => rfl, fun _ => rfl, fun _ => rfl, fun _ => rfl,
    fun _ => rfl, fun _ => rfl⟩

theorem Quantity.map_same (q : Quantity α) : (q.map fun x => x) = q := by
  cases q with
  | scalar x => rfl
  | vector xs => exact congrArg Quantity.vector (List.map_id' xs)

namespace Value

/-- A value with every number replaced. Of a closure nothing is kept but its scope, since no
operation looks into one. -/
def mapNumbers (h : α → β) : Value α → Value β
  | .scalar x => .scalar (h x)
  | .vector xs => .vector (xs.map h)
  | .closure c => .closure ⟨c.run, c.scope, []⟩

theorem mapNumbers_toValue (h : α → β) (q : Quantity α) :
    q.toValue.mapNumbers h = (q.map h).toValue := by
  cases q <;> rfl

/-- Only quantities become quantities. -/
theorem mapNumbers_eq_toValue {h : α → β} {v : Value α} {q : Quantity β}
    (hv : v.mapNumbers h = q.toValue) : ∃ r : Quantity α, v = r.toValue ∧ r.map h = q := by
  cases v with
  | scalar x => exact ⟨.scalar x, rfl, Quantity.toValue_injective hv⟩
  | vector xs => exact ⟨.vector xs, rfl, Quantity.toValue_injective hv⟩
  | closure c => cases q <;> cases hv

theorem mapNumbers_mapNumbers {γ : Type} (h : α → β) (g : β → γ) (v : Value α) :
    (v.mapNumbers h).mapNumbers g = v.mapNumbers fun x => g (h x) := by
  cases v with
  | scalar x => rfl
  | vector xs => exact congrArg Value.vector (List.map_map ..)
  | closure c => rfl

/-! ## Operations -/

theorem mapElements_mapNumbers {h : α → β} (op : Opcode) {f : α → α} {g : β → β}
    (hfg : ∀ x, h (f x) = g (h x)) (a : Value α) :
    mapElements op g (a.mapNumbers h) = (mapElements op f a).map (mapNumbers h) := by
  cases a with
  | scalar x => exact congrArg (fun y => Except.ok (Value.scalar y)) (hfg x).symm
  | vector xs => simp [mapElements, mapNumbers, Except.map, hfg]
  | closure c => rfl

theorem zipElements_mapNumbers {h : α → β} (op : Opcode) {f : α → α → α} {g : β → β → β}
    (hfg : ∀ x y, h (f x y) = g (h x) (h y)) (a b : Value α) :
    zipElements op g (a.mapNumbers h) (b.mapNumbers h) =
      (zipElements op f a b).map (mapNumbers h) := by
  cases a with
  | scalar x => cases b <;> simp [zipElements, mapNumbers, Except.map, hfg]
  | closure c => cases b <;> rfl
  | vector xs =>
    cases b with
    | scalar y => simp [zipElements, mapNumbers, Except.map, hfg]
    | closure c => rfl
    | vector ys =>
      simp only [zipElements, mapNumbers, List.length_map]
      split
      · simp [Except.map, mapNumbers, List.map_zipWith, List.zipWith_map, hfg]
      · rfl

theorem element_mapNumbers (h : α → β) (place : Nat) (a : Value α) :
    element place (a.mapNumbers h) = (element place a).map (mapNumbers h) := by
  cases a with
  | scalar x => rfl
  | closure c => rfl
  | vector xs =>
    simp only [element, mapNumbers, List.getElem?_map, List.length_map]
    cases xs[place]? <;> rfl

theorem circshift_mapNumbers (h : α → β) (shift : Int) (a : Value α) :
    circshift shift (a.mapNumbers h) = (circshift shift a).map (mapNumbers h) := by
  cases a with
  | scalar x => rfl
  | vector xs => simp [circshift, mapNumbers, Except.map, rotate]
  | closure c => rfl

variable [Scalar α] [Scalar β] {h : α → β}

theorem sumElements_mapNumbers (hh : ScalarHom h) (a : Value α) :
    sumElements (a.mapNumbers h) = (sumElements a).map (mapNumbers h) := by
  cases a with
  | scalar x => rfl
  | vector xs =>
    exact congrArg (fun x => Except.ok (Value.scalar x))
      (Quantity.total_map hh.emptySum hh.add xs)
  | closure c => rfl

theorem dotProduct_mapNumbers (hh : ScalarHom h) (a b : Value α) :
    dotProduct (a.mapNumbers h) (b.mapNumbers h) = (dotProduct a b).map (mapNumbers h) := by
  cases a with
  | scalar x => cases b <;> simp [dotProduct, mapNumbers, Except.map, hh.mul, kind]
  | closure c => cases b <;> rfl
  | vector xs =>
    cases b with
    | scalar y => rfl
    | closure c => rfl
    | vector ys =>
      simp only [dotProduct, mapNumbers, List.length_map]
      split
      · simp only [Except.map, mapNumbers, ← Quantity.total_map hh.emptySum hh.add,
          List.map_zipWith, List.zipWith_map, hh.mul]
      · rfl

/-- A map of scalars that respects the operations on them carries evaluations over. -/
theorem commutes_mapNumbers (hh : ScalarHom h) :
    Commutes (mapNumbers h) Value.apply Value.apply := by
  intro op vs
  by_cases hcount : vs.length = op.arity
  · match op, vs, hcount with
    | .constant c, [], _ => exact congrArg (fun x => Except.ok (Value.scalar x)) (hh.literal c).symm
    | .add, [a, b], _ => exact zipElements_mapNumbers .add hh.add a b
    | .sub, [a, b], _ => exact zipElements_mapNumbers .sub hh.sub a b
    | .mul, [a, b], _ => exact zipElements_mapNumbers .mul hh.mul a b
    | .div, [a, b], _ => exact zipElements_mapNumbers .div hh.div a b
    | .neg, [a], _ => exact mapElements_mapNumbers .neg hh.neg a
    | .sin, [a], _ => exact mapElements_mapNumbers .sin hh.sin a
    | .cos, [a], _ => exact mapElements_mapNumbers .cos hh.cos a
    | .exp, [a], _ => exact mapElements_mapNumbers .exp hh.exp a
    | .log, [a], _ => exact mapElements_mapNumbers .log hh.log a
    | .sqrt, [a], _ => exact mapElements_mapNumbers .sqrt hh.sqrt a
    | .abs, [a], _ => exact mapElements_mapNumbers .abs hh.abs a
    | .sign, [a], _ => exact mapElements_mapNumbers .sign hh.sign a
    | .zeroLike, [a], _ => exact mapElements_mapNumbers .zeroLike (fun _ => hh.zero) a
    | .dot, [a, b], _ => exact dotProduct_mapNumbers hh a b
    | .sum, [a], _ => exact sumElements_mapNumbers hh a
    | .index place, [a], _ => exact element_mapNumbers h place a
    | .circshift shift, [a], _ => exact circshift_mapNumbers h shift a
  · rw [Quantity.value_apply_of_length_ne hcount,
      Quantity.value_apply_of_length_ne (by rwa [List.length_map]), List.length_map]
    rfl

end Value

namespace Program

variable [Scalar α]

/-- Evaluating over scalars that vary is evaluating at every point. -/
theorem value?_at (p : Program) (inputs : List (Value (σ → α))) (s : σ) (node : Nat) :
    p.value? Value.apply (inputs.map (Value.mapNumbers fun f => f s)) node =
      (p.value? Value.apply inputs node).map (Value.mapNumbers fun f => f s) :=
  valueIn_map (Value.commutes_mapNumbers (scalarHom_at s)) p.nodes node

/-- What closures have bound has no influence. -/
theorem value?_forget (p : Program) (inputs : List (Value α)) (node : Nat) :
    p.value? Value.apply (inputs.map (Value.mapNumbers fun x => x)) node =
      (p.value? Value.apply inputs node).map (Value.mapNumbers fun x => x) :=
  valueIn_map (Value.commutes_mapNumbers scalarHom_id) p.nodes node

/-- What has a value at a point has one over scalars that vary. -/
theorem exists_value?_of_at {p : Program} {inputs : List (Value α)}
    {varying : List (Value (σ → α))} {s : σ} {node : Nat} {v : Value α}
    (h : varying.map (Value.mapNumbers fun f => f s) = inputs.map (Value.mapNumbers fun x => x))
    (hv : p.value? Value.apply inputs node = some v) :
    ∃ w, p.value? Value.apply varying node = some w := by
  have hsame := value?_forget p inputs node
  rw [← h, value?_at, hv, Option.map_some, Option.map_eq_some_iff] at hsame
  obtain ⟨w, hw, -⟩ := hsame
  exact ⟨w, hw⟩

/-- An evaluation at a point comes to a quantity exactly if the evaluation over scalars that vary
does. -/
theorem value?_toValue_at_iff {p : Program} {inputs : List (Value α)}
    {varying : List (Value (σ → α))} {s : σ} {node : Nat} {q : Quantity α}
    (h : varying.map (Value.mapNumbers fun f => f s) = inputs.map (Value.mapNumbers fun x => x)) :
    p.value? Value.apply inputs node = some q.toValue ↔
      ∃ r : Quantity (σ → α), p.value? Value.apply varying node = some r.toValue ∧
        (r.map fun f => f s) = q := by
  have hsame := value?_forget p inputs node
  rw [← h, value?_at] at hsame
  constructor
  · intro hq
    rw [hq, Option.map_some, Value.mapNumbers_toValue, Option.map_eq_some_iff] at hsame
    obtain ⟨v, hv, hmap⟩ := hsame
    obtain ⟨r, rfl, hr⟩ := Value.mapNumbers_eq_toValue hmap
    exact ⟨r, hv, hr.trans q.map_same⟩
  · rintro ⟨r, hr, rfl⟩
    rw [hr, Option.map_some, Value.mapNumbers_toValue, eq_comm, Option.map_eq_some_iff] at hsame
    obtain ⟨v, hv, hmap⟩ := hsame
    obtain ⟨q, rfl, hq⟩ := Value.mapNumbers_eq_toValue hmap
    rw [hv, ← hq, q.map_same]

end Program

end StagedTangent
