import StagedTangent.Proofs.Evaluation.Plain

/-!
# Quantities

Scalars and vectors are the values that operations compute with; a quantity is one of the two and
never a closure. The operations on quantities are those on values (`commutes_toValue`). They only
ever use the operations of the scalars, so a map that respects these carries every evaluation over
(`commutes_map`); the map to a single point gives the shapes of quantities, and says that the shape
of whatever a program computes is settled by the shapes of its inputs (`commutes_shape`).
-/

namespace StagedTangent

/-- A scalar or a vector. -/
inductive Quantity (α : Type) where
  | scalar (x : α)
  | vector (xs : List α)
deriving DecidableEq, Repr

namespace Quantity

variable {α β γ : Type}

/-- A quantity as a value. -/
def toValue : Quantity α → Value α
  | .scalar x => .scalar x
  | .vector xs => .vector xs

theorem toValue_injective : Function.Injective (toValue : Quantity α → Value α) := by
  intro a b h
  cases a <;> cases b <;> cases h <;> rfl

/-- A function of one number, elementwise. -/
def map (f : α → β) : Quantity α → Quantity β
  | .scalar x => .scalar (f x)
  | .vector xs => .vector (xs.map f)

/-- A function of two numbers, elementwise. A scalar goes with every element of a vector. -/
def zip (op : Opcode) (f : α → β → γ) : Quantity α → Quantity β → Except RunError (Quantity γ)
  | .scalar x, .scalar y => .ok (.scalar (f x y))
  | .scalar x, .vector ys => .ok (.vector (ys.map (f x)))
  | .vector xs, .scalar y => .ok (.vector (xs.map (fun x => f x y)))
  | .vector xs, .vector ys =>
    if xs.length = ys.length then .ok (.vector (xs.zipWith f ys))
    else .error (.unequalLengths op xs.length ys.length)

/-- The element at a place of a vector. -/
def element (place : Nat) : Quantity α → Except RunError (Quantity α)
  | .scalar _ => .error (.wrongKind .index .vector .scalar)
  | .vector xs =>
    match xs[place]? with
    | some x => .ok (.scalar x)
    | none => .error (.pastEnd place xs.length)

/-- A vector rotated toward its end. A scalar stays as it is. -/
def circshift (shift : Int) : Quantity α → Quantity α
  | .scalar x => .scalar x
  | .vector xs => .vector (Value.rotate xs shift)

section Operations

variable [Scalar α]

/-- The sum of the elements. A scalar is its own sum. -/
def sum : Quantity α → Quantity α
  | .scalar x => .scalar x
  | .vector xs => .scalar (Value.total xs)

/-- The product of two scalars, or the sum of the products of two vectors. -/
def dot : Quantity α → Quantity α → Except RunError (Quantity α)
  | .scalar x, .scalar y => .ok (.scalar (Scalar.mul x y))
  | .vector xs, .vector ys =>
    if xs.length = ys.length then .ok (.scalar (Value.total (xs.zipWith Scalar.mul ys)))
    else .error (.unequalLengths .dot xs.length ys.length)
  | .scalar _, .vector _ => .error (.wrongKind .dot .ofOneKind .scalar)
  | .vector _, .scalar _ => .error (.wrongKind .dot .ofOneKind .scalar)

/-- Apply an operation to quantities. -/
def apply (op : Op) (operands : List (Quantity α)) : Except RunError (Quantity α) :=
  match op, operands with
  | .constant c, [] => .ok (.scalar (Scalar.literal c))
  | .add, [a, b] => zip .add Scalar.add a b
  | .sub, [a, b] => zip .sub Scalar.sub a b
  | .mul, [a, b] => zip .mul Scalar.mul a b
  | .div, [a, b] => zip .div Scalar.div a b
  | .neg, [a] => .ok (a.map Scalar.neg)
  | .sin, [a] => .ok (a.map Scalar.sin)
  | .cos, [a] => .ok (a.map Scalar.cos)
  | .exp, [a] => .ok (a.map Scalar.exp)
  | .log, [a] => .ok (a.map Scalar.log)
  | .sqrt, [a] => .ok (a.map Scalar.sqrt)
  | .abs, [a] => .ok (a.map Scalar.abs)
  | .sign, [a] => .ok (a.map Scalar.sign)
  | .zeroLike, [a] => .ok (a.map fun _ => Scalar.zero)
  | .dot, [a, b] => dot a b
  | .sum, [a] => .ok a.sum
  | .index place, [a] => element place a
  | .circshift shift, [a] => .ok (circshift shift a)
  | op, operands => .error (.valueCount 0 op.arity operands.length)

theorem apply_of_length_ne {op : Op} {operands : List (Quantity α)}
    (h : operands.length ≠ op.arity) :
    apply op operands = .error (.valueCount 0 op.arity operands.length) := by
  unfold apply
  split
  all_goals first | rfl | exact absurd rfl h

end Operations

/-! ## Quantities among values -/

theorem mapElements_toValue (op : Opcode) (f : α → α) (a : Quantity α) :
    Value.mapElements op f a.toValue = .ok (a.map f).toValue := by
  cases a <;> rfl

theorem zipElements_toValue (op : Opcode) (f : α → α → α) (a b : Quantity α) :
    Value.zipElements op f a.toValue b.toValue = (zip op f a b).map toValue := by
  cases a with
  | scalar x => cases b <;> rfl
  | vector xs =>
    cases b with
    | scalar y => rfl
    | vector ys =>
      simp only [toValue, Value.zipElements, zip]
      split <;> rfl

theorem element_toValue (place : Nat) (a : Quantity α) :
    Value.element place a.toValue = (element place a).map toValue := by
  cases a with
  | scalar x => rfl
  | vector xs =>
    simp only [toValue, Value.element, element]
    cases xs[place]? <;> rfl

theorem circshift_toValue (shift : Int) (a : Quantity α) :
    Value.circshift shift a.toValue = .ok (circshift shift a).toValue := by
  cases a <;> rfl

variable [Scalar α] [Scalar β]

theorem sumElements_toValue (a : Quantity α) :
    Value.sumElements a.toValue = .ok a.sum.toValue := by
  cases a <;> rfl

theorem dotProduct_toValue (a b : Quantity α) :
    Value.dotProduct a.toValue b.toValue = (dot a b).map toValue := by
  cases a with
  | scalar x => cases b <;> rfl
  | vector xs =>
    cases b with
    | scalar y => rfl
    | vector ys =>
      simp only [toValue, Value.dotProduct, dot]
      split <;> rfl

theorem value_apply_of_length_ne {op : Op} {operands : List (Value α)}
    (h : operands.length ≠ op.arity) :
    Value.apply op operands = .error (.valueCount 0 op.arity operands.length) := by
  unfold Value.apply
  split
  all_goals first | rfl | exact absurd rfl h

/-- On quantities the operations are those on values. -/
theorem commutes_toValue :
    Commutes (toValue : Quantity α → Value α) Quantity.apply Value.apply := by
  intro op qs
  by_cases hcount : qs.length = op.arity
  · match op, qs, hcount with
    | .constant c, [], _ => rfl
    | .add, [a, b], _ | .sub, [a, b], _ | .mul, [a, b], _ | .div, [a, b], _ =>
      exact zipElements_toValue _ _ a b
    | .neg, [a], _ | .sin, [a], _ | .cos, [a], _ | .exp, [a], _ | .log, [a], _ | .sqrt, [a], _
    | .abs, [a], _ | .sign, [a], _ | .zeroLike, [a], _ => exact mapElements_toValue _ _ a
    | .dot, [a, b], _ => exact dotProduct_toValue a b
    | .sum, [a], _ => exact sumElements_toValue a
    | .index place, [a], _ => exact element_toValue place a
    | .circshift shift, [a], _ => exact circshift_toValue shift a
  · rw [apply_of_length_ne hcount, value_apply_of_length_ne (by rwa [List.length_map]),
      List.length_map]
    rfl

end Quantity

/-! ## What operations on values yield -/

namespace Quantity

variable {α : Type} {v a b : Value α}

theorem toValue_ne_closure (q : Quantity α) (c : Closure (Value α)) : q.toValue ≠ .closure c := by
  cases q <;> nofun

theorem exists_of_mapElements {op : Opcode} {f : α → α} (h : Value.mapElements op f a = .ok v) :
    ∃ q : Quantity α, v = q.toValue := by
  cases a with
  | scalar x => exact ⟨.scalar _, (Except.ok.inj h).symm⟩
  | vector xs => exact ⟨.vector _, (Except.ok.inj h).symm⟩
  | closure c => cases h

theorem exists_of_zipElements {op : Opcode} {f : α → α → α}
    (h : Value.zipElements op f a b = .ok v) : ∃ q : Quantity α, v = q.toValue := by
  unfold Value.zipElements at h
  split at h
  · exact ⟨.scalar _, (Except.ok.inj h).symm⟩
  · exact ⟨.vector _, (Except.ok.inj h).symm⟩
  · exact ⟨.vector _, (Except.ok.inj h).symm⟩
  · split at h
    · exact ⟨.vector _, (Except.ok.inj h).symm⟩
    · cases h
  · cases h
  · cases h

theorem exists_of_element {place : Nat} (h : Value.element place a = .ok v) :
    ∃ q : Quantity α, v = q.toValue := by
  unfold Value.element at h
  split at h
  · split at h
    · exact ⟨.scalar _, (Except.ok.inj h).symm⟩
    · cases h
  · cases h

theorem exists_of_circshift {shift : Int} (h : Value.circshift shift a = .ok v) :
    ∃ q : Quantity α, v = q.toValue := by
  cases a with
  | scalar x => exact ⟨.scalar _, (Except.ok.inj h).symm⟩
  | vector xs => exact ⟨.vector _, (Except.ok.inj h).symm⟩
  | closure c => cases h

variable [Scalar α]

theorem exists_of_dotProduct (h : Value.dotProduct a b = .ok v) :
    ∃ q : Quantity α, v = q.toValue := by
  unfold Value.dotProduct at h
  split at h
  · exact ⟨.scalar _, (Except.ok.inj h).symm⟩
  · split at h
    · exact ⟨.scalar _, (Except.ok.inj h).symm⟩
    · cases h
  · cases h
  · cases h

theorem exists_of_sumElements (h : Value.sumElements a = .ok v) :
    ∃ q : Quantity α, v = q.toValue := by
  cases a with
  | scalar x => exact ⟨.scalar _, (Except.ok.inj h).symm⟩
  | vector xs => exact ⟨.scalar _, (Except.ok.inj h).symm⟩
  | closure c => cases h

/-- An operation never yields a closure. -/
theorem exists_of_apply {op : Op} {vs : List (Value α)} (h : Value.apply op vs = .ok v) :
    ∃ q : Quantity α, v = q.toValue := by
  unfold Value.apply at h
  split at h
  · exact ⟨.scalar _, (Except.ok.inj h).symm⟩
  all_goals first
    | exact exists_of_mapElements h
    | exact exists_of_zipElements h
    | exact exists_of_dotProduct h
    | exact exists_of_sumElements h
    | exact exists_of_element h
    | exact exists_of_circshift h
    | cases h

end Quantity

/-! ## Maps of scalars -/

/-- A map of scalars that respects the operations on them. -/
structure ScalarHom {α β : Type} [Scalar α] [Scalar β] (h : α → β) : Prop where
  literal : ∀ c, h (Scalar.literal c) = Scalar.literal c
  zero : h Scalar.zero = Scalar.zero
  emptySum : h Scalar.emptySum = Scalar.emptySum
  add : ∀ x y, h (Scalar.add x y) = Scalar.add (h x) (h y)
  sub : ∀ x y, h (Scalar.sub x y) = Scalar.sub (h x) (h y)
  mul : ∀ x y, h (Scalar.mul x y) = Scalar.mul (h x) (h y)
  div : ∀ x y, h (Scalar.div x y) = Scalar.div (h x) (h y)
  neg : ∀ x, h (Scalar.neg x) = Scalar.neg (h x)
  sin : ∀ x, h (Scalar.sin x) = Scalar.sin (h x)
  cos : ∀ x, h (Scalar.cos x) = Scalar.cos (h x)
  exp : ∀ x, h (Scalar.exp x) = Scalar.exp (h x)
  log : ∀ x, h (Scalar.log x) = Scalar.log (h x)
  sqrt : ∀ x, h (Scalar.sqrt x) = Scalar.sqrt (h x)
  abs : ∀ x, h (Scalar.abs x) = Scalar.abs (h x)
  sign : ∀ x, h (Scalar.sign x) = Scalar.sign (h x)

namespace Quantity

variable {α β γ δ : Type}

theorem map_map (g : β → γ) (f : α → β) (a : Quantity α) :
    (a.map f).map g = a.map fun x => g (f x) := by
  cases a with
  | scalar x => rfl
  | vector xs => simp [map]

/-- Only what a map does to the elements matters. -/
theorem map_congr {f g : α → β} (a : Quantity α) (h : ∀ x, f x = g x) : a.map f = a.map g := by
  rw [funext h]

theorem map_zip (op : Opcode) (f : α → β → γ) (g : γ → δ) (a : Quantity α) (b : Quantity β) :
    (zip op f a b).map (map g) = zip op (fun x y => g (f x y)) a b := by
  cases a with
  | scalar x =>
    cases b with
    | scalar y => rfl
    | vector ys => simp [zip, map, Except.map]
  | vector xs =>
    cases b with
    | scalar y => simp [zip, map, Except.map]
    | vector ys =>
      simp only [zip]
      split
      · simp [map, Except.map, List.map_zipWith]
      · rfl

theorem zip_map (op : Opcode) {α' β' : Type} (f : α' → β' → γ) (g : α → α') (h : β → β')
    (a : Quantity α) (b : Quantity β) :
    zip op f (a.map g) (b.map h) = zip op (fun x y => f (g x) (h y)) a b := by
  cases a with
  | scalar x =>
    cases b with
    | scalar y => rfl
    | vector ys => simp [zip, map]
  | vector xs =>
    cases b with
    | scalar y => simp [zip, map]
    | vector ys => simp [zip, map, List.zipWith_map]

theorem element_map (place : Nat) (f : α → β) (a : Quantity α) :
    element place (a.map f) = (element place a).map (map f) := by
  cases a with
  | scalar x => rfl
  | vector xs =>
    simp only [map, element, List.getElem?_map, List.length_map]
    cases xs[place]? <;> rfl

theorem circshift_map (shift : Int) (f : α → β) (a : Quantity α) :
    circshift shift (a.map f) = (circshift shift a).map f := by
  cases a with
  | scalar x => rfl
  | vector xs => simp [map, circshift, Value.rotate]

section Hom

variable [Scalar α] [Scalar β] {h : α → β}

/-- A map that respects sums of two scalars and the empty sum respects all sums. -/
theorem total_map (hempty : h Scalar.emptySum = Scalar.emptySum)
    (hadd : ∀ x y, h (Scalar.add x y) = Scalar.add (h x) (h y)) (xs : List α) :
    Value.total (xs.map h) = h (Value.total xs) := by
  have hfold : ∀ start, (xs.map h).foldl Scalar.add (h start) = h (xs.foldl Scalar.add start) := by
    induction xs with
    | nil => exact fun start => rfl
    | cons x xs ih =>
      intro start
      rw [List.map_cons, List.foldl_cons, List.foldl_cons, ← hadd, ih]
  rw [Value.total, Value.total, ← hempty, hfold]

theorem sum_map (hempty : h Scalar.emptySum = Scalar.emptySum)
    (hadd : ∀ x y, h (Scalar.add x y) = Scalar.add (h x) (h y)) (a : Quantity α) :
    (a.map h).sum = a.sum.map h := by
  cases a with
  | scalar x => rfl
  | vector xs => simp only [map, sum, total_map hempty hadd]

theorem dot_map (hh : ScalarHom h) (a b : Quantity α) :
    dot (a.map h) (b.map h) = (dot a b).map (map h) := by
  cases a with
  | scalar x =>
    cases b with
    | scalar y => simp only [map, dot, Except.map, hh.mul]
    | vector ys => rfl
  | vector xs =>
    cases b with
    | scalar y => rfl
    | vector ys =>
      simp only [map, dot, List.length_map]
      split
      · simp only [Except.map, map, ← total_map hh.emptySum hh.add, List.map_zipWith,
          List.zipWith_map, hh.mul]
      · rfl

/-- A map of scalars that respects the operations on them carries evaluations over. -/
theorem commutes_map (hh : ScalarHom h) : Commutes (map h) apply apply := by
  have hzip : ∀ (op : Opcode) (f : α → α → α) (g : β → β → β) (a b : Quantity α),
      (∀ x y, h (f x y) = g (h x) (h y)) →
      zip op g (a.map h) (b.map h) = (zip op f a b).map (map h) := by
    intro op f g a b hfg
    rw [zip_map, map_zip]
    simp only [hfg]
  have hmap : ∀ (f : α → α) (g : β → β) (a : Quantity α), (∀ x, h (f x) = g (h x)) →
      (a.map h).map g = (a.map f).map h := by
    intro f g a hfg
    rw [map_map, map_map]
    simp only [hfg]
  intro op qs
  by_cases hcount : qs.length = op.arity
  · match op, qs, hcount with
    | .constant c, [], _ => exact congrArg (fun x => Except.ok (scalar x)) (hh.literal c).symm
    | .add, [a, b], _ => exact hzip _ _ _ a b hh.add
    | .sub, [a, b], _ => exact hzip _ _ _ a b hh.sub
    | .mul, [a, b], _ => exact hzip _ _ _ a b hh.mul
    | .div, [a, b], _ => exact hzip _ _ _ a b hh.div
    | .neg, [a], _ => exact congrArg Except.ok (hmap _ _ a hh.neg)
    | .sin, [a], _ => exact congrArg Except.ok (hmap _ _ a hh.sin)
    | .cos, [a], _ => exact congrArg Except.ok (hmap _ _ a hh.cos)
    | .exp, [a], _ => exact congrArg Except.ok (hmap _ _ a hh.exp)
    | .log, [a], _ => exact congrArg Except.ok (hmap _ _ a hh.log)
    | .sqrt, [a], _ => exact congrArg Except.ok (hmap _ _ a hh.sqrt)
    | .abs, [a], _ => exact congrArg Except.ok (hmap _ _ a hh.abs)
    | .sign, [a], _ => exact congrArg Except.ok (hmap _ _ a hh.sign)
    | .zeroLike, [a], _ => exact congrArg Except.ok (hmap _ _ a fun _ => hh.zero)
    | .dot, [a, b], _ => exact dot_map hh a b
    | .sum, [a], _ => exact congrArg Except.ok (sum_map hh.emptySum hh.add a)
    | .index place, [a], _ => exact element_map place h a
    | .circshift shift, [a], _ => exact congrArg Except.ok (circshift_map shift h a)
  · rw [apply_of_length_ne hcount, apply_of_length_ne (by rwa [List.length_map]),
      List.length_map]
    rfl

end Hom

end Quantity

/-! ## Shapes -/

/-- The operations on a single point. -/
instance : Scalar Unit where
  literal := fun _ => ()
  zero := ()
  emptySum := ()
  add := fun _ _ => ()
  sub := fun _ _ => ()
  mul := fun _ _ => ()
  div := fun _ _ => ()
  neg := fun _ => ()
  sin := fun _ => ()
  cos := fun _ => ()
  exp := fun _ => ()
  log := fun _ => ()
  sqrt := fun _ => ()
  abs := fun _ => ()
  sign := fun _ => ()

/-- Whether a quantity is a scalar or a vector, and of which length: a quantity whose elements say
nothing. -/
abbrev Shape := Quantity Unit

namespace Quantity

variable {α β : Type}

/-- The shape of a quantity. -/
def shape (a : Quantity α) : Shape := a.map fun _ => ()

theorem shape_map (f : α → β) (a : Quantity α) : (a.map f).shape = a.shape := map_map _ _ a

/-- The shape of what an operation yields depends on the shapes of its operands alone. -/
theorem commutes_shape [Scalar α] : Commutes (shape : Quantity α → Shape) apply apply :=
  commutes_map ⟨fun _ => rfl, rfl, rfl, fun _ _ => rfl, fun _ _ => rfl, fun _ _ => rfl,
    fun _ _ => rfl, fun _ => rfl, fun _ => rfl, fun _ => rfl, fun _ => rfl, fun _ => rfl,
    fun _ => rfl, fun _ => rfl, fun _ => rfl⟩

end Quantity

end StagedTangent
