import StagedTangent.Proofs.Derivative.Contribution
import StagedTangent.Proofs.Evaluation.Elementwise

/-!
# Shapes of contributions

On shapes an elementwise operation takes a scalar with anything and otherwise two operands of one
shape (`zip_shape_eq_ok_iff`). The tangent of an operand has its shape or is a scalar. What the operand
then contributes has the shape of the result or is a scalar, and `contribution_shape` says when it is
which. Only the operations that are `Op.Exacting` can fail on such a tangent.
-/

namespace StagedTangent

namespace Quantity

/-! ## Operations on shapes -/

/-- The shape of scalars. -/
def point : Shape := .scalar ()

/-- Lists of points are known by their lengths. -/
theorem units_ext {us ws : List Unit} (h : us.length = ws.length) : us = ws :=
  List.ext_getElem h fun _ _ _ => rfl

@[simp] theorem map_unit (f : Unit → Unit) (a : Shape) : a.map f = a := by
  cases a with
  | scalar u => rfl
  | vector us => exact congrArg vector (List.map_id us)

@[simp] theorem sum_shape (a : Shape) : a.sum = point := by
  cases a <;> rfl

@[simp] theorem circshift_shape (shift : Int) (a : Shape) : circshift shift a = a := by
  cases a with
  | scalar u => rfl
  | vector us =>
    refine congrArg vector (units_ext ?_)
    rw [Value.rotate, List.length_append, List.length_drop, List.length_take]
    omega

/-- Elementwise operations take a scalar with anything and otherwise two of one shape. -/
theorem zip_shape_eq_ok_iff {op : Opcode} {f : Unit → Unit → Unit} {a b c : Shape} :
    zip op f a b = .ok c ↔ a = point ∧ c = b ∨ b = point ∧ c = a ∨ a = b ∧ c = a := by
  have hleft : ∀ a : Shape, zipWith f point a = a := by
    intro a
    cases a with
    | scalar w => rfl
    | vector ws => exact congrArg vector (List.map_id ws)
  have hright : ∀ a : Shape, zipWith f a point = a := by
    intro a
    cases a with
    | scalar u => rfl
    | vector us => exact congrArg vector (List.map_id us)
  have hself : ∀ a : Shape, zipWith f a a = a := by
    intro a
    cases a with
    | scalar u => rfl
    | vector us => exact congrArg vector (List.zipWith_self.trans (List.map_id us))
  rw [zip_eq_ok_iff]
  constructor
  · rintro ⟨hcompatible, rfl⟩
    match a, b, hcompatible with
    | .scalar (), b, _ => exact .inl ⟨rfl, hleft b⟩
    | .vector us, .scalar (), _ => exact .inr (.inl ⟨rfl, hright _⟩)
    | .vector us, .vector ws, hlength =>
      obtain rfl := units_ext hlength
      exact .inr (.inr ⟨rfl, hself _⟩)
  · rintro (⟨rfl, rfl⟩ | ⟨rfl, rfl⟩ | ⟨rfl, rfl⟩)
    · exact ⟨trivial, (hleft c).symm⟩
    · exact ⟨by cases c <;> trivial, (hright c).symm⟩
    · exact ⟨.of_shape_eq rfl, (hself c).symm⟩

theorem dot_shape_eq_ok_iff {a b c : Shape} : dot a b = .ok c ↔ a = b ∧ c = point := by
  have h := uniform_dot_eq_ok_iff (a := a) (b := b) (c := c)
  rw [sum_shape, shape, map_unit, shape, map_unit] at h
  exact h

theorem element_shape_point (place : Nat) (c : Shape) : element place point ≠ .ok c := nofun

theorem eq_point_of_element {place : Nat} {a c : Shape} (h : element place a = .ok c) :
    c = point := by
  cases a with
  | scalar u => cases h
  | vector us =>
    simp only [element] at h
    split at h
    · cases h
      rfl
    · cases h

end Quantity

open Quantity

/-! ## Shapes of contributions -/

/-- Operations that do not take a scalar in the place of a vector. -/
def Op.Exacting : Op → Prop
  | .dot | .index _ => True
  | _ => False

/-- Whether an operation combines the tangent of an operand with a vector, given the shapes of its
operands. -/
def widens (op : Op) (position : Nat) (vs : List Shape) : Prop :=
  match op, position, vs with
  | .mul, 0, [_, b] | .div, 0, [_, b] => b ≠ point
  | .mul, _, [a, _] => a ≠ point
  | .div, _, [a, b] => a ≠ point ∨ b ≠ point
  | .sin, _, [a] | .cos, _, [a] | .exp, _, [a] | .log, _, [a] | .sqrt, _, [a] => a ≠ point
  | _, _, _ => False

variable {op : Op} {position : Nat} {vs : List Shape} {s v t : Shape}

/-! ### Elementwise rules -/

section Elementwise

variable {code : Opcode} {f : Unit → Unit → Unit} {a b : Shape}

theorem zip_shape_swap (hs : zip code f a b = .ok s) (code' : Opcode) (g : Unit → Unit → Unit) :
    zip code' g b a = .ok s := by
  rcases zip_shape_eq_ok_iff.1 hs with ⟨ha, hc⟩ | ⟨hb, hc⟩ | ⟨hab, hc⟩
  · exact zip_shape_eq_ok_iff.2 (.inr (.inl ⟨ha, hc⟩))
  · exact zip_shape_eq_ok_iff.2 (.inl ⟨hb, hc⟩)
  · exact zip_shape_eq_ok_iff.2 (.inr (.inr ⟨hab.symm, hc.trans hab⟩))

/-- What is elementwise computed from a tangent of the first operand and the second operand. -/
theorem zip_left_shape (hs : zip code f a b = .ok s) (ht : t = a ∨ t = point) (code' : Opcode)
    (g : Unit → Unit → Unit) : ∃ c, zip code' g t b = .ok c ∧ (c = s ∨ c = point) ∧
      (c = point ↔ s = point ∨ t = point ∧ b = point) := by
  rcases zip_shape_eq_ok_iff.1 hs with ⟨rfl, rfl⟩ | ⟨rfl, rfl⟩ | ⟨rfl, rfl⟩
  · obtain rfl : t = point := ht.elim id id
    exact ⟨s, zip_shape_eq_ok_iff.2 (.inl ⟨rfl, rfl⟩), .inl rfl, by simp⟩
  · refine ⟨t, zip_shape_eq_ok_iff.2 (.inr (.inl ⟨rfl, rfl⟩)), ht, ?_⟩
    rcases ht with rfl | rfl
    · simp
    · simp
  · rcases ht with rfl | rfl
    · exact ⟨t, zip_shape_eq_ok_iff.2 (.inr (.inr ⟨rfl, rfl⟩)), .inl rfl, by simp⟩
    · exact ⟨s, zip_shape_eq_ok_iff.2 (.inl ⟨rfl, rfl⟩), .inl rfl, by simp⟩

/-- What is elementwise computed from the first operand and a tangent of the second one. -/
theorem zip_right_shape (hs : zip code f a b = .ok s) (ht : t = b ∨ t = point) (code' : Opcode)
    (g : Unit → Unit → Unit) : ∃ c, zip code' g a t = .ok c ∧ (c = s ∨ c = point) ∧
      (c = point ↔ s = point ∨ t = point ∧ a = point) := by
  obtain ⟨c, hc, hfits⟩ := zip_left_shape (zip_shape_swap hs code f) ht code g
  exact ⟨c, zip_shape_swap hc code' g, hfits⟩

/-- A tangent of the first operand by itself. -/
theorem tangent_left_shape (hs : zip code f a b = .ok s) (ht : t = a ∨ t = point) :
    (t = s ∨ t = point) ∧ (s = point → t = point) := by
  rcases zip_shape_eq_ok_iff.1 hs with ⟨rfl, rfl⟩ | ⟨rfl, rfl⟩ | ⟨rfl, rfl⟩
  · obtain rfl : t = point := ht.elim id id
    exact ⟨.inr rfl, fun _ => rfl⟩
  · exact ⟨ht, fun hpoint => ht.elim (fun heq => heq.trans hpoint) id⟩
  · exact ⟨ht, fun hpoint => ht.elim (fun heq => heq.trans hpoint) id⟩

/-- A tangent of the second operand by itself. -/
theorem tangent_right_shape (hs : zip code f a b = .ok s) (ht : t = b ∨ t = point) :
    (t = s ∨ t = point) ∧ (s = point → t = point) :=
  tangent_left_shape (zip_shape_swap hs code f) ht

/-- The factor in the rule for a divisor has the shape of the quotient. -/
theorem zip_factor_shape (hs : zip code f a b = .ok s) (ht : t = b ∨ t = point) (code' : Opcode)
    (g : Unit → Unit → Unit) : zip code' g s b = .ok s ∧ zip code' g t s = .ok s := by
  rcases zip_shape_eq_ok_iff.1 hs with ⟨rfl, rfl⟩ | ⟨rfl, rfl⟩ | ⟨rfl, rfl⟩
  · refine ⟨zip_shape_eq_ok_iff.2 (.inr (.inr ⟨rfl, rfl⟩)), zip_shape_eq_ok_iff.2 ?_⟩
    exact ht.elim (fun heq => .inr (.inr ⟨heq, heq.symm⟩)) fun heq => .inl ⟨heq, rfl⟩
  · obtain rfl : t = point := ht.elim id id
    exact ⟨zip_shape_eq_ok_iff.2 (.inr (.inl ⟨rfl, rfl⟩)), zip_shape_eq_ok_iff.2 (.inl ⟨rfl, rfl⟩)⟩
  · refine ⟨zip_shape_eq_ok_iff.2 (.inr (.inr ⟨rfl, rfl⟩)), zip_shape_eq_ok_iff.2 ?_⟩
    exact ht.elim (fun heq => .inr (.inr ⟨heq, heq.symm⟩)) fun heq => .inl ⟨heq, rfl⟩

theorem eq_point_of_zip (hs : zip code f a b = .ok s) (ha : a = point) (hb : b = point) :
    s = point := by
  rcases zip_shape_eq_ok_iff.1 hs with ⟨-, rfl⟩ | ⟨-, rfl⟩ | ⟨-, rfl⟩
  · exact hb
  · exact ha
  · exact ha

end Elementwise

/-- The shape of a contribution is that of the result or a scalar. It is a scalar if the result is
one, or if the tangent is and the rule does not combine it with a vector. -/
theorem contribution_shape (hcount : vs.length = op.arity) (hsmooth : op ≠ .abs)
    (hs : apply op vs = .ok s) (hv : vs[position]? = some v) (ht : t = v ∨ t = point)
    (hexacting : op.Exacting → t = v) :
    ∃ c, contribution apply op position vs t = some c ∧ (c = s ∨ c = point) ∧
      (c = point ↔ s = point ∨ t = point ∧ ¬ widens op position vs) := by
  have hself : ∀ a : Shape, zip .add Scalar.add a a = .ok a := fun a =>
    zip_shape_eq_ok_iff.2 (.inr (.inr ⟨rfl, rfl⟩))
  match op, vs, position, hcount, hs, hv with
  | .constant c, [], _, _, _, hv => cases hv
  | .add, [a, b], 0, _, hs, rfl | .sub, [a, b], 0, _, hs, rfl =>
    obtain ⟨hfits, hpoint⟩ := tangent_left_shape hs ht
    exact ⟨t, rfl, hfits, by simpa [widens] using hpoint⟩
  | .add, [a, b], 1, _, hs, rfl =>
    obtain ⟨hfits, hpoint⟩ := tangent_right_shape hs ht
    exact ⟨t, rfl, hfits, by simpa [widens] using hpoint⟩
  | .sub, [a, b], 1, _, hs, rfl =>
    obtain ⟨hfits, hpoint⟩ := tangent_right_shape hs ht
    exact ⟨t, congrArg some (map_unit _ t), hfits, by simpa [widens] using hpoint⟩
  | .mul, [a, b], 0, _, hs, rfl =>
    obtain ⟨c, hc, hfits, hpoint⟩ := zip_left_shape hs ht .mul Scalar.mul
    exact ⟨c, perform_eq_some.2 hc, hfits, by simpa [widens] using hpoint⟩
  | .mul, [a, b], 1, _, hs, rfl =>
    obtain ⟨c, hc, hfits, hpoint⟩ := zip_right_shape hs ht .mul Scalar.mul
    exact ⟨c, perform_eq_some.2 hc, hfits, by simpa [widens] using hpoint⟩
  | .div, [a, b], 0, _, hs, rfl =>
    obtain ⟨c, hc, hfits, hpoint⟩ := zip_left_shape hs ht .div Scalar.div
    exact ⟨c, perform_eq_some.2 hc, hfits, by simpa [widens] using hpoint⟩
  | .div, [a, b], 1, _, hs, rfl =>
    have hscaled : apply .div [s, b] = .ok s := (zip_factor_shape hs ht .div Scalar.div).1
    have hfactor : apply .neg [s] = .ok s := congrArg Except.ok (map_unit _ s)
    have hproduct : apply .mul [t, s] = .ok s := (zip_factor_shape hs ht .mul Scalar.mul).2
    refine ⟨s, ?_, .inl rfl, ?_⟩
    · simp only [contribution, perform_eq_some.2 hs, perform_eq_some.2 hscaled,
        perform_eq_some.2 hfactor, perform_eq_some.2 hproduct, Option.bind_eq_bind, Option.bind_some]
    · refine ⟨.inl, fun h => ?_⟩
      rcases h with hpoint | ⟨-, hnarrow⟩
      · exact hpoint
      · obtain ⟨ha, hb⟩ := not_or.1 hnarrow
        exact eq_point_of_zip hs (not_not.1 ha) (not_not.1 hb)
  | .dot, [a, b], 0, _, hs, rfl | .dot, [a, b], 1, _, hs, rfl =>
    obtain rfl := hexacting trivial
    obtain ⟨-, rfl⟩ := dot_shape_eq_ok_iff.1 hs
    exact ⟨point, perform_eq_some.2 hs, .inl rfl, by simp⟩
  | .neg, [a], 0, _, rfl, rfl | .sign, [a], 0, _, rfl, rfl | .zeroLike, [a], 0, _, rfl, rfl =>
    obtain ⟨hfits, hpoint⟩ := tangent_left_shape (hself a) ht
    rw [map_unit]
    exact ⟨t, congrArg some (map_unit _ t), hfits, by simpa [widens] using hpoint⟩
  | .circshift shift, [a], 0, _, rfl, rfl =>
    obtain ⟨hfits, hpoint⟩ := tangent_left_shape (hself a) ht
    rw [circshift_shape]
    exact ⟨t, congrArg some (circshift_shape shift t), hfits, by simpa [widens] using hpoint⟩
  | .sin, [a], 0, _, rfl, rfl | .cos, [a], 0, _, rfl, rfl | .exp, [a], 0, _, rfl, rfl =>
    obtain ⟨c, hc, hfits, hpoint⟩ := zip_left_shape (hself a) ht .mul Scalar.mul
    rw [map_unit]
    refine ⟨c, ?_, hfits, by simpa [widens] using hpoint⟩
    simp only [contribution, perform, apply, map_unit, Except.toOption, Option.bind_eq_bind,
      Option.bind_some, hc]
  | .log, [a], 0, _, rfl, rfl =>
    obtain ⟨c, hc, hfits, hpoint⟩ := zip_left_shape (hself a) ht .div Scalar.div
    rw [map_unit]
    exact ⟨c, perform_eq_some.2 hc, hfits, by simpa [widens] using hpoint⟩
  | .sqrt, [a], 0, _, rfl, rfl =>
    obtain ⟨c, hc, hfits, hpoint⟩ := zip_left_shape (hself a) ht .div Scalar.div
    rw [map_unit]
    refine ⟨c, ?_, hfits, by simpa [widens] using hpoint⟩
    simp only [contribution, perform, apply, map_unit, Except.toOption, Option.bind_eq_bind,
      Option.bind_some, hself a, hc]
  | .sum, [a], 0, _, rfl, rfl =>
    exact ⟨point, congrArg some (sum_shape t), .inr rfl, by simp⟩
  | .index place, [a], 0, _, hs, rfl =>
    obtain rfl := hexacting trivial
    obtain rfl := eq_point_of_element hs
    exact ⟨point, perform_eq_some.2 hs, .inl rfl, by simp⟩

/-- An exacting operation only takes a tangent that has the shape of its operand. -/
theorem eq_of_contribution_exacting {c : Shape} (hcount : vs.length = op.arity)
    (hs : apply op vs = .ok s) (hv : vs[position]? = some v) (ht : t = v ∨ t = point)
    (hexacting : op.Exacting) (hc : contribution apply op position vs t = some c) : t = v := by
  match op, vs, position, hcount, hs, hv, hexacting, hc with
  | .dot, [a, b], 0, _, hs, rfl, _, hc =>
    obtain ⟨rfl, -⟩ := dot_shape_eq_ok_iff.1 hs
    exact (dot_shape_eq_ok_iff.1 (perform_eq_some.1 hc)).1
  | .dot, [a, b], 1, _, hs, rfl, _, hc =>
    obtain ⟨rfl, -⟩ := dot_shape_eq_ok_iff.1 hs
    exact (dot_shape_eq_ok_iff.1 (perform_eq_some.1 hc)).1.symm
  | .index place, [a], 0, _, _, rfl, _, hc =>
    refine ht.resolve_right ?_
    rintro rfl
    exact element_shape_point place c (perform_eq_some.1 hc)

/-- The sum of two contributions is a scalar only if both are. -/
theorem add_shape {c e : Shape} (hc : c = s ∨ c = point) (he : e = s ∨ e = point) :
    ∃ u, apply .add [c, e] = .ok u ∧ (u = s ∨ u = point) ∧
      (u = point ↔ c = point ∧ e = point) := by
  rcases hc with rfl | rfl
  · rcases he with rfl | rfl
    · exact ⟨e, zip_shape_eq_ok_iff.2 (.inr (.inr ⟨rfl, rfl⟩)), .inl rfl, by simp⟩
    · exact ⟨c, zip_shape_eq_ok_iff.2 (.inr (.inl ⟨rfl, rfl⟩)), .inl rfl, by simp⟩
  · exact ⟨e, zip_shape_eq_ok_iff.2 (.inl ⟨rfl, rfl⟩), he, by simp⟩

end StagedTangent
