import Mathlib.Algebra.DualNumber
import Mathlib.Tactic.Ring
import StagedTangent.Proofs.Evaluation.Elementwise

/-!
# Dual numbers as scalars

Over a field, with any functions in the place of the elementary ones, the operations on scalars are
those of the field. Over the dual numbers `R[ε]` of such scalars they carry, in the coefficient of
`ε`, the change of the result with the changes of the operands. Dual numbers of lawful scalars are
lawful again (`LawfulScalar`), so that the construction can be repeated; the order in which it was
made twice does not matter (`scalarHom_swap`).
-/

namespace StagedTangent

open TrivSqZeroExt
open scoped DualNumber

/-- Functions for the operations that a field does not have. Nothing is required of them. -/
class Elementary (K : Type) where
  literal : Binary64 → K
  sin : K → K
  cos : K → K
  exp : K → K
  log : K → K
  sqrt : K → K
  abs : K → K
  sign : K → K

/-- Functions that are zero everywhere. -/
instance {K : Type} [Zero K] : Inhabited (Elementary K) :=
  ⟨⟨fun _ => 0, fun _ => 0, fun _ => 0, fun _ => 0, fun _ => 0, fun _ => 0, fun _ => 0,
    fun _ => 0⟩⟩

/-- The scalars of a field. Division is total, with `x / 0 = 0`. -/
instance fieldScalar {K : Type} [Field K] [Elementary K] : Scalar K where
  literal := Elementary.literal
  zero := 0
  emptySum := 0
  add := fun x y => x + y
  sub := fun x y => x - y
  mul := fun x y => x * y
  div := fun x y => x / y
  neg := fun x => -x
  sin := Elementary.sin
  cos := Elementary.cos
  exp := Elementary.exp
  log := Elementary.log
  sqrt := Elementary.sqrt
  abs := Elementary.abs
  sign := Elementary.sign

/-- Scalars whose arithmetic is that of a commutative ring, and whose division is multiplication by
some function of the divisor. -/
class LawfulScalar (R : Type) [CommRing R] [Scalar R] : Prop where
  zero_eq : (Scalar.zero : R) = 0
  emptySum_eq : (Scalar.emptySum : R) = 0
  add_eq : ∀ x y : R, Scalar.add x y = x + y
  sub_eq : ∀ x y : R, Scalar.sub x y = x - y
  mul_eq : ∀ x y : R, Scalar.mul x y = x * y
  neg_eq : ∀ x : R, Scalar.neg x = -x
  div_eq : ∀ x y : R, Scalar.div x y = x * Scalar.div 1 y

instance {K : Type} [Field K] [Elementary K] : LawfulScalar K where
  zero_eq := rfl
  emptySum_eq := rfl
  add_eq := fun _ _ => rfl
  sub_eq := fun _ _ => rfl
  mul_eq := fun _ _ => rfl
  neg_eq := fun _ => rfl
  div_eq := fun x y => by
    change x / y = x * (1 / y)
    rw [mul_one_div]

/-- What lawful scalars are multiplied by in a division. -/
def reciprocal {R : Type} [CommRing R] [Scalar R] (x : R) : R := Scalar.div 1 x

theorem div_eq_mul {R : Type} [CommRing R] [Scalar R] [LawfulScalar R] (x y : R) :
    Scalar.div x y = x * reciprocal y := LawfulScalar.div_eq x y

theorem zero_div_eq {R : Type} [CommRing R] [Scalar R] [LawfulScalar R] (x : R) :
    Scalar.div 0 x = 0 := by
  rw [div_eq_mul, zero_mul]

/-- The dual number with a value and a change. -/
def dual {R : Type} [CommRing R] (value change : R) : R[ε] := inl value + inr change

@[simp] theorem fst_dual {R : Type} [CommRing R] (a b : R) : (dual a b).fst = a := by simp [dual]
@[simp] theorem snd_dual {R : Type} [CommRing R] (a b : R) : (dual a b).snd = b := by simp [dual]

section Dual

variable {R : Type} [CommRing R] [Scalar R]

/-- Dual numbers as scalars. Where an operation is the one of the ring its change is too; the other
operations change with their operands as stated, and `abs` and `sign` not at all. -/
instance dualScalar : Scalar R[ε] where
  literal := fun c => inl (Scalar.literal c)
  zero := 0
  emptySum := 0
  add := fun x y => x + y
  sub := fun x y => x - y
  mul := fun x y => x * y
  div := fun x y => dual (Scalar.div x.fst y.fst)
    (Scalar.div x.snd y.fst - y.snd * Scalar.div (Scalar.div x.fst y.fst) y.fst)
  neg := fun x => -x
  sin := fun x => dual (Scalar.sin x.fst) (x.snd * Scalar.cos x.fst)
  cos := fun x => dual (Scalar.cos x.fst) (-x.snd * Scalar.sin x.fst)
  exp := fun x => dual (Scalar.exp x.fst) (x.snd * Scalar.exp x.fst)
  log := fun x => dual (Scalar.log x.fst) (Scalar.div x.snd x.fst)
  sqrt := fun x => dual (Scalar.sqrt x.fst)
    (Scalar.div x.snd (Scalar.sqrt x.fst + Scalar.sqrt x.fst))
  abs := fun x => inl (Scalar.abs x.fst)
  sign := fun x => inl (Scalar.sign x.fst)

section Parts

variable (x y : R[ε])

@[simp] theorem dual_literal (c : Binary64) :
    (Scalar.literal c : R[ε]) = inl (Scalar.literal c) := rfl
@[simp] theorem dual_zero : (Scalar.zero : R[ε]) = 0 := rfl
@[simp] theorem dual_emptySum : (Scalar.emptySum : R[ε]) = 0 := rfl
@[simp] theorem dual_add : Scalar.add x y = x + y := rfl
@[simp] theorem dual_sub : Scalar.sub x y = x - y := rfl
@[simp] theorem dual_mul : Scalar.mul x y = x * y := rfl
@[simp] theorem dual_neg : Scalar.neg x = -x := rfl
@[simp] theorem dual_abs : Scalar.abs x = inl (Scalar.abs x.fst) := rfl
@[simp] theorem dual_sign : Scalar.sign x = inl (Scalar.sign x.fst) := rfl
@[simp] theorem fst_div : (Scalar.div x y).fst = Scalar.div x.fst y.fst := fst_dual _ _
@[simp] theorem snd_div : (Scalar.div x y).snd =
    Scalar.div x.snd y.fst - y.snd * Scalar.div (Scalar.div x.fst y.fst) y.fst := snd_dual _ _
@[simp] theorem fst_sin : (Scalar.sin x).fst = Scalar.sin x.fst := fst_dual _ _
@[simp] theorem snd_sin : (Scalar.sin x).snd = x.snd * Scalar.cos x.fst := snd_dual _ _
@[simp] theorem fst_cos : (Scalar.cos x).fst = Scalar.cos x.fst := fst_dual _ _
@[simp] theorem snd_cos : (Scalar.cos x).snd = -x.snd * Scalar.sin x.fst := snd_dual _ _
@[simp] theorem fst_exp : (Scalar.exp x).fst = Scalar.exp x.fst := fst_dual _ _
@[simp] theorem snd_exp : (Scalar.exp x).snd = x.snd * Scalar.exp x.fst := snd_dual _ _
@[simp] theorem fst_log : (Scalar.log x).fst = Scalar.log x.fst := fst_dual _ _
@[simp] theorem snd_log : (Scalar.log x).snd = Scalar.div x.snd x.fst := snd_dual _ _
@[simp] theorem fst_sqrt : (Scalar.sqrt x).fst = Scalar.sqrt x.fst := fst_dual _ _
@[simp] theorem snd_sqrt : (Scalar.sqrt x).snd =
    Scalar.div x.snd (Scalar.sqrt x.fst + Scalar.sqrt x.fst) := snd_dual _ _

end Parts

variable [LawfulScalar R]

open LawfulScalar

instance : LawfulScalar R[ε] where
  zero_eq := rfl
  emptySum_eq := rfl
  add_eq := fun _ _ => rfl
  sub_eq := fun _ _ => rfl
  mul_eq := fun _ _ => rfl
  neg_eq := fun _ => rfl
  div_eq := fun x y => by
    refine TrivSqZeroExt.ext ?_ ?_
    · rw [fst_div, fst_mul, fst_div, fst_one, div_eq_mul, div_eq_mul, one_mul]
    · rw [DualNumber.snd_mul, snd_div, snd_div, fst_div, fst_one, snd_one]
      simp only [div_eq_mul]
      ring

/-- Taking the value of a dual number goes along with the operations. -/
theorem scalarHom_fst : ScalarHom (fst : R[ε] → R) where
  literal := fun _ => rfl
  zero := zero_eq.symm
  emptySum := emptySum_eq.symm
  add := fun x y => (add_eq x.fst y.fst).symm
  sub := fun x y => (sub_eq x.fst y.fst).symm
  mul := fun x y => (mul_eq x.fst y.fst).symm
  div := fst_div
  neg := fun x => (neg_eq x.fst).symm
  sin := fst_sin
  cos := fst_cos
  exp := fst_exp
  log := fst_log
  sqrt := fst_sqrt
  abs := fun _ => rfl
  sign := fun _ => rfl

/-- So does taking a scalar as a dual number that does not change. -/
theorem scalarHom_inl : ScalarHom (inl : R → R[ε]) where
  literal := fun _ => rfl
  zero := by
    rw [zero_eq]
    rfl
  emptySum := by
    rw [emptySum_eq]
    rfl
  add := fun x y => by
    rw [add_eq]
    exact inl_add R x y
  sub := fun x y => by
    rw [sub_eq]
    exact inl_sub R x y
  mul := fun x y => by
    rw [mul_eq]
    exact inl_mul R x y
  div := fun x y => TrivSqZeroExt.ext (by rw [fst_div, fst_inl, fst_inl, fst_inl]) (by
    rw [snd_div]
    simp [div_eq_mul])
  neg := fun x => by
    rw [neg_eq]
    exact inl_neg R x
  sin := fun x => TrivSqZeroExt.ext (by simp [fst_sin]) (by simp [snd_sin])
  cos := fun x => TrivSqZeroExt.ext (by simp [fst_cos]) (by simp [snd_cos])
  exp := fun x => TrivSqZeroExt.ext (by simp [fst_exp]) (by simp [snd_exp])
  log := fun x => TrivSqZeroExt.ext (by simp [fst_log]) (by simp [snd_log, div_eq_mul])
  sqrt := fun x => TrivSqZeroExt.ext (by simp [fst_sqrt]) (by simp [snd_sqrt, div_eq_mul])
  abs := fun _ => rfl
  sign := fun _ => rfl

end Dual

/-! ## Dual numbers of dual numbers -/

section Swap

variable {R : Type}

/-- Exchange the two changes of a dual number over dual numbers. -/
def swap [CommRing R] (x : R[ε][ε]) : R[ε][ε] :=
  dual (dual x.fst.fst x.snd.fst) (dual x.fst.snd x.snd.snd)

@[simp] theorem fst_fst_swap [CommRing R] (x : R[ε][ε]) : (swap x).fst.fst = x.fst.fst := by
  simp [swap]
@[simp] theorem snd_fst_swap [CommRing R] (x : R[ε][ε]) : (swap x).fst.snd = x.snd.fst := by
  simp [swap]
@[simp] theorem fst_snd_swap [CommRing R] (x : R[ε][ε]) : (swap x).snd.fst = x.fst.snd := by
  simp [swap]
@[simp] theorem snd_snd_swap [CommRing R] (x : R[ε][ε]) : (swap x).snd.snd = x.snd.snd := by
  simp [swap]

theorem ext_parts {x y : R[ε][ε]} (hff : x.fst.fst = y.fst.fst) (hfs : x.fst.snd = y.fst.snd)
    (hsf : x.snd.fst = y.snd.fst) (hss : x.snd.snd = y.snd.snd) : x = y :=
  TrivSqZeroExt.ext (TrivSqZeroExt.ext hff hfs) (TrivSqZeroExt.ext hsf hss)

variable [CommRing R]

theorem swap_mul (x y : R[ε][ε]) : swap (x * y) = swap x * swap y := by
  refine ext_parts (by simp) (by simp) (by simp) ?_
  simp only [snd_snd_swap, fst_snd_swap, snd_fst_swap, fst_fst_swap, DualNumber.snd_mul, snd_add]
  ring

variable [Scalar R]

theorem swap_sin (x : R[ε][ε]) : swap (Scalar.sin x) = Scalar.sin (swap x) := by
  refine ext_parts (by simp) (by simp) (by simp) ?_
  simp only [snd_snd_swap, fst_snd_swap, snd_fst_swap, fst_fst_swap, snd_sin, snd_cos, fst_cos,
    DualNumber.snd_mul]
  ring

theorem swap_cos (x : R[ε][ε]) : swap (Scalar.cos x) = Scalar.cos (swap x) := by
  refine ext_parts (by simp) (by simp) (by simp) ?_
  simp only [snd_snd_swap, fst_snd_swap, snd_fst_swap, fst_fst_swap, snd_cos, snd_sin, fst_sin,
    snd_neg, fst_neg, DualNumber.snd_mul]
  ring

theorem swap_exp (x : R[ε][ε]) : swap (Scalar.exp x) = Scalar.exp (swap x) := by
  refine ext_parts (by simp) (by simp) (by simp) ?_
  simp only [snd_snd_swap, fst_snd_swap, snd_fst_swap, fst_fst_swap, snd_exp, fst_exp,
    DualNumber.snd_mul]
  ring

variable [LawfulScalar R]

theorem swap_div (x y : R[ε][ε]) : swap (Scalar.div x y) = Scalar.div (swap x) (swap y) := by
  refine ext_parts (by simp) (by simp) (by simp) ?_
  simp only [snd_snd_swap, fst_snd_swap, snd_fst_swap, fst_fst_swap, snd_div, fst_div, snd_sub,
    DualNumber.snd_mul]
  simp only [div_eq_mul]
  ring

theorem swap_log (x : R[ε][ε]) : swap (Scalar.log x) = Scalar.log (swap x) := by
  refine ext_parts (by simp) (by simp) (by simp) ?_
  simp only [snd_snd_swap, fst_snd_swap, snd_fst_swap, fst_fst_swap, snd_log, snd_div]
  simp only [div_eq_mul]
  ring

theorem swap_sqrt (x : R[ε][ε]) : swap (Scalar.sqrt x) = Scalar.sqrt (swap x) := by
  refine ext_parts (by simp) (by simp) (by simp) ?_
  simp only [snd_snd_swap, fst_snd_swap, snd_fst_swap, fst_fst_swap, snd_sqrt, fst_sqrt, snd_div,
    snd_add, fst_add]
  simp only [div_eq_mul]
  ring

/-- Exchanging the two changes goes along with the operations. -/
theorem scalarHom_swap : ScalarHom (swap : R[ε][ε] → R[ε][ε]) where
  literal := fun _ => ext_parts (by simp) (by simp) (by simp) (by simp)
  zero := ext_parts (by simp) (by simp) (by simp) (by simp)
  emptySum := ext_parts (by simp) (by simp) (by simp) (by simp)
  add := fun _ _ => ext_parts (by simp) (by simp) (by simp) (by simp)
  sub := fun _ _ => ext_parts (by simp) (by simp) (by simp) (by simp)
  mul := swap_mul
  div := swap_div
  neg := fun _ => ext_parts (by simp) (by simp) (by simp) (by simp)
  sin := swap_sin
  cos := swap_cos
  exp := swap_exp
  log := swap_log
  sqrt := swap_sqrt
  abs := fun _ => ext_parts (by simp) (by simp) (by simp) (by simp)
  sign := fun _ => ext_parts (by simp) (by simp) (by simp) (by simp)

end Swap

end StagedTangent
