import StagedTangent.Proofs.Derivative.Contribution
import StagedTangent.Proofs.Evaluation.DualNumber

/-!
# The chain rule of each operation

Where an operation is applied to dual numbers, the change of its result is the sum of what the rules
contribute for the operands that change. There is one statement for operations of one operand,
`contribution_unary`, and three for operations of two, according to which of them changes.
-/

namespace StagedTangent

open TrivSqZeroExt
open scoped DualNumber

namespace Quantity

variable {R : Type}

/-- The values of dual numbers. -/
def primal (w : Quantity R[ε]) : Quantity R := w.map fst

/-- The changes of dual numbers. -/
def change (w : Quantity R[ε]) : Quantity R := w.map snd

/-- Dual numbers that do not change. -/
def still [Zero R] (a : Quantity R) : Quantity R[ε] := a.map inl

/-- The dual numbers with given values and changes, for quantities of one shape. -/
def along [CommRing R] (a v : Quantity R) : Quantity R[ε] := zipWith dual a v

/-- The inputs of which the one at a position changes as given and the others do not. -/
def seed [CommRing R] (inputs : List (Quantity R)) (position : Nat) (v : Quantity R) :
    List (Quantity R[ε]) :=
  inputs.mapIdx fun j a => if j = position then a.along v else a.still

theorem shape_primal (w : Quantity R[ε]) : w.primal.shape = w.shape := shape_map _ _

theorem shape_change (w : Quantity R[ε]) : w.change.shape = w.shape := shape_map _ _

theorem shape_still [Zero R] (a : Quantity R) : a.still.shape = a.shape := shape_map _ _

theorem change_zipWith {α β : Type} (f : α → β → R[ε]) (a : Quantity α) (b : Quantity β) :
    (zipWith f a b).change = zipWith (fun x y => (f x y).snd) a b := map_zipWith snd f a b

theorem primal_still [Zero R] (a : Quantity R) : a.still.primal = a := by
  cases a <;> simp [still, primal, map]

theorem primal_along [CommRing R] {a v : Quantity R} (h : v.shape = a.shape) :
    (a.along v).primal = a := by
  rw [along, primal, map_zipWith, zipWith_congr fun x y => fst_dual x y]
  rw [zipWith_left_of_shape_eq (fun x => x) h.symm]
  cases a <;> simp [map]

theorem change_along [CommRing R] {a v : Quantity R} (h : v.shape = a.shape) :
    (a.along v).change = v := by
  rw [along, change, map_zipWith, zipWith_congr fun x y => snd_dual x y]
  rw [zipWith_right_of_shape_eq (fun x => x) h.symm]
  cases v <;> simp [map]

theorem length_seed [CommRing R] (inputs : List (Quantity R)) (position : Nat) (v : Quantity R) :
    (seed inputs position v).length = inputs.length := List.length_mapIdx

/-- Seeded inputs have the given inputs as their values. -/
theorem map_primal_seed [CommRing R] {inputs : List (Quantity R)} {position : Nat}
    {a v : Quantity R} (ha : inputs[position]? = some a) (hv : v.shape = a.shape) :
    (seed inputs position v).map primal = inputs := by
  refine List.ext_getElem? fun j => ?_
  rw [seed, List.getElem?_map, List.getElem?_mapIdx, Option.map_map]
  cases hj : inputs[j]? with
  | none => rfl
  | some b =>
    rw [Option.map_some, Function.comp_apply]
    split
    · next heq =>
      rw [heq, ha] at hj
      cases hj
      rw [primal_along hv]
    · rw [primal_still]

end Quantity

open Quantity LawfulScalar

/-! ## Single contributions -/

variable {R : Type} [Scalar R]

theorem contribution_div_first {w : Quantity R[ε]} {a b : Quantity R} (h : Compatible w b) :
    contribution uniform .div 0 [a, b] w.change =
      some (zipWith (fun x y => Scalar.div x.snd y) w b) := by
  refine perform_eq_some.2 (uniform_div_eq_ok_iff.2 ⟨compatible_map_left.2 h, ?_⟩)
  rw [change, zipWith_map_left]

theorem perform_div_change (w : Quantity R[ε]) (g : R[ε] → R) :
    perform uniform .div [w.change, w.map g] = some (w.map fun x => Scalar.div x.snd (g x)) := by
  have hcompatible : Compatible w.change (w.map g) :=
    .of_shape_eq (by rw [shape_change, shape_map])
  refine perform_eq_some.2 (uniform_div_eq_ok_iff.2 ⟨hcompatible, ?_⟩)
  rw [change, zipWith_self]

variable [CommRing R] [LawfulScalar R]

theorem contribution_mul_first {w : Quantity R[ε]} {a b : Quantity R} (h : Compatible w b) :
    contribution uniform .mul 0 [a, b] w.change =
      some (zipWith (fun x y => x.snd * y) w b) := by
  refine perform_eq_some.2 (uniform_mul_eq_ok_iff.2 ⟨compatible_map_left.2 h, ?_⟩)
  rw [change, zipWith_map_left]
  exact zipWith_congr (fun x y => (mul_eq x.snd y).symm) w b

theorem contribution_mul_second {w : Quantity R[ε]} {a b : Quantity R} (h : Compatible a w) :
    contribution uniform .mul 1 [a, b] w.change =
      some (zipWith (fun x y => x * y.snd) a w) := by
  refine perform_eq_some.2 (uniform_mul_eq_ok_iff.2 ⟨compatible_map_right.2 h, ?_⟩)
  rw [change, zipWith_map_right]
  exact zipWith_congr (fun x y => (mul_eq x y.snd).symm) a w

theorem contribution_div_second {w : Quantity R[ε]} {a : Quantity R} (h : Compatible a w) :
    contribution uniform .div 1 [a, w.primal] w.change =
      some (zipWith (fun x y => -(y.snd * Scalar.div (Scalar.div x y.fst) y.fst)) a w) := by
  have hquotient : uniform .div [a, w.primal] =
      .ok (zipWith (fun x y => Scalar.div x y.fst) a w) := by
    refine uniform_div_eq_ok_iff.2 ⟨compatible_map_right.2 h, ?_⟩
    rw [primal, zipWith_map_right]
  have hscaled : uniform .div [zipWith (fun x y => Scalar.div x y.fst) a w, w.primal] =
      .ok (zipWith (fun x y => Scalar.div (Scalar.div x y.fst) y.fst) a w) := by
    refine uniform_div_eq_ok_iff.2 ⟨compatible_zipWith_right _ _ h, ?_⟩
    rw [primal, zipWith_zipWith_map_right]
  have hfactor : uniform .neg
      [zipWith (fun x y => Scalar.div (Scalar.div x y.fst) y.fst) a w] =
      .ok (zipWith (fun x y => Scalar.neg (Scalar.div (Scalar.div x y.fst) y.fst)) a w) :=
    congrArg Except.ok (map_zipWith _ _ a w)
  refine Option.bind_eq_some_iff.2 ⟨_, perform_eq_some.2 hquotient, ?_⟩
  refine Option.bind_eq_some_iff.2 ⟨_, perform_eq_some.2 hscaled, ?_⟩
  refine Option.bind_eq_some_iff.2 ⟨_, perform_eq_some.2 hfactor, ?_⟩
  refine perform_eq_some.2 (uniform_mul_eq_ok_iff.2 ⟨compatible_right_zipWith _ _ h, ?_⟩)
  rw [change, zipWith_map_zipWith_right]
  refine zipWith_congr (fun x y => ?_) a w
  rw [mul_eq, neg_eq, mul_neg]

/-- The change of a sum is the sum of the changes. -/
theorem change_sum (w : Quantity R[ε]) : w.sum.change = w.change.sum := by
  refine (sum_map ?_ (fun x y => ?_) w).symm
  · exact (emptySum_eq (R := R)).symm
  · exact (add_eq x.snd y.snd).symm

theorem contribution_dot_first {w : Quantity R[ε]} {a b : Quantity R} (h : w.shape = b.shape) :
    contribution uniform .dot 0 [a, b] w.change =
      some (zipWith (fun x y => x.snd * y) w b).sum := by
  refine perform_eq_some.2 (uniform_dot_eq_ok_iff.2 ⟨by rw [shape_change, h], ?_⟩)
  rw [change, zipWith_map_left]
  exact congrArg sum (zipWith_congr (fun x y => (mul_eq x.snd y).symm) w b)

theorem contribution_dot_second {w : Quantity R[ε]} {a b : Quantity R} (h : a.shape = w.shape) :
    contribution uniform .dot 1 [a, b] w.change =
      some (zipWith (fun x y => x * y.snd) a w).sum := by
  refine perform_eq_some.2 (uniform_dot_eq_ok_iff.2 ⟨by rw [shape_change, h], ?_⟩)
  rw [change, zipWith_map_right]
  exact congrArg sum (zipWith_congr (fun x y => (mul_eq x y.snd).symm) a w)

/-! ## Operations of one operand -/

theorem perform_mul_change (w : Quantity R[ε]) (g : R[ε] → R) :
    perform uniform .mul [w.change, w.map g] = some (w.map fun x => x.snd * g x) := by
  have hcompatible : Compatible w.change (w.map g) :=
    .of_shape_eq (by rw [shape_change, shape_map])
  refine perform_eq_some.2 (uniform_mul_eq_ok_iff.2 ⟨hcompatible, ?_⟩)
  rw [change, zipWith_self]
  exact map_congr w fun x => (mul_eq x.snd (g x)).symm

theorem perform_twice (w : Quantity R[ε]) (g : R[ε] → R) :
    perform uniform .add [w.map g, w.map g] = some (w.map fun x => g x + g x) := by
  refine perform_eq_some.2 (uniform_add_eq_ok_iff.2 ⟨rfl, ?_⟩)
  rw [zipWith_self]
  exact map_congr w fun x => (add_eq (g x) (g x)).symm

/-- The change of an operation of one operand is what that operand contributes. -/
theorem contribution_unary {op : Op} {w u : Quantity R[ε]} (hcount : 1 = op.arity)
    (hsmooth : op ≠ .abs) (h : uniform op [w] = .ok u) :
    contribution uniform op 0 [w.primal] w.change = some u.change := by
  match op, hcount, hsmooth, h with
  | .neg, _, _, rfl =>
    change some (w.change.map Scalar.neg) = some (w.map Scalar.neg).change
    rw [change, change, map_map, map_map]
    exact congrArg some (map_congr w fun x => neg_eq x.snd)
  | .sin, _, _, rfl =>
    change perform uniform .mul [w.change, w.primal.map Scalar.cos] = some (w.map Scalar.sin).change
    rw [primal, map_map, perform_mul_change, change, map_map]
    exact congrArg some (map_congr w fun x => (snd_sin x).symm)
  | .cos, _, _, rfl =>
    change perform uniform .mul [w.change, (w.primal.map Scalar.sin).map Scalar.neg] =
      some (w.map Scalar.cos).change
    rw [primal, map_map, map_map, perform_mul_change, change, map_map]
    refine congrArg some (map_congr w fun x => ?_)
    rw [snd_cos, neg_eq, mul_neg, neg_mul]
  | .exp, _, _, rfl =>
    change perform uniform .mul [w.change, w.primal.map Scalar.exp] = some (w.map Scalar.exp).change
    rw [primal, map_map, perform_mul_change, change, map_map]
    exact congrArg some (map_congr w fun x => (snd_exp x).symm)
  | .log, _, _, rfl =>
    change perform uniform .div [w.change, w.primal] = some (w.map Scalar.log).change
    rw [primal, perform_div_change, change, map_map]
    exact congrArg some (map_congr w fun x => (snd_log x).symm)
  | .sqrt, _, _, rfl =>
    have htwice : perform uniform .add
        [w.primal.map Scalar.sqrt, w.primal.map Scalar.sqrt] =
          some (w.map fun x => Scalar.sqrt x.fst + Scalar.sqrt x.fst) := by
      rw [primal, map_map, perform_twice]
    change ((perform uniform .add [w.primal.map Scalar.sqrt, w.primal.map Scalar.sqrt]).bind
      fun twice => perform uniform .div [w.change, twice]) = some (w.map Scalar.sqrt).change
    rw [htwice, Option.bind_some, perform_div_change, change, map_map]
    exact congrArg some (map_congr w fun x => (snd_sqrt x).symm)
  | .abs, _, hsmooth, _ => exact absurd rfl hsmooth
  | .sign, _, _, rfl =>
    change some (w.change.map fun _ => Scalar.zero) = some (w.map Scalar.sign).change
    rw [change, change, map_map, map_map]
    exact congrArg some (map_congr w fun _ => zero_eq)
  | .zeroLike, _, _, rfl =>
    change some (w.change.map fun _ => Scalar.zero) = some (w.map fun _ => Scalar.zero).change
    rw [change, change, map_map, map_map]
    exact congrArg some (map_congr w fun _ => zero_eq)
  | .sum, _, _, rfl => exact congrArg some (change_sum w).symm
  | .index place, _, _, h =>
    refine perform_eq_some.2 ?_
    have hmap : element place w.change = (element place w).map change := element_map place snd w
    change element place w.change = _
    rw [hmap, show element place w = .ok u from h]
    rfl
  | .circshift shift, _, _, rfl => exact congrArg some (circshift_map shift snd w)

/-! ## Operations of two operands -/

/-- Only the first operand changes. -/
theorem contribution_left {op : Op} {w u : Quantity R[ε]} {b : Quantity R} (hcount : 2 = op.arity)
    (h : uniform op [w, b.still] = .ok u) :
    contribution uniform op 0 [w.primal, b] w.change = some u.change := by
  match op, hcount, h with
  | .add, _, h =>
    obtain ⟨hshape, rfl⟩ := uniform_add_eq_ok_iff.1 h
    rw [shape_still] at hshape
    rw [change_zipWith, still, zipWith_map_right,
      zipWith_congr (g := fun x _ => x.snd) fun x y => by simp, zipWith_left_of_shape_eq snd hshape]
    rfl
  | .sub, _, h =>
    obtain ⟨hshape, rfl⟩ := uniform_sub_eq_ok_iff.1 h
    rw [shape_still] at hshape
    rw [change_zipWith, still, zipWith_map_right,
      zipWith_congr (g := fun x _ => x.snd) fun x y => by simp, zipWith_left_of_shape_eq snd hshape]
    rfl
  | .mul, _, h =>
    obtain ⟨hcompatible, rfl⟩ := uniform_mul_eq_ok_iff.1 h
    rw [contribution_mul_first (compatible_map_right.1 hcompatible), change_zipWith, still,
      zipWith_map_right]
    exact congrArg some (zipWith_congr (fun x y => by simp) w b)
  | .div, _, h =>
    obtain ⟨hcompatible, rfl⟩ := uniform_div_eq_ok_iff.1 h
    rw [contribution_div_first (compatible_map_right.1 hcompatible), change_zipWith, still,
      zipWith_map_right]
    exact congrArg some (zipWith_congr (fun x y => by simp) w b)
  | .dot, _, h =>
    obtain ⟨hshape, rfl⟩ := uniform_dot_eq_ok_iff.1 h
    rw [shape_still] at hshape
    rw [contribution_dot_first hshape, change_sum, change_zipWith, still, zipWith_map_right]
    exact congrArg (fun a => some (sum a)) (zipWith_congr (fun x y => by simp) w b)

/-- Only the second operand changes. -/
theorem contribution_right {op : Op} {w u : Quantity R[ε]} {a : Quantity R} (hcount : 2 = op.arity)
    (h : uniform op [a.still, w] = .ok u) :
    contribution uniform op 1 [a, w.primal] w.change = some u.change := by
  match op, hcount, h with
  | .add, _, h =>
    obtain ⟨hshape, rfl⟩ := uniform_add_eq_ok_iff.1 h
    rw [shape_still] at hshape
    rw [change_zipWith, still, zipWith_map_left,
      zipWith_congr (g := fun _ y => y.snd) fun x y => by simp, zipWith_right_of_shape_eq snd hshape]
    rfl
  | .sub, _, h =>
    obtain ⟨hshape, rfl⟩ := uniform_sub_eq_ok_iff.1 h
    rw [shape_still] at hshape
    rw [change_zipWith, still, zipWith_map_left,
      zipWith_congr (g := fun _ y => Scalar.neg y.snd) fun x y => by simp [neg_eq],
      zipWith_right_of_shape_eq _ hshape, ← map_map]
    rfl
  | .mul, _, h =>
    obtain ⟨hcompatible, rfl⟩ := uniform_mul_eq_ok_iff.1 h
    rw [contribution_mul_second (compatible_map_left.1 hcompatible), change_zipWith, still,
      zipWith_map_left]
    exact congrArg some (zipWith_congr (fun x y => by simp) a w)
  | .div, _, h =>
    obtain ⟨hcompatible, rfl⟩ := uniform_div_eq_ok_iff.1 h
    rw [contribution_div_second (compatible_map_left.1 hcompatible), change_zipWith, still,
      zipWith_map_left]
    exact congrArg some (zipWith_congr (fun x y => by simp [zero_div_eq]) a w)
  | .dot, _, h =>
    obtain ⟨hshape, rfl⟩ := uniform_dot_eq_ok_iff.1 h
    rw [shape_still] at hshape
    rw [contribution_dot_second hshape, change_sum, change_zipWith, still, zipWith_map_left]
    exact congrArg (fun a => some (sum a)) (zipWith_congr (fun x y => by simp) a w)

/-- The sum of two elementwise results on the same quantities. -/
theorem uniform_add_zipWith {α β : Type} (f g : α → β → R) (a : Quantity α) (b : Quantity β) :
    uniform .add [zipWith f a b, zipWith g a b] = .ok (zipWith (fun x y => f x y + g x y) a b) := by
  refine uniform_add_eq_ok_iff.2 ⟨by rw [shape_zipWith, shape_zipWith], ?_⟩
  rw [zipWith_zipWith]
  exact zipWith_congr (fun x y => (add_eq (f x y) (g x y)).symm) a b

theorem total_eq_sum (xs : List R) : Value.total xs = xs.sum := by
  have hadd : (Scalar.add : R → R → R) = fun x y => x + y := funext fun x => funext (add_eq x)
  rw [Value.total, emptySum_eq, hadd, List.sum_eq_foldl]

/-- The sum of two sums. -/
theorem uniform_add_sum {a b : Quantity R} (h : a.shape = b.shape) :
    uniform .add [a.sum, b.sum] = .ok (zipWith (fun x y => x + y) a b).sum := by
  rcases shape_eq_iff.1 h with ⟨x, y, rfl, rfl⟩ | ⟨xs, ys, rfl, rfl, hlength⟩
  · exact uniform_add_eq_ok_iff.2 ⟨rfl, congrArg scalar (add_eq x y).symm⟩
  · refine uniform_add_eq_ok_iff.2 ⟨rfl, congrArg scalar ?_⟩
    rw [add_eq, total_eq_sum, total_eq_sum, total_eq_sum]
    exact (List.sum_add_sum_eq_sum_zipWith_of_length_eq xs ys hlength).symm

/-- Both operands change. -/
theorem contribution_both {op : Op} {w w' u : Quantity R[ε]} (hcount : 2 = op.arity)
    (h : uniform op [w, w'] = .ok u) :
    ∃ c d, contribution uniform op 0 [w.primal, w'.primal] w.change = some c ∧
      contribution uniform op 1 [w.primal, w'.primal] w'.change = some d ∧
      uniform .add [c, d] = .ok u.change := by
  match op, hcount, h with
  | .add, _, h =>
    obtain ⟨hshape, rfl⟩ := uniform_add_eq_ok_iff.1 h
    refine ⟨_, _, rfl, rfl, uniform_add_eq_ok_iff.2 ⟨by rw [shape_change, shape_change, hshape], ?_⟩⟩
    rw [change_zipWith, change, change, zipWith_map]
    exact zipWith_congr (fun x y => by simp [add_eq]) w w'
  | .sub, _, h =>
    obtain ⟨hshape, rfl⟩ := uniform_sub_eq_ok_iff.1 h
    refine ⟨_, _, rfl, rfl, uniform_add_eq_ok_iff.2 ⟨?_, ?_⟩⟩
    · rw [shape_map, shape_change, shape_change, hshape]
    · rw [change_zipWith, change, change, map_map, zipWith_map]
      exact zipWith_congr (fun x y => by simp [add_eq, neg_eq, sub_eq_add_neg]) w w'
  | .mul, _, h =>
    obtain ⟨hcompatible, rfl⟩ := uniform_mul_eq_ok_iff.1 h
    refine ⟨_, _, contribution_mul_first (compatible_map_right.2 hcompatible),
      contribution_mul_second (compatible_map_left.2 hcompatible), ?_⟩
    rw [primal, primal, zipWith_map_right, zipWith_map_left, uniform_add_zipWith, change_zipWith]
    exact congrArg Except.ok (zipWith_congr (fun x y => by simp [add_comm]) w w')
  | .div, _, h =>
    obtain ⟨hcompatible, rfl⟩ := uniform_div_eq_ok_iff.1 h
    refine ⟨_, _, contribution_div_first (compatible_map_right.2 hcompatible),
      contribution_div_second (compatible_map_left.2 hcompatible), ?_⟩
    rw [primal, primal, zipWith_map_right, zipWith_map_left, uniform_add_zipWith, change_zipWith]
    exact congrArg Except.ok (zipWith_congr (fun x y => by simp [sub_eq_add_neg]) w w')
  | .dot, _, h =>
    obtain ⟨hshape, rfl⟩ := uniform_dot_eq_ok_iff.1 h
    refine ⟨_, _, contribution_dot_first (by rw [shape_primal, hshape]),
      contribution_dot_second (by rw [shape_primal, hshape]), ?_⟩
    rw [primal, primal, zipWith_map_right, zipWith_map_left, change_sum, change_zipWith,
      uniform_add_sum (by rw [shape_zipWith, shape_zipWith]), zipWith_zipWith]
    exact congrArg (fun a => Except.ok (sum a)) (zipWith_congr (fun x y => by simp [add_comm]) w w')

end StagedTangent
