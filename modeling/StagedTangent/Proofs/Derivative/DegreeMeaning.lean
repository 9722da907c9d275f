import StagedTangent.Proofs.Derivative.Degree
import StagedTangent.Proofs.Evaluation.DualNumber
import StagedTangent.Proofs.Evaluation.Varying

/-!
# What degrees mean

Let one direction run through the combinations of two given ones, and evaluate over scalars that
vary with the coefficients. `Degree.Of` says how a scalar of a degree varies then: a linear one is
the combination of its values at the two directions. Every operation respects this (`holds_apply`),
for any functions in the place of the elementary ones.
-/

namespace StagedTangent

variable {R : Type} [CommRing R]

namespace Degree

/-- How a scalar of a degree varies with the coefficients of a combination of two directions. -/
def Of : Degree → (R × R → R) → Prop
  | zero, f => ∀ c, f c = 0
  | constant, f => ∀ c, f c = f (1, 0)
  | linear, f => ∀ c, f c = c.1 * f (1, 0) + c.2 * f (0, 1)

/-- How a value of a degree varies. A closure may only stand where nothing does. -/
def Holds : Degree → Value (R × R → R) → Prop
  | g, .scalar f => g.Of f
  | g, .vector fs => ∀ f ∈ fs, g.Of f
  | g, .closure _ => g = constant

variable {a b g : Degree} {f f' : R × R → R}

/-- What is zero has every degree. -/
theorem Of.of_zero (h : zero.Of f) (g : Degree) : g.Of f := by
  cases g with
  | zero => exact h
  | constant => exact fun c => (h c).trans (h (1, 0)).symm
  | linear =>
    intro c
    rw [h, h, h, mul_zero, mul_zero, add_zero]

theorem Of.within (h : a.Of f) (hwithin : a.Within g) : g.Of f := by
  rcases hwithin with rfl | rfl
  · exact h.of_zero g
  · exact h

/-- What does not vary linearly does not vary. -/
theorem Of.constant_of_ne (h : a.Of f) (hne : a ≠ linear) : constant.Of f := by
  cases a with
  | zero => exact h.of_zero constant
  | constant => exact h
  | linear => exact absurd rfl hne

theorem Of.comp (h : constant.Of f) (u : R → R) : constant.Of fun c => u (f c) :=
  fun c => congrArg u (h c)

theorem Of.add (h : g.Of f) (h' : g.Of f') : g.Of fun c => f c + f' c := by
  cases g with
  | zero =>
    intro c
    change f c + f' c = 0
    rw [h c, h' c, add_zero]
  | constant =>
    intro c
    change f c + f' c = f (1, 0) + f' (1, 0)
    rw [h c, h' c]
  | linear =>
    intro c
    change f c + f' c = c.1 * (f (1, 0) + f' (1, 0)) + c.2 * (f (0, 1) + f' (0, 1))
    rw [h c, h' c]
    ring

/-- A factor that does not vary. -/
theorem Of.mul (h : g.Of f) (h' : constant.Of f') : g.Of fun c => f c * f' c := by
  cases g with
  | zero =>
    intro c
    change f c * f' c = 0
    rw [h c, zero_mul]
  | constant =>
    intro c
    change f c * f' c = f (1, 0) * f' (1, 0)
    rw [h c, h' c]
  | linear =>
    intro c
    change f c * f' c = c.1 * (f (1, 0) * f' (1, 0)) + c.2 * (f (0, 1) * f' (0, 1))
    rw [h c, h' c, h' (0, 1)]
    ring

theorem Of.neg (h : g.Of f) : g.Of fun c => -f c := by
  have hneg : g.Of fun c => f c * -1 := h.mul fun _ => rfl
  simpa only [mul_neg, mul_one] using hneg

theorem Of.zero_mul (h : zero.Of f) (f' : R × R → R) : zero.Of fun c => f c * f' c := by
  intro c
  change f c * f' c = 0
  rw [h c, MulZeroClass.zero_mul]

/-! ## The operations on degrees -/

theorem join_within : ∀ {a b g : Degree}, a.join b = some g → a.Within g ∧ b.Within g := by
  decide

theorem of_product : ∀ {a b g : Degree}, a.product b = some g →
    g = zero ∧ (a = zero ∨ b = zero) ∨ a = g ∧ b ≠ linear ∨ b = g ∧ a ≠ linear := by
  decide

theorem of_quotient : ∀ {a b g : Degree}, a.quotient b = some g → a = g ∧ b ≠ linear := by
  decide

theorem of_unknown : ∀ {a g : Degree}, a.unknown = some g → a ≠ linear ∧ g = constant := by
  decide

theorem Of.unknown (hg : a.unknown = some g) (h : a.Of f) (u : R → R) :
    g.Of fun c => u (f c) := by
  obtain ⟨hne, rfl⟩ := of_unknown hg
  exact (h.constant_of_ne hne).comp u

/-! ## Elementwise -/

variable {u v w : Value (R × R → R)}

theorem Holds.mapElements {op : Opcode} {k : (R × R → R) → R × R → R}
    (hk : ∀ f, a.Of f → g.Of (k f)) (h : a.Holds v) (hw : Value.mapElements op k v = .ok w) :
    g.Holds w := by
  cases v with
  | scalar f =>
    cases hw
    exact hk f h
  | vector fs =>
    cases hw
    intro f' hf'
    obtain ⟨f, hf, rfl⟩ := List.mem_map.1 hf'
    exact hk f (h f hf)
  | closure c => cases hw

theorem of_mem_zipWith {k : (R × R → R) → (R × R → R) → R × R → R} {fs fs' : List (R × R → R)}
    (hk : ∀ f f', a.Of f → b.Of f' → g.Of (k f f')) (h : ∀ f ∈ fs, a.Of f)
    (h' : ∀ f ∈ fs', b.Of f) : ∀ f ∈ fs.zipWith k fs', g.Of f := by
  intro f hf
  obtain ⟨i, hi, rfl⟩ := List.mem_iff_getElem.1 hf
  rw [List.getElem_zipWith]
  exact hk _ _ (h _ (List.getElem_mem _)) (h' _ (List.getElem_mem _))

theorem Holds.zipElements {op : Opcode} {k : (R × R → R) → (R × R → R) → R × R → R}
    (hk : ∀ f f', a.Of f → b.Of f' → g.Of (k f f')) (h : a.Holds u) (h' : b.Holds v)
    (hw : Value.zipElements op k u v = .ok w) : g.Holds w := by
  cases u with
  | closure c => cases v <;> cases hw
  | scalar f =>
    cases v with
    | closure c => cases hw
    | scalar f' =>
      cases hw
      exact hk f f' h h'
    | vector fs' =>
      cases hw
      intro f'' hf''
      obtain ⟨f', hf', rfl⟩ := List.mem_map.1 hf''
      exact hk f f' h (h' f' hf')
  | vector fs =>
    cases v with
    | closure c => cases hw
    | scalar f' =>
      cases hw
      intro f'' hf''
      obtain ⟨f, hf, rfl⟩ := List.mem_map.1 hf''
      exact hk f f' (h f hf) h'
    | vector fs' =>
      simp only [Value.zipElements] at hw
      split at hw
      · cases hw
        exact of_mem_zipWith hk h h'
      · cases hw

theorem Holds.element {place : Nat} (h : g.Holds v) (hw : Value.element place v = .ok w) :
    g.Holds w := by
  cases v with
  | scalar f => cases hw
  | closure c => cases hw
  | vector fs =>
    simp only [Value.element] at hw
    split at hw
    · next f hf =>
      cases hw
      exact h f (List.mem_of_getElem? hf)
    · cases hw

theorem Holds.circshift {shift : Int} (h : g.Holds v) (hw : Value.circshift shift v = .ok w) :
    g.Holds w := by
  cases v with
  | scalar f =>
    cases hw
    exact h
  | vector fs =>
    cases hw
    intro f hf
    rcases List.mem_append.1 hf with hf | hf
    · exact h f (List.mem_of_mem_drop hf)
    · exact h f (List.mem_of_mem_take hf)
  | closure c => cases hw

section Scalars

variable [Scalar R] [LawfulScalar R]

/-! ## The operations on scalars -/

theorem Of.scalar_add (hg : a.join b = some g) (h : a.Of f) (h' : b.Of f') :
    g.Of (Scalar.add f f') := by
  obtain ⟨ha, hb⟩ := join_within hg
  have hsum : Scalar.add f f' = fun c => f c + f' c := funext fun c => LawfulScalar.add_eq _ _
  rw [hsum]
  exact (h.within ha).add (h'.within hb)

theorem Of.scalar_neg (h : g.Of f) : g.Of (Scalar.neg f) := by
  have hneg : Scalar.neg f = fun c => -f c := funext fun c => LawfulScalar.neg_eq _
  rw [hneg]
  exact h.neg

theorem Of.scalar_sub (hg : a.join b = some g) (h : a.Of f) (h' : b.Of f') :
    g.Of (Scalar.sub f f') := by
  obtain ⟨ha, hb⟩ := join_within hg
  have hdifference : Scalar.sub f f' = fun c => f c + -f' c :=
    funext fun c => (LawfulScalar.sub_eq _ _).trans (sub_eq_add_neg _ _)
  rw [hdifference]
  exact (h.within ha).add (h'.within hb).neg

theorem Of.scalar_mul (hg : a.product b = some g) (h : a.Of f) (h' : b.Of f') :
    g.Of (Scalar.mul f f') := by
  have hproduct : Scalar.mul f f' = fun c => f c * f' c := funext fun c => LawfulScalar.mul_eq _ _
  have hswap : (fun c => f c * f' c) = fun c => f' c * f c := funext fun c => mul_comm _ _
  rw [hproduct]
  rcases of_product hg with ⟨rfl, rfl | rfl⟩ | ⟨rfl, hne⟩ | ⟨rfl, hne⟩
  · exact h.zero_mul f'
  · rw [hswap]
    exact h'.zero_mul f
  · exact h.mul (h'.constant_of_ne hne)
  · rw [hswap]
    exact h'.mul (h.constant_of_ne hne)

theorem Of.scalar_div (hg : a.quotient b = some g) (h : a.Of f) (h' : b.Of f') :
    g.Of (Scalar.div f f') := by
  obtain ⟨rfl, hne⟩ := of_quotient hg
  have hquotient : Scalar.div f f' = fun c => f c * reciprocal (f' c) :=
    funext fun c => div_eq_mul _ _
  rw [hquotient]
  exact h.mul ((h'.constant_of_ne hne).comp reciprocal)

theorem of_scalar_zero (g : Degree) : g.Of (Scalar.zero : R × R → R) :=
  Of.of_zero (fun _ => LawfulScalar.zero_eq) g

theorem Of.total {fs : List (R × R → R)} (h : ∀ f ∈ fs, g.Of f) : g.Of (Value.total fs) := by
  have hfold : ∀ start : R × R → R, g.Of start → g.Of (fs.foldl Scalar.add start) := by
    induction fs with
    | nil => exact fun start hstart => hstart
    | cons f fs ih =>
      intro start hstart
      refine ih (fun f' hf' => h f' (List.mem_cons_of_mem _ hf')) (Scalar.add start f) ?_
      have hsum : Scalar.add start f = fun c => start c + f c :=
        funext fun c => LawfulScalar.add_eq _ _
      rw [hsum]
      exact hstart.add (h f (List.mem_cons_self ..))
  exact hfold _ (Of.of_zero (fun _ => LawfulScalar.emptySum_eq) g)

theorem Holds.dotProduct (hg : a.product b = some g) (h : a.Holds u) (h' : b.Holds v)
    (hw : Value.dotProduct u v = .ok w) : g.Holds w := by
  have hk : ∀ f f' : R × R → R, a.Of f → b.Of f' → g.Of (Scalar.mul f f') :=
    fun _ _ => Of.scalar_mul hg
  cases u with
  | closure c => cases v <;> cases hw
  | scalar f =>
    cases v with
    | scalar f' =>
      cases hw
      exact hk f f' h h'
    | vector fs' => cases hw
    | closure c => cases hw
  | vector fs =>
    cases v with
    | scalar f' => cases hw
    | closure c => cases hw
    | vector fs' =>
      simp only [Value.dotProduct] at hw
      split at hw
      · cases hw
        exact Of.total (of_mem_zipWith hk h h')
      · cases hw

theorem Holds.sumElements (h : g.Holds v) (hw : Value.sumElements v = .ok w) : g.Holds w := by
  cases v with
  | scalar f =>
    cases hw
    exact h
  | vector fs =>
    cases hw
    exact Of.total h
  | closure c => cases hw

/-- An operation on values that vary as their degrees say yields one that varies as its degree
says. -/
theorem holds_apply {op : Op} {degrees : List Degree} {vs : List (Value (R × R → R))}
    (h : List.Forall₂ Holds degrees vs) (hg : apply op degrees = .ok g)
    (hv : Value.apply op vs = .ok v) : g.Holds v := by
  match op, degrees, vs, h, hg with
  | .constant _, [], [], _, hg =>
    cases hg
    cases hv
    exact fun _ => rfl
  | .add, [a, b], [_, _], .cons ha (.cons hb .nil), hg =>
    exact Holds.zipElements (fun _ _ => Of.scalar_add (orFail_eq_ok.1 hg)) ha hb hv
  | .sub, [a, b], [_, _], .cons ha (.cons hb .nil), hg =>
    exact Holds.zipElements (fun _ _ => Of.scalar_sub (orFail_eq_ok.1 hg)) ha hb hv
  | .mul, [a, b], [_, _], .cons ha (.cons hb .nil), hg =>
    exact Holds.zipElements (fun _ _ => Of.scalar_mul (orFail_eq_ok.1 hg)) ha hb hv
  | .div, [a, b], [_, _], .cons ha (.cons hb .nil), hg =>
    exact Holds.zipElements (fun _ _ => Of.scalar_div (orFail_eq_ok.1 hg)) ha hb hv
  | .dot, [a, b], [_, _], .cons ha (.cons hb .nil), hg =>
    exact Holds.dotProduct (orFail_eq_ok.1 hg) ha hb hv
  | .neg, [a], [_], .cons ha .nil, hg =>
    cases hg
    exact Holds.mapElements (fun _ => Of.scalar_neg) ha hv
  | .sum, [a], [_], .cons ha .nil, hg =>
    cases hg
    exact Holds.sumElements ha hv
  | .index place, [a], [_], .cons ha .nil, hg =>
    cases hg
    exact Holds.element ha hv
  | .circshift shift, [a], [_], .cons ha .nil, hg =>
    cases hg
    exact Holds.circshift ha hv
  | .sin, [a], [_], .cons ha .nil, hg =>
    exact Holds.mapElements (fun _ h => h.unknown (orFail_eq_ok.1 hg) Scalar.sin) ha hv
  | .cos, [a], [_], .cons ha .nil, hg =>
    exact Holds.mapElements (fun _ h => h.unknown (orFail_eq_ok.1 hg) Scalar.cos) ha hv
  | .exp, [a], [_], .cons ha .nil, hg =>
    exact Holds.mapElements (fun _ h => h.unknown (orFail_eq_ok.1 hg) Scalar.exp) ha hv
  | .log, [a], [_], .cons ha .nil, hg =>
    exact Holds.mapElements (fun _ h => h.unknown (orFail_eq_ok.1 hg) Scalar.log) ha hv
  | .sqrt, [a], [_], .cons ha .nil, hg =>
    exact Holds.mapElements (fun _ h => h.unknown (orFail_eq_ok.1 hg) Scalar.sqrt) ha hv
  | .abs, [a], [_], .cons ha .nil, hg =>
    exact Holds.mapElements (fun _ h => h.unknown (orFail_eq_ok.1 hg) Scalar.abs) ha hv
  | .sign, [a], [_], .cons ha .nil, hg =>
    exact Holds.mapElements (fun _ h => h.unknown (orFail_eq_ok.1 hg) Scalar.sign) ha hv
  | .zeroLike, [a], [_], .cons ha .nil, hg =>
    cases hg
    exact Holds.mapElements (fun _ _ => of_scalar_zero zero) ha hv

end Scalars

end Degree

end StagedTangent
