import Mathlib.Data.Fintype.Prod
import StagedTangent.Proofs.Derivative.Differential

/-!
# Degrees in a direction

How a node depends on one direction is settled by its degree: it does not depend on it, is linear in
it, or is zero whatever it is. Degrees are computed as values are, by reading the operations over
`Degree`; an operation that would leave these three behind has no degree. Differentiation respects
them. A tangent has the degree of its node or is zero, and along the direction itself, on which
nothing has depended before, it is linear or zero. By `exists_degree_of_derivatives` the result of a
repeated derivative is linear in each of its directions, or zero.
-/

namespace StagedTangent

/-- How something depends on a direction. -/
inductive Degree where
  /-- It is zero for every direction. -/
  | zero
  /-- It is the same for every direction. -/
  | constant
  /-- It is linear in the direction. -/
  | linear
deriving DecidableEq

namespace Degree

instance : Fintype Degree where
  elems := {zero, constant, linear}
  complete := fun g => by cases g <;> decide

/-- The degree of a sum or a difference. -/
def join : Degree → Degree → Option Degree
  | zero, g => some g
  | g, zero => some g
  | constant, constant => some constant
  | linear, linear => some linear
  | _, _ => none

/-- The degree of a product. -/
def product : Degree → Degree → Option Degree
  | zero, _ => some zero
  | _, zero => some zero
  | constant, g => some g
  | g, constant => some g
  | linear, linear => none

/-- The degree of a quotient. -/
def quotient : Degree → Degree → Option Degree
  | _, linear => none
  | g, _ => some g

/-- The degree of a function of which nothing is known. -/
def unknown : Degree → Option Degree
  | linear => none
  | _ => some constant

/-- A degree that an operation may not have. -/
def orFail (op : Op) : Option Degree → Except RunError Degree
  | some g => .ok g
  | none => .error (.wrongKind op.opcode .ofOneKind .scalar)

/-- The operations on degrees. -/
def apply (op : Op) (degrees : List Degree) : Except RunError Degree :=
  match op, degrees with
  | .constant _, [] => .ok constant
  | .add, [a, b] | .sub, [a, b] => orFail op (a.join b)
  | .mul, [a, b] | .dot, [a, b] => orFail op (a.product b)
  | .div, [a, b] => orFail op (a.quotient b)
  | .neg, [a] | .sum, [a] | .index _, [a] | .circshift _, [a] => .ok a
  | .sin, [a] | .cos, [a] | .exp, [a] | .log, [a] | .sqrt, [a] | .abs, [a] | .sign, [a] =>
    orFail op a.unknown
  | .zeroLike, [_] => .ok zero
  | op, degrees => .error (.valueCount 0 op.arity degrees.length)

/-- A degree, or zero. -/
def Within (c g : Degree) : Prop := c = zero ∨ c = g

instance (c g : Degree) : Decidable (c.Within g) := inferInstanceAs (Decidable (_ ∨ _))

/-- The degree of a tangent along a direction with a degree of its own: that of the node if the
direction does not vary, and linear if it does. -/
def along : Degree → Degree → Degree
  | linear, _ => linear
  | _, g => g

theorem orFail_eq_ok {op : Op} {g : Option Degree} {c : Degree} :
    orFail op g = .ok c ↔ g = some c := by
  cases g <;> simp [orFail]

theorem perform_orFail (op : Op) (g : Option Degree) : (orFail op g).toOption = g := by
  cases g <;> rfl

/-! ## What a rule contributes -/

/-- Two contributions have a sum. -/
theorem exists_join : ∀ {a b g : Degree}, a.Within g → b.Within g →
    ∃ c, a.join b = some c ∧ c.Within g := by
  decide

theorem within_of_join : ∀ {a b g t direction : Degree}, a.join b = some g →
    t.Within (direction.along a) ∨ t.Within (direction.along b) → t.Within (direction.along g) := by
  decide

theorem exists_product : ∀ {a b g t direction : Degree}, a.product b = some g →
    (direction = linear → b ≠ linear) → t.Within (direction.along a) →
    ∃ c, t.product b = some c ∧ c.Within (direction.along g) := by
  decide

theorem product_comm : ∀ a b : Degree, a.product b = b.product a := by
  decide

theorem exists_quotient : ∀ {a b g t direction : Degree}, a.quotient b = some g →
    t.Within (direction.along a) → ∃ c, t.quotient b = some c ∧ c.Within (direction.along g) := by
  decide

/-- The factor of a divisor has the degree of the quotient. -/
theorem exists_factor : ∀ {a b g t direction : Degree}, a.quotient b = some g →
    (direction = linear → a ≠ linear) → t.Within (direction.along b) →
    g.quotient b = some g ∧ ∃ c, t.product g = some c ∧ c.Within (direction.along g) := by
  decide

/-- The factor of a function of which nothing is known is constant. -/
theorem exists_unknown : ∀ {a g t direction : Degree}, a.unknown = some g →
    t.Within (direction.along a) → a.unknown = some constant ∧
      ∃ c, t.product constant = some c ∧ t.quotient constant = some c ∧ t.quotient a = some c ∧
        c.Within (direction.along g) := by
  decide

/-- What an operand contributes has a degree, the one that the tangent of the operation is to
have. -/
theorem contribution_degree {op : Op} {position : Nat} {degrees : List Degree}
    {g v t direction : Degree} (hcount : degrees.length = op.arity) (hsmooth : op ≠ .abs)
    (hg : apply op degrees = .ok g) (hfresh : direction = linear → ∀ a ∈ degrees, a ≠ linear)
    (hv : degrees[position]? = some v) (ht : t.Within (direction.along v)) :
    ∃ c, contribution apply op position degrees t = some c ∧ c.Within (direction.along g) := by
  have hfirst : ∀ {a b : Degree}, degrees = [a, b] → direction = linear → a ≠ linear := by
    rintro a b rfl hdirection
    exact hfresh hdirection a (by simp)
  have hsecond : ∀ {a b : Degree}, degrees = [a, b] → direction = linear → b ≠ linear := by
    rintro a b rfl hdirection
    exact hfresh hdirection b (by simp)
  match op, degrees, hcount, position, hv with
  | .constant _, [], _, _, hv => cases hv
  | .abs, _, _, _, _ => exact absurd rfl hsmooth
  | .add, [a, b], _, 0, rfl | .sub, [a, b], _, 0, rfl =>
    exact ⟨t, rfl, within_of_join (orFail_eq_ok.1 hg) (.inl ht)⟩
  | .add, [a, b], _, 1, rfl | .sub, [a, b], _, 1, rfl =>
    exact ⟨t, rfl, within_of_join (orFail_eq_ok.1 hg) (.inr ht)⟩
  | .mul, [a, b], _, 0, rfl | .dot, [a, b], _, 0, rfl =>
    obtain ⟨c, hc, hwithin⟩ := exists_product (orFail_eq_ok.1 hg) (hsecond rfl) ht
    exact ⟨c, (perform_orFail _ _).trans hc, hwithin⟩
  | .mul, [a, b], _, 1, rfl | .dot, [a, b], _, 1, rfl =>
    have hswap : b.product a = some g := (product_comm b a).trans (orFail_eq_ok.1 hg)
    obtain ⟨c, hc, hwithin⟩ := exists_product hswap (hfirst rfl) ht
    exact ⟨c, (perform_orFail _ _).trans ((product_comm a t).trans hc), hwithin⟩
  | .div, [a, b], _, 0, rfl =>
    obtain ⟨c, hc, hwithin⟩ := exists_quotient (orFail_eq_ok.1 hg) ht
    exact ⟨c, (perform_orFail _ _).trans hc, hwithin⟩
  | .div, [a, b], _, 1, rfl =>
    obtain ⟨hscaled, c, hc, hwithin⟩ := exists_factor (orFail_eq_ok.1 hg) (hfirst rfl) ht
    refine ⟨c, ?_, hwithin⟩
    have hquotient : perform apply .div [a, b] = some g :=
      (perform_orFail _ _).trans (orFail_eq_ok.1 hg)
    have hagain : perform apply .div [g, b] = some g := (perform_orFail _ _).trans hscaled
    have hproduct : perform apply .mul [t, g] = some c := (perform_orFail _ _).trans hc
    simp only [contribution, hquotient, hagain, Option.bind_eq_bind, Option.bind_some]
    exact hproduct
  | .sin, [a], _, 0, rfl | .exp, [a], _, 0, rfl | .cos, [a], _, 0, rfl =>
    obtain ⟨hfactor, c, hc, -, -, hwithin⟩ := exists_unknown (orFail_eq_ok.1 hg) ht
    refine ⟨c, ?_, hwithin⟩
    have hsin : perform apply .sin [a] = some constant := (perform_orFail .sin _).trans hfactor
    have hcos : perform apply .cos [a] = some constant := (perform_orFail .cos _).trans hfactor
    have hexp : perform apply .exp [a] = some constant := (perform_orFail .exp _).trans hfactor
    simp only [contribution, hsin, hcos, hexp]
    exact (perform_orFail .mul _).trans hc
  | .log, [a], _, 0, rfl =>
    obtain ⟨-, c, -, -, hc, hwithin⟩ := exists_unknown (orFail_eq_ok.1 hg) ht
    exact ⟨c, (perform_orFail _ _).trans hc, hwithin⟩
  | .sqrt, [a], _, 0, rfl =>
    obtain ⟨hfactor, c, -, hc, -, hwithin⟩ := exists_unknown (orFail_eq_ok.1 hg) ht
    refine ⟨c, ?_, hwithin⟩
    have hroot : perform apply .sqrt [a] = some constant := (perform_orFail .sqrt _).trans hfactor
    simp only [contribution, hroot]
    exact (perform_orFail .div _).trans hc
  | .neg, [a], _, 0, rfl | .sum, [a], _, 0, rfl | .index _, [a], _, 0, rfl
  | .circshift _, [a], _, 0, rfl =>
    cases hg
    exact ⟨t, rfl, ht⟩
  | .zeroLike, [a], _, 0, rfl | .sign, [a], _, 0, rfl => exact ⟨zero, rfl, .inl rfl⟩

theorem within_along_constant : ∀ direction : Degree,
    direction.Within (direction.along constant) := by
  decide

/-! ## Before the direction is there -/

theorem exists_join_ne : ∀ {a b : Degree}, a ≠ linear → b ≠ linear →
    ∃ g, a.join b = some g ∧ g ≠ linear := by
  decide

theorem exists_product_ne : ∀ {a b : Degree}, a ≠ linear → b ≠ linear →
    ∃ g, a.product b = some g ∧ g ≠ linear := by
  decide

theorem exists_quotient_ne : ∀ {a b : Degree}, a ≠ linear → b ≠ linear →
    ∃ g, a.quotient b = some g ∧ g ≠ linear := by
  decide

theorem exists_unknown_ne : ∀ {a : Degree}, a ≠ linear → ∃ g, a.unknown = some g ∧ g ≠ linear := by
  decide

/-- On what is the same for every direction all operations have a degree, and it is not linear. -/
theorem exists_apply_ne {op : Op} {degrees : List Degree} (hcount : degrees.length = op.arity)
    (h : ∀ a ∈ degrees, a ≠ linear) : ∃ g, apply op degrees = .ok g ∧ g ≠ linear := by
  have hdefined : ∀ {op : Op} {g? : Option Degree}, (∃ g, g? = some g ∧ g ≠ linear) →
      ∃ g, orFail op g? = .ok g ∧ g ≠ linear :=
    fun ⟨g, hg, hne⟩ => ⟨g, orFail_eq_ok.2 hg, hne⟩
  match op, degrees, hcount with
  | .constant _, [], _ => exact ⟨constant, rfl, by decide⟩
  | .zeroLike, [a], _ => exact ⟨zero, rfl, by decide⟩
  | .add, [a, b], _ | .sub, [a, b], _ =>
    exact hdefined (exists_join_ne (h a (by simp)) (h b (by simp)))
  | .mul, [a, b], _ | .dot, [a, b], _ =>
    exact hdefined (exists_product_ne (h a (by simp)) (h b (by simp)))
  | .div, [a, b], _ => exact hdefined (exists_quotient_ne (h a (by simp)) (h b (by simp)))
  | .neg, [a], _ | .sum, [a], _ | .index _, [a], _ | .circshift _, [a], _ =>
    exact ⟨a, rfl, h a (by simp)⟩
  | .sin, [a], _ | .cos, [a], _ | .exp, [a], _ | .log, [a], _ | .sqrt, [a], _ | .abs, [a], _
  | .sign, [a], _ => exact hdefined (exists_unknown_ne (h a (by simp)))

end Degree

namespace Program

open Degree

variable {p d : Program} {x position : Nat} {tangent : Nat → Option Nat} {degrees : List Degree}

/-- Where no input varies with the direction, every node has a degree, and it is not linear. -/
theorem exists_degree (hp : p.Regular) (hlength : degrees.length = p.arguments.length)
    (h : ∀ g ∈ degrees, g ≠ linear) {node : Nat} (hnode : node < p.nodes.length) :
    ∃ g, p.value? apply degrees node = some g ∧ g ≠ linear := by
  induction node using Nat.strongRecOn with
  | ind node ih =>
    obtain ⟨entry, hentry⟩ : ∃ entry, p.nodes[node]? = some entry :=
      ⟨_, List.getElem?_eq_getElem hnode⟩
    cases entry with
    | argument argument =>
      obtain ⟨g, hg⟩ : ∃ g, p.value? apply degrees node = some g :=
        exists_value?_argument hp hlength hentry
      refine ⟨g, hg, h g ?_⟩
      rw [value?_argument hentry] at hg
      exact List.mem_of_getElem? hg
    | call op operands =>
      have hoperands : ∀ o ∈ operands, ∃ g, p.value? apply degrees o = some g ∧ g ≠ linear :=
        fun o ho => ih o (hp.operand_lt hentry ho) (hp.operand_lt_length hentry ho)
      obtain ⟨gs, hgs⟩ := exists_mapM_eq_some fun o ho => (hoperands o ho).imp fun _ hg => hg.1
      have hne : ∀ a ∈ gs, a ≠ linear := by
        intro a ha
        obtain ⟨o, ho, hvalue⟩ := exists_of_mem_mapM hgs a ha
        obtain ⟨g, hg, hne⟩ := hoperands o ho
        rwa [Option.some.inj (hvalue.symm.trans hg)]
      obtain ⟨g, hg, hresult⟩ :=
        exists_apply_ne ((length_of_mapM_eq_some hgs).trans (hp.operand_count hentry)) hne
      exact ⟨g, (value?_call_eq_some hp hentry).2 ⟨gs, hgs, hg⟩, hresult⟩

namespace Differential

/-- The tangent of a call has a value with a property if its operands contribute values with that
property and sums keep it. -/
theorem exists_value?_callTangent (h : p.Differential x tangent d) {V : Type}
    {interpret : Op → List V → Except RunError V} {inputs vs : List V} {op : Op}
    {operands : List Nat} {t : Nat} {property : V → Prop}
    (hcall : CallTangent d.nodes tangent op operands t)
    (hvs : operands.mapM (d.value? interpret inputs) = some vs)
    (hoperands : ∀ position o t' : Nat, operands[position]? = some o → tangent o = some t' →
      ∃ c e, d.value? interpret inputs t' = some c ∧
        contribution interpret op position vs c = some e ∧ property e)
    (hsum : ∀ a b, property a → property b → ∃ c, interpret .add [a, b] = .ok c ∧ property c) :
    ∃ c, d.value? interpret inputs t = some c ∧ property c := by
  have hcontribution : ∀ {position o t' node : Nat}, operands[position]? = some o →
      tangent o = some t' → Contributed d.nodes op position operands t' node →
      ∃ e, d.value? interpret inputs node = some e ∧ property e := by
    intro position o t' node ho ht' hcontributed
    obtain ⟨c, e, hc, he, hproperty⟩ := hoperands position o t' ho ht'
    refine ⟨e, ?_, hproperty⟩
    rw [value?, hcontributed.value hvs, ← value?, hc, Option.bind_some, he]
  cases hcall with
  | unary ha hcontributed => exact hcontribution rfl ha hcontributed
  | left ha _ hcontributed => exact hcontribution rfl ha hcontributed
  | right _ hb hcontributed => exact hcontribution rfl hb hcontributed
  | both ha hb hfirst hsecond hnode _ _ =>
    obtain ⟨a, hvalue, hproperty⟩ := hcontribution rfl ha hfirst
    obtain ⟨b, hvalue', hproperty'⟩ := hcontribution rfl hb hsecond
    obtain ⟨c, hc, hproperty''⟩ := hsum a b hproperty hproperty'
    exact ⟨c, (value?_call_eq_some h.regular hnode).2
      ⟨[a, b], mapM_pair_eq_some.2 ⟨a, b, rfl, hvalue, hvalue'⟩, hc⟩, hproperty''⟩

section

variable (h : p.Differential x tangent d) (hp : p.Regular) (hx : p.arguments[position]? = some x)
  (hlength : degrees.length = p.arguments.length) (hconstant : degrees[position]? = some constant)
  {direction : Degree}
  (hfresh : direction = linear → ∀ g ∈ degrees, g ≠ linear)

include h hp hx hlength hconstant hfresh

/-- The tangent of a node along a direction has a degree. -/
theorem exists_tangent_degree {node t : Nat} {g : Degree} (ht : tangent node = some t)
    (hg : p.value? apply degrees node = some g) :
    ∃ c, d.value? apply (degrees ++ [direction]) t = some c ∧ c.Within (direction.along g) := by
  induction node using Nat.strongRecOn generalizing t g with
  | ind node ih =>
    rcases h.self_or_call hp ht with ⟨rfl, rfl⟩ | ⟨op, operands, hentry, hsmooth, hneeded, hcall⟩
    · rw [value?_argument (hp.argument_at hx), hconstant] at hg
      obtain rfl := Option.some.inj hg
      exact ⟨direction, h.value?_direction hlength, within_along_constant direction⟩
    · obtain ⟨gs, hgs, hop⟩ := (value?_call_eq_some hp hentry).1 hg
      have hcount := (length_of_mapM_eq_some hgs).trans (hp.operand_count hentry)
      have hvs : operands.mapM (d.value? apply (degrees ++ [direction])) = some gs := by
        rw [h.mapM_value?_old hp hlength hentry, hgs]
      have hne : direction = linear → ∀ a ∈ gs, a ≠ linear := by
        intro hdirection a ha
        obtain ⟨o', ho', hvalue'⟩ := exists_of_mem_mapM hgs a ha
        obtain ⟨g', hg', hne⟩ := exists_degree hp hlength (hfresh hdirection)
          (hp.operand_lt_length hentry ho')
        rwa [Option.some.inj (hvalue'.symm.trans hg')]
      refine h.exists_value?_callTangent hcall hvs (fun place o t' ho ht' => ?_) fun a b ha hb => ?_
      · obtain ⟨v, hv, hvalue⟩ := exists_getElem?_of_mapM hgs ho
        obtain ⟨c, hc, hwithin⟩ := ih o (hp.operand_lt hentry (List.mem_of_getElem? ho)) ht' hvalue
        obtain ⟨e, he, hresult⟩ := contribution_degree hcount hsmooth hop hne hv hwithin
        exact ⟨c, e, hc, he, hresult⟩
      · obtain ⟨c, hc, hwithin⟩ := exists_join ha hb
        exact ⟨c, orFail_eq_ok.2 hc, hwithin⟩

/-- The derivative has a degree. -/
theorem exists_result_degree {g : Degree} (hg : p.value? apply degrees p.result = some g) :
    ∃ c, d.value? apply (degrees ++ [direction]) d.result = some c ∧
      c.Within (direction.along g) := by
  rcases h.result with hresult | ⟨-, -, hzero⟩
  · exact h.exists_tangent_degree hp hx hlength hconstant hfresh hresult hg
  · refine ⟨zero, (value?_call_eq_some h.regular hzero).2 ⟨[g], ?_, rfl⟩, .inl rfl⟩
    exact mapM_singleton_eq_some.2 ⟨g, rfl, by rw [h.value?_old hp hlength hp.result_lt, hg]⟩

end

end Differential

/-! ## Repeated derivatives -/

/-- The degrees of base arguments and directions in one of the directions. -/
def degreesIn (baseArity count i : Nat) : List Degree :=
  (List.replicate (baseArity + count) constant).set (baseArity + i) linear

theorem length_degreesIn (baseArity count i : Nat) :
    (degreesIn baseArity count i).length = baseArity + count := by
  rw [degreesIn, List.length_set, List.length_replicate]

theorem degreesIn_of_le {baseArity count i : Nat} (h : count ≤ i) :
    degreesIn baseArity count i = List.replicate (baseArity + count) constant :=
  List.set_eq_of_length_le (by rw [List.length_replicate]; omega)

/-- Nothing is linear in a direction that is yet to come. -/
theorem ne_linear_of_mem_degreesIn {baseArity count i : Nat} (h : count ≤ i) :
    ∀ g ∈ degreesIn baseArity count i, g ≠ linear := by
  intro g hg
  rw [degreesIn_of_le h] at hg
  rw [List.eq_of_mem_replicate hg]
  decide

theorem getElem?_degreesIn {baseArity count i position : Nat} (h : position < baseArity) :
    (degreesIn baseArity count i)[position]? = some constant := by
  rw [degreesIn, List.getElem?_set_ne (by omega), List.getElem?_replicate, if_pos (by omega)]

theorem degreesIn_succ (baseArity count i : Nat) :
    degreesIn baseArity (count + 1) i =
      degreesIn baseArity count i ++ [if count = i then linear else constant] := by
  rw [degreesIn, degreesIn, ← Nat.add_assoc, List.replicate_succ']
  split
  · next heq =>
    subst heq
    have hold : (List.replicate (baseArity + count) constant).set (baseArity + count) linear =
        List.replicate (baseArity + count) constant := List.set_eq_of_length_le (by simp)
    rw [hold, List.set_append_right _ _ (by simp)]
    simp
  · next hne =>
    rcases Nat.lt_or_gt_of_ne hne with hlt | hgt
    · rw [List.set_eq_of_length_le (by simp; omega), List.set_eq_of_length_le (by simp; omega)]
    · rw [List.set_append_left _ _ (by simp; omega)]

/-- Repeated derivatives of a program have one direction for each, and in every one of them the
last derivative is linear or zero. -/
theorem exists_degree_of_derivatives (h : p.WellFormed) (horder : p.order = 0)
    {positions : List Nat} (hpositions : ∀ position ∈ positions, position < p.baseArity)
    (hd : positions.foldlM derivative p = .ok d) :
    d.Regular ∧ d.baseArity = p.baseArity ∧
      d.arguments.length = p.baseArity + positions.length ∧
      ∀ i, ∃ g, d.value? apply (degreesIn p.baseArity positions.length i) d.result = some g ∧
        (i < positions.length → g.Within linear) ∧ (positions.length ≤ i → g ≠ linear) := by
  have hp := h.regular
  have hcount : p.arguments.length = p.baseArity := by
    have := hp.baseArity_le
    rw [order] at horder
    omega
  induction positions using List.reverseRecOn generalizing d with
  | nil =>
    obtain rfl : p = d := Except.ok.inj hd
    refine ⟨hp, rfl, hcount, fun i => ?_⟩
    have hlength : (degreesIn p.baseArity 0 i).length = p.arguments.length := by
      rw [length_degreesIn, hcount]
      rfl
    obtain ⟨g, hg, hresult⟩ :=
      exists_degree hp hlength (ne_linear_of_mem_degreesIn (Nat.zero_le i)) hp.result_lt
    exact ⟨g, hg, fun hlt => absurd hlt (Nat.not_lt_zero i), fun _ => hresult⟩
  | append_singleton positions position ih =>
    rw [List.foldlM_append] at hd
    obtain ⟨before, hbefore, hlast⟩ := bind_eq_ok.1 hd
    obtain ⟨hregular, hbase, harguments, hdegree⟩ :=
      ih (fun q hq => hpositions q (List.mem_append_left _ hq)) hbefore
    have hposition : position < p.baseArity := hpositions position (by simp)
    obtain ⟨x, tangent, hx, hdifferential⟩ := exists_differential
      (wellFormed_iff_regular.2 hregular) ((bind_ok _).symm.trans hlast)
    refine ⟨hdifferential.regular, hdifferential.baseArity.trans hbase, ?_, fun i => ?_⟩
    · rw [hdifferential.arguments, List.length_append, List.length_append, harguments]
      rfl
    · obtain ⟨g, hg, hafter, hearlier⟩ := hdegree i
      have hlength : (degreesIn p.baseArity positions.length i).length =
          before.arguments.length := by
        rw [length_degreesIn, harguments]
      have hfresh : (if positions.length = i then linear else constant) = linear →
          ∀ g ∈ degreesIn p.baseArity positions.length i, g ≠ linear := by
        intro hlinear
        split at hlinear
        · next heq => exact ne_linear_of_mem_degreesIn (Nat.le_of_eq heq)
        · cases hlinear
      obtain ⟨c, hc, hwithin⟩ := hdifferential.exists_result_degree hregular hx hlength
        (getElem?_degreesIn hposition) hfresh hg
      rw [← degreesIn_succ] at hc
      rw [List.length_append, List.length_singleton]
      refine ⟨c, hc, fun hlt => ?_, fun hle => ?_⟩
      · rcases Nat.lt_succ_iff_lt_or_eq.1 hlt with hlt | heq
        · rw [if_neg (by omega)] at hwithin
          rcases hwithin with rfl | rfl
          · exact .inl rfl
          · exact hafter hlt
        · rwa [if_pos heq.symm] at hwithin
      · rw [if_neg (by omega)] at hwithin
        rcases hwithin with rfl | rfl
        · decide
        · exact hearlier (by omega)

end Program

end StagedTangent
