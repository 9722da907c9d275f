import StagedTangent.Proofs.Derivative.ChainRule
import StagedTangent.Proofs.Derivative.Differential

/-!
# Soundness of differentiation

Evaluate a program over dual numbers, where only one argument changes. Then every tangent that the
derivative computes is the change of its node, and a node without a tangent does not change; the
derivative evaluates to the change of the result. This holds over all lawful scalars, so that it
can be used again for the derivative of a derivative.
-/

namespace StagedTangent.Program

open Quantity
open scoped DualNumber

variable {R : Type} [CommRing R]

/-- Inputs of which only the one at a position changes, as given. -/
structure ChangesAt (ws : List (Quantity R[ε])) (position : Nat) (v : Quantity R) : Prop where
  change : ∃ w, ws[position]? = some w ∧ w.change = v
  still : ∀ {j : Nat} {w : Quantity R[ε]}, j ≠ position → ws[j]? = some w → w = w.primal.still

/-- A further input that does not change may be added. -/
theorem ChangesAt.concat {ws : List (Quantity R[ε])} {position : Nat} {v : Quantity R}
    (h : ChangesAt ws position v) (a : Quantity R) : ChangesAt (ws ++ [a.still]) position v := by
  obtain ⟨w, hw, hv⟩ := h.change
  refine ⟨⟨w, ?_, hv⟩, fun {j u} hne hu => ?_⟩
  · rw [List.getElem?_append_left (List.getElem?_eq_some_iff.1 hw).1, hw]
  · rcases Nat.lt_or_ge j ws.length with hlt | hge
    · rw [List.getElem?_append_left hlt] at hu
      exact h.still hne hu
    · rw [List.getElem?_append_right hge] at hu
      obtain rfl := List.mem_singleton.1 (List.mem_of_getElem? hu)
      rw [primal_still]

theorem changesAt_seed {inputs : List (Quantity R)} {position : Nat} {a v : Quantity R}
    (ha : inputs[position]? = some a) (hv : v.shape = a.shape) :
    ChangesAt (seed inputs position v) position v := by
  refine ⟨⟨a.along v, ?_, change_along hv⟩, fun {j w} hne hw => ?_⟩
  · rw [seed, List.getElem?_mapIdx, ha, Option.map_some, if_pos rfl]
  · rw [seed, List.getElem?_mapIdx, Option.map_eq_some_iff] at hw
    obtain ⟨b, -, rfl⟩ := hw
    rw [if_neg hne, primal_still]

variable [Scalar R] [LawfulScalar R]

variable {p d : Program} {x position : Nat} {tangent : Nat → Option Nat}
  {ws : List (Quantity R[ε])} {v : Quantity R}

/-- The values of an evaluation over dual numbers are those of an evaluation without changes. -/
theorem value?_primal (p : Program) (ws : List (Quantity R[ε])) (node : Nat) :
    p.value? uniform (ws.map primal) node = (p.value? uniform ws node).map primal :=
  valueIn_map (commutes_uniform scalarHom_fst) p.nodes node

/-- What has a value without changes also has one with them. -/
theorem exists_value?_of_primal {node : Nat} {a : Quantity R}
    (h : p.value? uniform (ws.map primal) node = some a) :
    ∃ u, p.value? uniform ws node = some u ∧ u.primal = a := by
  rw [value?_primal] at h
  exact Option.map_eq_some_iff.1 h

/-- If no operand changes then neither does the result. -/
theorem still_of_operands {op : Op} {us : List (Quantity R[ε])} {u : Quantity R[ε]}
    (h : uniform op us = .ok u) (hstill : ∀ w ∈ us, w = w.primal.still) : u = u.primal.still := by
  have hus : us = (us.map primal).map still := by
    rw [List.map_map]
    conv_lhs => rw [← List.map_id us]
    exact List.map_congr_left fun w hw => hstill w hw
  have hcommutes : uniform op ((us.map primal).map still) =
      (uniform op (us.map primal)).map still :=
    commutes_uniform scalarHom_inl op (us.map primal)
  rw [hus, hcommutes] at h
  cases hvalue : uniform op (us.map primal) with
  | error e =>
    rw [hvalue] at h
    cases h
  | ok a =>
    rw [hvalue] at h
    cases h
    rw [primal_still]

namespace Differential

/-- The tangent of a call is its change, if the tangents of its operands are theirs. -/
theorem value?_callTangent (h : p.Differential x tangent d) {inputs : List (Quantity R)}
    {op : Op} {operands : List Nat} {t : Nat} {us : List (Quantity R[ε])} {u : Quantity R[ε]}
    (hcall : CallTangent d.nodes tangent op operands t) (hsmooth : op ≠ .abs)
    (hcount : operands.length = op.arity)
    (hvalues : operands.mapM (d.value? uniform inputs) = some (us.map primal))
    (hus : List.Forall₂ (fun o w => (∀ t, tangent o = some t →
      d.value? uniform inputs t = some w.change) ∧ (tangent o = none → w = w.primal.still))
        operands us)
    (hu : uniform op us = .ok u) : d.value? uniform inputs t = some u.change := by
  cases hcall with
  | unary ha hc =>
    obtain _ | ⟨hw, _ | _⟩ := hus
    rw [value?, hc.value hvalues, ← value?, hw.1 _ ha, Option.bind_some]
    exact contribution_unary hcount hsmooth hu
  | left ha hb hc =>
    obtain _ | ⟨hw, _ | ⟨hw', _ | _⟩⟩ := hus
    rw [value?, hc.value hvalues, ← value?, hw.1 _ ha, Option.bind_some]
    rw [hw'.2 hb] at hu
    exact contribution_left hcount hu
  | right ha hb hc =>
    obtain _ | ⟨hw, _ | ⟨hw', _ | _⟩⟩ := hus
    rw [value?, hc.value hvalues, ← value?, hw'.1 _ hb, Option.bind_some]
    rw [hw.2 ha] at hu
    exact contribution_right hcount hu
  | both ha hb hc hc' he _ _ =>
    obtain _ | ⟨hw, _ | ⟨hw', _ | _⟩⟩ := hus
    obtain ⟨a, b, hfirst, hsecond, hsum⟩ := contribution_both hcount hu
    refine (value?_call_eq_some h.regular he).2 ⟨[a, b], mapM_pair_eq_some.2 ⟨a, b, rfl, ?_, ?_⟩,
      hsum⟩
    · rw [value?, hc.value hvalues, ← value?, hw.1 _ ha, Option.bind_some]
      exact hfirst
    · rw [value?, hc'.value hvalues, ← value?, hw'.1 _ hb, Option.bind_some]
      exact hsecond

variable (h : p.Differential x tangent d) (hp : p.Regular) (hx : p.arguments[position]? = some x)
  (hlength : ws.length = p.arguments.length) (hws : ChangesAt ws position v)

include h hp hx hlength hws

/-- Tangents are changes: that of a node with a tangent is its value in the derivative, and a node
without one does not change. -/
theorem value?_tangent {node : Nat} (hnode : node = x ∨ p.Needed node) {u : Quantity R[ε]}
    (hu : p.value? uniform ws node = some u) :
    (∀ t, tangent node = some t → d.value? uniform (ws.map primal ++ [v]) t = some u.change) ∧
      (tangent node = none → u = u.primal.still) := by
  have hinputs : (ws.map primal).length = p.arguments.length := by rw [List.length_map, hlength]
  have hargument := hp.argument_at hx
  obtain ⟨w, hw, hv⟩ := hws.change
  have hself : p.value? uniform ws x = some w := by rw [value?_argument hargument, hw]
  induction node using Nat.strongRecOn generalizing u with
  | ind node ih =>
    by_cases heq : node = x
    · subst heq
      obtain rfl : w = u := Option.some.inj (hself.symm.trans hu)
      rw [h.self]
      refine ⟨?_, fun hnone => by cases hnone⟩
      rintro t ⟨⟩
      rw [h.value?_direction hinputs, hv]
    · have hneeded : p.Needed node := hnode.resolve_left heq
      obtain ⟨entry, hentry⟩ := hneeded.exists_node hp
      cases entry with
      | argument position' =>
        refine ⟨fun t ht => ?_, fun _ => ?_⟩
        · exact absurd ((carries_argument hentry).1 ((h.carries node).1 ⟨t, ht⟩)) heq
        · rw [value?_argument hentry] at hu
          refine hws.still (fun hposition => heq ?_) hu
          have hlisted := hp.argument_listed hentry
          rw [hposition, hx] at hlisted
          exact (Option.some.inj hlisted).symm
      | call op operands =>
        obtain ⟨us, hus, hop⟩ := (value?_call_eq_some hp hentry).1 hu
        have hvalues : operands.mapM (d.value? uniform (ws.map primal ++ [v])) =
            some (us.map primal) := by
          rw [h.mapM_value?_old hp hinputs hentry, ← Option.map_some, ← hus, mapM_map_some]
          exact mapM_congr_left fun o _ => value?_primal p ws o
        have hoperands : List.Forall₂ (fun o w => (∀ t, tangent o = some t →
            d.value? uniform (ws.map primal ++ [v]) t = some w.change) ∧
              (tangent o = none → w = w.primal.still)) operands us :=
          forall₂_of_mapM (fun o ho w hw => ih o (hp.operand_lt hentry ho)
            (.inr (hneeded.operand hp hentry ho)) hw) hus
        refine ⟨fun t ht => ?_, fun hnone => ?_⟩
        · refine h.value?_callTangent (h.call ht hentry) ?_ (hp.operand_count hentry) hvalues
            hoperands hop
          rintro rfl
          exact h.unblocked node ⟨⟨operands, hentry⟩, (h.carries node).1 ⟨t, ht⟩⟩
        · refine still_of_operands hop fun w hw => ?_
          obtain ⟨o, ho, how⟩ := exists_of_mem_mapM hus w hw
          refine (ih o (hp.operand_lt hentry ho) (.inr (hneeded.operand hp hentry ho)) how).2 ?_
          refine Option.eq_none_iff_forall_ne_some.2 fun t ht => ?_
          obtain ⟨t', ht'⟩ := (h.carries node).2 ((carries_call hp hargument hentry).2
            ⟨hneeded, o, ho, (h.carries o).1 ⟨t, ht⟩⟩)
          rw [hnone] at ht'
          cases ht'

/-- The derivative evaluates to the change of the result. -/
theorem value?_result {u : Quantity R[ε]} (hu : p.value? uniform ws p.result = some u) :
    d.value? uniform (ws.map primal ++ [v]) d.result = some u.change := by
  have hinputs : (ws.map primal).length = p.arguments.length := by rw [List.length_map, hlength]
  have htangent := h.value?_tangent hp hx hlength hws (.inr (needed_result hp)) hu
  rcases h.result with hresult | ⟨hnone, -, hzero⟩
  · exact htangent.1 _ hresult
  · -- The result does not change, and neither do zeros of its shape.
    refine (value?_call_eq_some h.regular hzero).2 ⟨[u.primal], ?_, ?_⟩
    · refine mapM_singleton_eq_some.2 ⟨u.primal, rfl, ?_⟩
      rw [h.value?_old hp hinputs hp.result_lt, value?_primal, hu]
      rfl
    · refine congrArg Except.ok ?_
      rw [htangent.2 hnone, primal_still, change, still, map_map]
      exact map_congr u.primal fun _ => LawfulScalar.zero_eq

/-- Where `abs` is applied for the result, its operand does not change. -/
theorem still_of_abs {node operand : Nat} (hneeded : p.Needed node)
    (hnode : p.nodes[node]? = some (.call .abs [operand])) {u : Quantity R[ε]}
    (hu : p.value? uniform ws operand = some u) : u = u.primal.still := by
  have hoperand : operand ∈ [operand] := List.mem_singleton_self operand
  refine (h.value?_tangent hp hx hlength hws
    (.inr (hneeded.operand hp hnode hoperand)) hu).2 ?_
  refine Option.eq_none_iff_forall_ne_some.2 fun t ht => ?_
  exact h.unblocked node ⟨⟨[operand], hnode⟩, (carries_call hp (hp.argument_at hx) hnode).2
    ⟨hneeded, operand, hoperand, (h.carries operand).1 ⟨t, ht⟩⟩⟩

omit hx hlength hws in
/-- A program that evaluates without mixed additions does so over dual numbers, and its derivative
evaluates in the same way, to the change of the result. -/
theorem exists_change {inputs : List (Quantity R)} (hx : p.arguments[position]? = some x)
    (hlength : inputs.length = p.arguments.length) {a : Quantity R}
    (ha : inputs[position]? = some a) (hv : v.shape = a.shape)
    (heval : p.Evaluates uniform inputs) :
    ∃ u : Quantity R[ε], p.value? uniform (seed inputs position v) p.result = some u ∧
      d.value? uniform (inputs ++ [v]) d.result = some u.change := by
  obtain ⟨q, hq⟩ := heval p.result (needed_result hp)
  have hseed := map_primal_seed ha hv
  rw [← hseed] at hq
  obtain ⟨u, hu, -⟩ := exists_value?_of_primal hq
  refine ⟨u, hu, ?_⟩
  have hresult := h.value?_result hp hx (by rw [length_seed, hlength]) (changesAt_seed ha hv) hu
  rwa [hseed] at hresult

end Differential

end StagedTangent.Program
