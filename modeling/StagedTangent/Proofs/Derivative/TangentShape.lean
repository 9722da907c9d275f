import StagedTangent.Proofs.Derivative.ContributionShape
import StagedTangent.Proofs.Derivative.Differential
import StagedTangent.Proofs.Staging.OnQuantities

/-!
# Shapes of tangents

The tangent of a node has the shape of the node or is a scalar. An operation that combines a scalar
with a vector has a vector as its result, but an addition passes the tangent of the scalar on as it
is. `Program.ScalarTangent` says from the shapes of the inputs which tangents are scalars, and
`Program.KeepsShape` that none of them stands for a vector where this matters. The main statement,
`runAlong_derivative_shape_iff`, is that a derivative can be evaluated to something of the shape of
the result exactly if so.
-/

namespace StagedTangent

open Quantity

namespace Program

variable {p d : Program} {x position : Nat} {tangent : Nat → Option Nat}

/-! ## Which tangents are scalars -/

/-- The tangent of a node is a scalar, given the shapes of the inputs. That of a scalar always is;
that of a call also if the tangents of its operands are and it does not combine them with
vectors. -/
inductive ScalarTangent (p : Program) (x : Nat) (shapes : List Shape) : Nat → Prop where
  | scalar {node : Nat} : p.value? Quantity.apply shapes node = some point →
    ScalarTangent p x shapes node
  | call {node : Nat} {op : Op} {operands : List Nat} {vs : List Shape} : p.Carries x node →
    p.nodes[node]? = some (.call op operands) →
    operands.mapM (p.value? Quantity.apply shapes) = some vs →
    (∀ position o : Nat, operands[position]? = some o → p.Carries x o →
      ¬ widens op position vs) →
    (∀ o ∈ operands, p.Carries x o → ScalarTangent p x shapes o) → ScalarTangent p x shapes node

/-- No tangent is a scalar in the place of a vector where this matters: for the result and for the
operands of exacting operations. -/
structure KeepsShape (p : Program) (x : Nat) (shapes : List Shape) : Prop where
  result : p.ScalarTangent x shapes p.result →
    p.value? Quantity.apply shapes p.result = some point
  operands : ∀ {node : Nat} {op : Op} {operands : List Nat} {o : Nat}, p.Carries x node →
    p.nodes[node]? = some (.call op operands) → op.Exacting → o ∈ operands → p.Carries x o →
    p.ScalarTangent x shapes o → p.value? Quantity.apply shapes o = some point

theorem scalarTangent_call_iff {shapes : List Shape} {node : Nat} {op : Op} {operands : List Nat}
    {vs : List Shape} {s : Shape} (hcarries : p.Carries x node)
    (hnode : p.nodes[node]? = some (.call op operands))
    (hvs : operands.mapM (p.value? Quantity.apply shapes) = some vs)
    (hs : p.value? Quantity.apply shapes node = some s) :
    p.ScalarTangent x shapes node ↔ s = point ∨
      ∀ position o : Nat, operands[position]? = some o → p.Carries x o →
        p.ScalarTangent x shapes o ∧ ¬ widens op position vs := by
  constructor
  · intro h
    cases h with
    | scalar hvalue =>
      rw [hs] at hvalue
      exact .inl (Option.some.inj hvalue)
    | call _ hnode' hvs' hnarrow hscalar =>
      rw [hnode] at hnode'
      cases hnode'
      rw [hvs] at hvs'
      cases hvs'
      exact .inr fun position o ho hc =>
        ⟨hscalar o (List.mem_of_getElem? ho) hc, hnarrow position o ho hc⟩
  · rintro (rfl | h)
    · exact .scalar hs
    · refine .call hcarries hnode hvs (fun position o ho hc => (h position o ho hc).2) ?_
      intro o ho hc
      obtain ⟨position, hposition⟩ := List.mem_iff_getElem?.1 ho
      exact (h position o hposition hc).1

/-! ## The tangent of a call -/

section Operands

variable {a b s t : Nat} {Q : Nat → Nat → Prop}

theorem forall_tangent_unary (ha : tangent a = some t) :
    (∀ position o t' : Nat, [a][position]? = some o → tangent o = some t' → Q position t') ↔
      Q 0 t := by
  constructor
  · intro h
    exact h 0 a t rfl ha
  · intro h position o t' ho ht'
    match position, ho with
    | 0, rfl =>
      rw [ha] at ht'
      cases ht'
      exact h

theorem forall_tangent_left (ha : tangent a = some t) (hb : tangent b = none) :
    (∀ position o t' : Nat, [a, b][position]? = some o → tangent o = some t' → Q position t') ↔
      Q 0 t := by
  constructor
  · intro h
    exact h 0 a t rfl ha
  · intro h position o t' ho ht'
    match position, ho with
    | 0, rfl =>
      rw [ha] at ht'
      cases ht'
      exact h
    | 1, rfl =>
      rw [hb] at ht'
      cases ht'

theorem forall_tangent_right (ha : tangent a = none) (hb : tangent b = some t) :
    (∀ position o t' : Nat, [a, b][position]? = some o → tangent o = some t' → Q position t') ↔
      Q 1 t := by
  constructor
  · intro h
    exact h 1 b t rfl hb
  · intro h position o t' ho ht'
    match position, ho with
    | 0, rfl =>
      rw [ha] at ht'
      cases ht'
    | 1, rfl =>
      rw [hb] at ht'
      cases ht'
      exact h

theorem forall_tangent_both (ha : tangent a = some s) (hb : tangent b = some t) :
    (∀ position o t' : Nat, [a, b][position]? = some o → tangent o = some t' → Q position t') ↔
      Q 0 s ∧ Q 1 t := by
  constructor
  · intro h
    exact ⟨h 0 a s rfl ha, h 1 b t rfl hb⟩
  · rintro ⟨hfirst, hsecond⟩ position o t' ho ht'
    match position, ho with
    | 0, rfl =>
      rw [ha] at ht'
      cases ht'
      exact hfirst
    | 1, rfl =>
      rw [hb] at ht'
      cases ht'
      exact hsecond

end Operands

namespace Differential

/-- If the tangent of a call has a value then so have the tangents of its operands, and what each
of them contributes. -/
theorem exists_of_callTangent (h : p.Differential x tangent d) {V : Type}
    {interpret : Op → List V → Except RunError V} {inputs vs : List V} {op : Op}
    {operands : List Nat} {t : Nat} {c : V} (hcall : CallTangent d.nodes tangent op operands t)
    (hvs : operands.mapM (d.value? interpret inputs) = some vs)
    (hc : d.value? interpret inputs t = some c) :
    ∀ position o t' : Nat, operands[position]? = some o → tangent o = some t' →
      ∃ c' e, d.value? interpret inputs t' = some c' ∧
        contribution interpret op position vs c' = some e := by
  have hbind : ∀ {position t' t : Nat} {e : V}, Contributed d.nodes op position operands t' t →
      d.value? interpret inputs t = some e → ∃ c' e, d.value? interpret inputs t' = some c' ∧
        contribution interpret op position vs c' = some e := by
    intro position t' t e hcontributed he
    rw [value?, hcontributed.value hvs] at he
    obtain ⟨c', hc', he⟩ := Option.bind_eq_some_iff.1 he
    exact ⟨c', e, hc', he⟩
  cases hcall with
  | unary ha hcontributed => exact (forall_tangent_unary ha).2 (hbind hcontributed hc)
  | left ha hb hcontributed => exact (forall_tangent_left ha hb).2 (hbind hcontributed hc)
  | right ha hb hcontributed => exact (forall_tangent_right ha hb).2 (hbind hcontributed hc)
  | both ha hb hfirst hsecond hsum _ _ =>
    obtain ⟨es, hes, -⟩ := (value?_call_eq_some h.regular hsum).1 hc
    obtain ⟨e, e', -, he, he'⟩ := mapM_pair_eq_some.1 hes
    exact (forall_tangent_both ha hb).2 ⟨hbind hfirst he, hbind hsecond he'⟩

/-- The tangent of a call has the shape of the call or is a scalar, if the same holds of the tangents
of its operands and those of an exacting operation have the shapes of the operands. -/
theorem exists_shape_of_callTangent (h : p.Differential x tangent d) {inputs vs : List Shape}
    {op : Op} {operands : List Nat} {t : Nat} {s : Shape}
    (hcall : CallTangent d.nodes tangent op operands t)
    (hvs : operands.mapM (d.value? Quantity.apply inputs) = some vs)
    (hcount : operands.length = op.arity) (hsmooth : op ≠ .abs)
    (hs : Quantity.apply op vs = .ok s)
    (hoperands : ∀ {position o t' : Nat} {v : Shape}, operands[position]? = some o →
      tangent o = some t' → vs[position]? = some v → ∃ c,
        d.value? Quantity.apply inputs t' = some c ∧ (c = v ∨ c = point) ∧
          (op.Exacting → c = v)) :
    ∃ c, d.value? Quantity.apply inputs t = some c ∧ (c = s ∨ c = point) ∧
      (c = point ↔ s = point ∨ ∀ position o t' : Nat, operands[position]? = some o →
        tangent o = some t' → d.value? Quantity.apply inputs t' = some point ∧
          ¬ widens op position vs) := by
  have hlength : vs.length = operands.length := length_of_mapM_eq_some hvs
  have hcontribution : ∀ {position o t' c : Nat}, operands[position]? = some o →
      tangent o = some t' → Contributed d.nodes op position operands t' c → ∃ e,
        d.value? Quantity.apply inputs c = some e ∧ (e = s ∨ e = point) ∧
          (e = point ↔ s = point ∨ d.value? Quantity.apply inputs t' = some point ∧
            ¬ widens op position vs) := by
    intro position o t' c ho ht' hcontributed
    have hlt : position < vs.length := by
      rw [hlength]
      exact (List.getElem?_eq_some_iff.1 ho).1
    have hv : vs[position]? = some vs[position] := List.getElem?_eq_getElem hlt
    obtain ⟨c', hc', hfits, hexacting⟩ := hoperands ho ht' hv
    obtain ⟨e, he, hresult⟩ :=
      contribution_shape (hlength.trans hcount) hsmooth hs hv hfits hexacting
    refine ⟨e, ?_, ?_⟩
    · rw [value?, hcontributed.value hvs, ← value?, hc', Option.bind_some, he]
    · rwa [hc', Option.some_inj]
  cases hcall with
  | unary ha hcontributed =>
    rw [forall_tangent_unary ha]
    exact hcontribution rfl ha hcontributed
  | left ha hb hcontributed =>
    rw [forall_tangent_left ha hb]
    exact hcontribution rfl ha hcontributed
  | right ha hb hcontributed =>
    rw [forall_tangent_right ha hb]
    exact hcontribution rfl hb hcontributed
  | both ha hb hfirst hsecond hsum _ _ =>
    rw [forall_tangent_both ha hb]
    obtain ⟨e, he, hfits, hpoint⟩ := hcontribution rfl ha hfirst
    obtain ⟨e', he', hfits', hpoint'⟩ := hcontribution rfl hb hsecond
    obtain ⟨u, hu, hfitsSum, hpointSum⟩ := add_shape hfits hfits'
    refine ⟨u, ?_, hfitsSum, ?_⟩
    · exact (value?_call_eq_some h.regular hsum).2
        ⟨[e, e'], mapM_pair_eq_some.2 ⟨e, e', rfl, he, he'⟩, hu⟩
    · rw [hpointSum, hpoint, hpoint', ← or_and_left]

/-! ## Shapes of all tangents -/

section Shapes

variable {shapes : List Shape} {v : Shape} (h : p.Differential x tangent d) (hp : p.Regular)
  (hx : p.arguments[position]? = some x) (hlength : shapes.length = p.arguments.length)
  (hv : shapes[position]? = some v) (heval : p.Evaluates Quantity.apply shapes)

include h hp hlength

/-- The operands of a call have values in the derivative as well. -/
theorem exists_operand_values {node : Nat} {op : Op} {operands : List Nat} {s : Shape}
    (hnode : p.nodes[node]? = some (.call op operands))
    (hs : p.value? Quantity.apply shapes node = some s) :
    ∃ vs, operands.mapM (p.value? Quantity.apply shapes) = some vs ∧
      operands.mapM (d.value? Quantity.apply (shapes ++ [v])) = some vs ∧
      Quantity.apply op vs = .ok s := by
  obtain ⟨vs, hvs, hop⟩ := (value?_call_eq_some hp hnode).1 hs
  exact ⟨vs, hvs, by rw [h.mapM_value?_old hp hlength hnode, hvs], hop⟩

include hx hv

/-- The tangent of the argument has its shape. -/
theorem self_shape {s : Shape} (hs : p.value? Quantity.apply shapes x = some s) :
    d.value? Quantity.apply (shapes ++ [v]) p.nodes.length = some s ∧
      (s = point ↔ p.ScalarTangent x shapes x) := by
  have hargument := hp.argument_at hx
  have hself := hs
  rw [value?_argument hargument, hv] at hself
  refine ⟨by rw [h.value?_direction hlength, hself], ?_⟩
  constructor
  · rintro rfl
    exact .scalar hs
  · intro hscalar
    cases hscalar with
    | scalar hpoint =>
      rw [hs] at hpoint
      exact Option.some.inj hpoint
    | call _ hnode =>
      rw [hargument] at hnode
      cases hnode

/-- The tangent of a node has the shape of the node or is a scalar, and `ScalarTangent` says
which. -/
theorem tangent_shape {node t : Nat} {s c : Shape} (ht : tangent node = some t)
    (hs : p.value? Quantity.apply shapes node = some s)
    (hc : d.value? Quantity.apply (shapes ++ [v]) t = some c) :
    (c = s ∨ c = point) ∧ (c = point ↔ p.ScalarTangent x shapes node) := by
  induction node using Nat.strongRecOn generalizing t s c with
  | ind node ih =>
    have hcarries := (h.carries node).1 ⟨t, ht⟩
    rcases h.self_or_call hp ht with ⟨rfl, rfl⟩ | ⟨op, operands, hentry, hsmooth, -, hcall⟩
    · obtain ⟨hself, hscalar⟩ := h.self_shape hp hx hlength hv hs
      rw [hc] at hself
      cases hself
      exact ⟨.inl rfl, hscalar⟩
    · obtain ⟨vs, hvs, hvs', hop⟩ := h.exists_operand_values hp hlength (v := v) hentry hs
      have hcount := hp.operand_count hentry
      have hoperand : ∀ {position o t' : Nat}, operands[position]? = some o →
          tangent o = some t' → ∃ v' c', vs[position]? = some v' ∧
            d.value? Quantity.apply (shapes ++ [v]) t' = some c' ∧
            (c' = v' ∨ c' = point) ∧ (op.Exacting → c' = v') ∧
            (c' = point ↔ p.ScalarTangent x shapes o) := by
        intro position o t' ho ht'
        obtain ⟨v', hv', hvalue⟩ := exists_getElem?_of_mapM hvs ho
        obtain ⟨c', e, hc', he⟩ := h.exists_of_callTangent hcall hvs' hc position o t' ho ht'
        obtain ⟨hfits, hscalar⟩ :=
          ih o (hp.operand_lt hentry (List.mem_of_getElem? ho)) ht' hvalue hc'
        exact ⟨v', c', hv', hc', hfits, fun hexacting => eq_of_contribution_exacting
          ((length_of_mapM_eq_some hvs).trans hcount) hop hv' hfits hexacting he, hscalar⟩
      obtain ⟨c', hc', hfits, hpoint⟩ := h.exists_shape_of_callTangent hcall hvs' hcount
        hsmooth hop fun {position o t' v'} ho ht' hv' => by
          obtain ⟨v'', c', hv'', hc', hfits, hexacting, -⟩ := hoperand ho ht'
          rw [hv'] at hv''
          cases hv''
          exact ⟨c', hc', hfits, hexacting⟩
      rw [hc] at hc'
      cases hc'
      refine ⟨hfits, hpoint.trans ?_⟩
      rw [scalarTangent_call_iff hcarries hentry hvs hs]
      refine or_congr_right ⟨fun hall position o ho ho' => ?_, fun hall position o t' ho ht' => ?_⟩
      · obtain ⟨t', ht'⟩ := (h.carries o).2 ho'
        obtain ⟨-, c', -, hc', -, -, hscalar⟩ := hoperand ho ht'
        obtain ⟨hvalue, hnarrow⟩ := hall position o t' ho ht'
        rw [hc'] at hvalue
        exact ⟨hscalar.1 (Option.some.inj hvalue), hnarrow⟩
      · obtain ⟨-, c', -, hc', -, -, hscalar⟩ := hoperand ho ht'
        obtain ⟨htangent, hnarrow⟩ := hall position o ho ((h.carries o).1 ⟨t', ht'⟩)
        exact ⟨by rw [hc', hscalar.2 htangent], hnarrow⟩

include heval

/-- If scalars stand for vectors nowhere then all tangents have values. -/
theorem exists_tangent_value (hkeeps : p.KeepsShape x shapes) {node t : Nat}
    (ht : tangent node = some t) :
    ∃ c, d.value? Quantity.apply (shapes ++ [v]) t = some c := by
  induction node using Nat.strongRecOn generalizing t with
  | ind node ih =>
    have hcarries := (h.carries node).1 ⟨t, ht⟩
    rcases h.self_or_call hp ht with ⟨rfl, rfl⟩ | ⟨op, operands, hentry, hsmooth, hneeded, hcall⟩
    · exact ⟨v, h.value?_direction hlength⟩
    · obtain ⟨s, hs⟩ := heval node hneeded
      obtain ⟨vs, hvs, hvs', hop⟩ := h.exists_operand_values hp hlength (v := v) hentry hs
      obtain ⟨c, hc, -⟩ := h.exists_shape_of_callTangent hcall hvs' (hp.operand_count hentry)
        hsmooth hop fun {position o t' v'} ho ht' hv' => by
          have hmem := List.mem_of_getElem? ho
          obtain ⟨v'', hv'', hvalue⟩ := exists_getElem?_of_mapM hvs ho
          rw [hv'] at hv''
          cases hv''
          obtain ⟨c, hc⟩ := ih o (hp.operand_lt hentry hmem) ht'
          obtain ⟨hfits, hscalar⟩ := h.tangent_shape hp hx hlength hv ht' hvalue hc
          refine ⟨c, hc, hfits, fun hexacting => hfits.elim id fun hpoint => ?_⟩
          have hvector := hkeeps.operands hcarries hentry hexacting hmem
            ((h.carries o).1 ⟨t', ht'⟩) (hscalar.1 hpoint)
          rw [hvalue] at hvector
          rw [hpoint, Option.some.inj hvector]
      exact ⟨c, hc⟩

omit hx hv in
/-- If the derivative has a value then so have the tangents of all nodes that are needed. -/
theorem exists_tangent_value_of_result {r : Shape}
    (hr : d.value? Quantity.apply (shapes ++ [v]) d.result = some r) {node t : Nat}
    (hneeded : p.Needed node) (ht : tangent node = some t) :
    ∃ c, d.value? Quantity.apply (shapes ++ [v]) t = some c := by
  have hpath := (needed_iff hp).1 hneeded
  clear hneeded
  induction hpath generalizing t with
  | refl =>
    rcases h.result with hresult | ⟨hnone, -⟩
    · rw [hresult] at ht
      cases ht
      exact ⟨r, hr⟩
    · rw [hnone] at ht
      cases ht
  | @tail user o hpath huse ih =>
    have hneeded := (needed_iff hp).2 hpath
    obtain ⟨op, operands, hnode, ho⟩ := huse.exists_call
    have hcarries : p.Carries x user :=
      ⟨.head huse ((h.carries o).1 ⟨t, ht⟩).1, .inr hneeded⟩
    obtain ⟨t', ht'⟩ := (h.carries user).2 hcarries
    obtain ⟨c, hc⟩ := ih ht'
    obtain ⟨s, hs⟩ := heval user hneeded
    obtain ⟨vs, -, hvs', -⟩ := h.exists_operand_values hp hlength (v := v) hnode hs
    obtain ⟨place, hplace⟩ := List.mem_iff_getElem?.1 ho
    obtain ⟨c', -, hc', -⟩ := h.exists_of_callTangent (h.call ht' hnode) hvs' hc place o t hplace ht
    exact ⟨c', hc'⟩

/-- A derivative evaluates to something of the shape of the result exactly if no scalar stands for a
vector where this matters. -/
theorem value?_result_shape_iff {s : Shape}
    (hs : p.value? Quantity.apply shapes p.result = some s) :
    d.value? Quantity.apply (shapes ++ [v]) d.result = some s ↔ p.KeepsShape x shapes := by
  constructor
  · intro hr
    refine ⟨fun hscalar => ?_, fun {node op operands o} hcarries hnode hexacting ho ho' hscalar => ?_⟩
    · rcases h.result with hresult | ⟨hnone, -⟩
      · rw [hs, (h.tangent_shape hp hx hlength hv hresult hs hr).2.2 hscalar]
      · cases hscalar with
        | scalar hpoint => exact hpoint
        | call hcarries =>
          obtain ⟨t, ht⟩ := (h.carries p.result).2 hcarries
          rw [hnone] at ht
          cases ht
    · have hargument := hp.argument_at hx
      obtain ⟨hneeded, -⟩ := (carries_call hp hargument hnode).1 hcarries
      obtain ⟨t, ht⟩ := (h.carries node).2 hcarries
      obtain ⟨c, hc⟩ := h.exists_tangent_value_of_result hp hlength heval hr hneeded ht
      obtain ⟨s', hs'⟩ := heval node hneeded
      obtain ⟨vs, hvs, hvs', hop⟩ := h.exists_operand_values hp hlength (v := v) hnode hs'
      obtain ⟨place, hplace⟩ := List.mem_iff_getElem?.1 ho
      obtain ⟨t', ht'⟩ := (h.carries o).2 ho'
      obtain ⟨c', e, hc', he⟩ :=
        h.exists_of_callTangent (h.call ht hnode) hvs' hc place o t' hplace ht'
      obtain ⟨v', hv', hvalue⟩ := exists_getElem?_of_mapM hvs hplace
      obtain ⟨hfits, hpoint⟩ := h.tangent_shape hp hx hlength hv ht' hvalue hc'
      have hcount := (length_of_mapM_eq_some hvs).trans (hp.operand_count hnode)
      rw [hvalue, ← eq_of_contribution_exacting hcount hop hv' hfits hexacting he,
        hpoint.2 hscalar]
  · intro hkeeps
    rcases h.result with hresult | ⟨-, -, hzero⟩
    · obtain ⟨c, hc⟩ := h.exists_tangent_value hp hx hlength hv heval hkeeps hresult
      obtain ⟨hfits, hscalar⟩ := h.tangent_shape hp hx hlength hv hresult hs hc
      rw [hc]
      rcases hfits with rfl | hpoint
      · rfl
      · have hresult := hkeeps.result (hscalar.1 hpoint)
        rw [hs] at hresult
        rw [hpoint, Option.some.inj hresult]
    · refine (value?_call_eq_some h.regular hzero).2 ⟨[s], mapM_singleton_eq_some.2 ⟨s, rfl, ?_⟩, ?_⟩
      · rw [h.value?_old hp hlength hp.result_lt, hs]
      · exact congrArg Except.ok (map_unit _ s)

end Shapes

end Differential

end Program

end StagedTangent
