import StagedTangent.Proofs.Derivative.Differential
import StagedTangent.Proofs.Live.Pass

/-!
# Derivatives of programs with one live part

Differentiation keeps the live part apart from the rest: the derivatives of two programs with one
live part have one live part again, or neither program has a derivative, for the same reason
(`LiveMatch.derivative`). By induction so it is at every order (`LiveMatch.chain`).
-/

namespace StagedTangent.Program

variable {p q d : Program} {f : Nat → Nat} {x position : Nat}

/-! ## What a derivative has been recorded by -/

/-- Matching passes end in matching results. -/
theorem PassesMatch.finish (hmatch : p.LiveMatch f q) (hp : p.Regular) (hq : q.Regular)
    (hx : p.nodes[x]? = some (.argument position)) {pass pass' : TangentPass}
    (h : p.PassesMatch f q x p.nodes.length q.nodes.length pass pass')
    (hpass : p.PassState x p.nodes.length pass)
    (hpass' : q.PassState (f x) q.nodes.length pass') :
    (p.finish pass).2.Renamed (p.extendMatch f q) (q.finish pass').2 ∧
      (q.finish pass').1 = p.extendMatch f q (p.finish pass).1 := by
  have hresult := h.getD_tangents hmatch hp hq hx hpass hpass' hp.result_lt
    (by rw [← hmatch.result]; exact hq.result_lt) (.inr (needed_result hp))
  rw [← hmatch.result] at hresult
  unfold Program.finish
  rw [hresult]
  cases pass.tangents.getD p.result none with
  | some t => exact ⟨h.recorder, rfl⟩
  | none =>
    refine ⟨?_, h.recorder.size.symm⟩
    have hcall := h.recorder.call .zeroLike [p.result]
    rwa [List.map_singleton, extendMatch_old hp.result_lt, ← hmatch.result] at hcall

/-! ## One derivative -/

namespace LiveMatch

/-- Two programs recorded behind ones with one live part, the same calls over matching nodes, have
one live part. -/
theorem extend (h : p.LiveMatch f q) (hp : p.Regular) (hq : q.Regular)
    {tangent tangent' : Nat → Option Nat} {r r' : Recorder} {result result' : Nat}
    (hd : p.Differential x tangent (r.toProgram result))
    (hd' : q.Differential (f x) tangent' (r'.toProgram result'))
    (hr : r.Renamed (p.extendMatch f q) r') (hsettled : r.settled = p.tape)
    (hresult : result' = p.extendMatch f q result) :
    (r.toProgram result).LiveMatch (p.extendMatch f q) (r'.toProgram result') := by
  have hnodes : (r.toProgram result).nodes = r.nodes := Recorder.nodes_toProgram r result
  have hnodes' : (r'.toProgram result').nodes = r'.nodes := Recorder.nodes_toProgram r' result'
  -- A needed call is one of the program itself or stands behind it.
  have hold : ∀ {n : Nat} {op : Op} {operands : List Nat}, n < p.nodes.length →
      (r.toProgram result).Needed n →
      (r.toProgram result).nodes[n]? = some (.call op operands) →
      p.Needed n ∧ p.nodes[n]? = some (.call op operands) := by
    intro n op operands hlt hneeded hcall
    rw [getElem?_extended hd.nodes hlt] at hcall
    exact ⟨hd.needed_old hp hneeded hlt, hcall⟩
  refine ⟨?_, ?_, hresult, fun {n op operands} hneeded hcall => ?_,
    fun {m n} hm hmcall hn hncall hlt => ?_⟩
  · rw [hd.arguments, hd'.arguments, h.arguments, List.map_append]
    refine congrArg₂ _ (List.map_congr_left fun a ha => ?_) ?_
    · obtain ⟨i, hi, rfl⟩ := List.getElem_of_mem ha
      exact (extendMatch_old (hp.argument_lt (List.getElem?_eq_getElem hi))).symm
    · exact congrArg (fun n => [n]) (extendMatch_new p f q 0).symm
  · rw [hd.baseArity, hd'.baseArity, h.baseArity]
  · rcases Nat.lt_or_ge n p.nodes.length with hlt | hge
    · obtain ⟨hneeded, hcall⟩ := hold hlt hneeded hcall
      rw [extendMatch_old hlt, map_extendMatch hp hcall,
        getElem?_extended hd'.nodes ((h.needed hp hq hneeded).lt_length hq)]
      exact h.call hneeded hcall
    · have hsize : r.settled.size ≤ n := by
        rw [hsettled, Tape.size_eq_length]
        exact hge
      rw [hnodes', hr.getElem? hsize, ← hnodes, hcall]
      rfl
  · rcases Nat.lt_or_ge m p.nodes.length with hmold | hmnew
    · obtain ⟨op, operands, hmcall⟩ := hmcall
      obtain ⟨hm, hmcall⟩ := hold hmold hm hmcall
      rw [extendMatch_old hmold]
      rcases Nat.lt_or_ge n p.nodes.length with hnold | hnnew
      · obtain ⟨op', operands', hncall⟩ := hncall
        obtain ⟨hn, hncall⟩ := hold hnold hn hncall
        rw [extendMatch_old hnold]
        exact h.lt hm ⟨_, _, hmcall⟩ hn ⟨_, _, hncall⟩ hlt
      · have := (h.needed hp hq hm).lt_length hq
        rw [extendMatch, if_neg (by omega)]
        omega
    · rw [extendMatch, extendMatch, if_neg (by omega), if_neg (by omega)]
      omega

/-- The derivatives of two programs with one live part have one live part, or there are none, for
the same reason. -/
theorem derivative (h : p.LiveMatch f q) (hp : p.WellFormed) (hq : q.WellFormed) (position : Nat) :
    (∃ e, p.derivative position = .error e ∧ q.derivative position = .error e) ∨
    ∃ d d', p.derivative position = .ok d ∧ q.derivative position = .ok d' ∧
      d.WellFormed ∧ d'.WellFormed ∧ d.LiveMatch (p.extendMatch f q) d' := by
  cases hx : p.arguments[position]? with
  | none =>
    have hx' : q.arguments[position]? = none := by
      rw [h.arguments, List.getElem?_map, hx]
      rfl
    refine .inl ⟨.noArgument position p.arguments.length, ?_, ?_⟩
    · simp only [Program.derivative, derivativeBy, (check_eq_ok_iff p).2 hp, hx]
      rfl
    · simp only [Program.derivative, derivativeBy, (check_eq_ok_iff q).2 hq, hx']
      rw [h.arguments, List.length_map]
      rfl
  | some x =>
    have hpr := hp.regular
    have hqr := hq.regular
    have hargument := hpr.argument_at hx
    have hargument' := h.argument hpr hqr hargument
    have hx' := hqr.argument_listed hargument'
    rcases derivative_dichotomy hp hx with ⟨hblocks, herror⟩ | ⟨hfree, d, tangent, hok, hd⟩ <;>
      rcases derivative_dichotomy hq hx' with ⟨hblocks', herror'⟩ | ⟨hfree', d', tangent', hok', hd'⟩
    · exact .inl ⟨_, herror, herror'⟩
    · obtain ⟨n, hn, hblocks'⟩ := (h.exists_blocks_iff hpr hqr hargument).2 hblocks
      exact absurd hblocks' (hfree' n hn)
    · obtain ⟨n, hn, hblocks⟩ := (h.exists_blocks_iff hpr hqr hargument).1 hblocks'
      exact absurd hblocks (hfree n hn)
    · refine .inr ⟨d, d', hok, hok', wellFormed_iff_regular.2 hd.regular,
        wellFormed_iff_regular.2 hd'.regular, ?_⟩
      obtain ⟨pass, hpass, rfl, -⟩ := exists_passBy_of_derivativeBy hp hx hok
      obtain ⟨pass', hpass', rfl, -⟩ := exists_passBy_of_derivativeBy hq hx' hok'
      have hstate := passState_of_passUpTo hpr hargument (Nat.le_refl _) hpass
      have hstate' := passState_of_passUpTo hqr hargument' (Nat.le_refl _) hpass'
      have hpasses := passes_match h hpr hqr hargument (Nat.le_refl _) (Nat.le_refl _)
        (fun i hi => iff_of_true (hi.needed.lt_length hpr)
          ((h.needed hpr hqr hi.needed).lt_length hqr)) hpass hpass'
      obtain ⟨hr, hresult⟩ := hpasses.finish h hpr hqr hargument hstate hstate'
      refine h.extend hpr hqr hd hd' hr ?_ hresult
      -- Whatever the pass ends in, the program is what it began with.
      have hsettled : pass.recorder.settled = p.tape := hstate.extension.settled
      unfold Program.finish
      split
      · exact hsettled
      · exact hsettled

/-! ## Every order -/

/-- At every order the derivatives of two programs with one live part are there or missing together,
and the last ones have one live part. -/
theorem chain (h : p.LiveMatch f q) (hp : p.WellFormed) (hq : q.WellFormed)
    (position order : Nat) :
    (∃ e, p.chain position order = .error e ∧ q.chain position order = .error e) ∨
    ∃ ds ds' g, p.chain position order = .ok ds ∧ q.chain position order = .ok ds' ∧
      (ds.getLastD p).WellFormed ∧ (ds'.getLastD q).WellFormed ∧
      (ds.getLastD p).LiveMatch g (ds'.getLastD q) := by
  induction order generalizing p q f with
  | zero => exact .inr ⟨[], [], f, rfl, rfl, hp, hq, h⟩
  | succ order ih =>
    simp only [Program.chain]
    rcases h.derivative hp hq position with ⟨e, he, he'⟩ | ⟨d, d', hd, hd', hwell, hwell', hnext⟩
    · refine .inl ⟨e, ?_, ?_⟩
      · rw [he]
        rfl
      · rw [he']
        rfl
    · rw [hd, hd', ok_bind, ok_bind]
      rcases ih hnext hwell hwell' with
        ⟨e, he, he'⟩ | ⟨ds, ds', g, hds, hds', hlast, hlast', hmatch⟩
      · refine .inl ⟨e, ?_, ?_⟩
        · rw [he]
          rfl
        · rw [he']
          rfl
      · rw [hds, hds', ok_bind, ok_bind]
        refine .inr ⟨d :: ds, d' :: ds', g, rfl, rfl, ?_⟩
        rw [List.getLastD_cons, List.getLastD_cons]
        exact ⟨hlast, hlast', hmatch⟩

end LiveMatch

end StagedTangent.Program
