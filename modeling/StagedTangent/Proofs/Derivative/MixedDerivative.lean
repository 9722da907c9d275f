import StagedTangent.Proofs.Derivative.DirectionalDerivative

/-!
# Mixed derivatives commute

Differentiate at one position and then at another. The value of the second derivative is the
coefficient of both changes when the program is evaluated over dual numbers of dual numbers, each of
the two arguments changing in its own way. Differentiating in the other order exchanges the two
changes, which goes along with all operations. The main statement is `mixed_derivatives_commute`.
-/

namespace StagedTangent

open TrivSqZeroExt
open scoped DualNumber

namespace Quantity

variable {R : Type}

/-! ## Exchanging two changes -/

/-- Dual numbers are given by their values and their changes. -/
theorem ext_primal_change {x y : Quantity R[ε]} (hprimal : x.primal = y.primal)
    (hchange : x.change = y.change) : x = y := by
  match x, y with
  | .scalar u, .scalar w =>
    exact congrArg scalar (TrivSqZeroExt.ext (scalar.inj hprimal) (scalar.inj hchange))
  | .scalar _, .vector _ => cases hprimal
  | .vector _, .scalar _ => cases hprimal
  | .vector us, .vector ws =>
    refine congrArg vector (List.ext_getElem ?_ fun i hu hw => TrivSqZeroExt.ext ?_ ?_)
    · simpa using congrArg List.length (vector.inj hprimal)
    · simpa [hu, hw] using congrArg (fun l => l[i]?) (vector.inj hprimal)
    · simpa [hu, hw] using congrArg (fun l => l[i]?) (vector.inj hchange)

/-- Quantities of one shape become equal when all of their elements do. -/
theorem map_const_of_shape_eq {α β γ : Type} {a : Quantity α} {b : Quantity β}
    (h : a.shape = b.shape) (z : γ) : (a.map fun _ => z) = b.map fun _ => z := by
  have := congrArg (map fun _ => z) h
  rwa [shape, shape, map_map, map_map] at this

theorem change_still [Zero R] (a : Quantity R) : a.still.change = a.map fun _ => 0 := by
  rw [still, change, map_map]
  exact map_congr a fun x => snd_inl R x

variable [CommRing R]

/-- Exchange the two changes of all elements. -/
def exchange (x : Quantity R[ε][ε]) : Quantity R[ε][ε] := x.map swap

theorem primal_primal_exchange (x : Quantity R[ε][ε]) :
    x.exchange.primal.primal = x.primal.primal := by
  simp only [exchange, primal, map_map]
  exact map_congr x fst_fst_swap

theorem change_primal_exchange (x : Quantity R[ε][ε]) :
    x.exchange.primal.change = x.change.primal := by
  simp only [exchange, primal, change, map_map]
  exact map_congr x snd_fst_swap

theorem primal_change_exchange (x : Quantity R[ε][ε]) :
    x.exchange.change.primal = x.primal.change := by
  simp only [exchange, primal, change, map_map]
  exact map_congr x fst_snd_swap

theorem change_change_exchange (x : Quantity R[ε][ε]) :
    x.exchange.change.change = x.change.change := by
  simp only [exchange, change, map_map]
  exact map_congr x snd_snd_swap

/-- An exchange is known from the four parts. -/
theorem eq_exchange {x y : Quantity R[ε][ε]} (hprimal : x.primal.primal = y.primal.primal)
    (hfirst : x.primal.change = y.change.primal) (hsecond : x.change.primal = y.primal.change)
    (hboth : x.change.change = y.change.change) : x = y.exchange := by
  refine ext_primal_change (ext_primal_change ?_ ?_) (ext_primal_change ?_ ?_)
  · rw [primal_primal_exchange, hprimal]
  · rw [change_primal_exchange, hfirst]
  · rw [primal_change_exchange, hsecond]
  · rw [change_change_exchange, hboth]

variable {a b v w : Quantity R}

theorem shape_along (hv : v.shape = a.shape) : (a.along v).shape = a.shape := by
  rw [← shape_primal, primal_along hv]

/-- It does not matter in which order a quantity is made to change in two ways. -/
theorem along_along (hv : v.shape = a.shape) (hw : w.shape = a.shape) :
    (a.along w).along v.still = ((a.along v).along w.still).exchange := by
  have hv' : v.still.shape = (a.along w).shape := by rw [shape_still, hv, shape_along hw]
  have hw' : w.still.shape = (a.along v).shape := by rw [shape_still, hw, shape_along hv]
  refine eq_exchange ?_ ?_ ?_ ?_
  · rw [primal_along hv', primal_along hw', primal_along hv, primal_along hw]
  · rw [primal_along hv', change_along hw', change_along hw, primal_still]
  · rw [change_along hv', primal_along hw', change_along hv, primal_still]
  · rw [change_along hv', change_along hw', change_still, change_still]
    exact map_const_of_shape_eq (hv.trans hw.symm) 0

/-- Nor does it if one of the changes is none. -/
theorem still_along (hv : v.shape = a.shape) :
    a.still.along v.still = (a.along v).still.exchange := by
  have hv' : v.still.shape = a.still.shape := by rw [shape_still, shape_still, hv]
  have hshape := (shape_along hv).symm
  refine eq_exchange ?_ ?_ ?_ ?_
  · rw [primal_along hv', primal_still, primal_still, primal_along hv]
  · rw [primal_along hv', change_still, change_still, primal, map_map]
    exact map_const_of_shape_eq hshape 0
  · rw [change_along hv', primal_still, primal_still, change_along hv]
  · rw [change_along hv', change_still, change_still, change, map_map]
    exact map_const_of_shape_eq (hv.trans hshape) 0

theorem exchange_exchange (x : Quantity R[ε][ε]) : x.exchange.exchange = x :=
  (eq_exchange (primal_primal_exchange x).symm (primal_change_exchange x).symm
    (change_primal_exchange x).symm (change_change_exchange x).symm).symm

theorem along_still (hw : w.shape = a.shape) :
    (a.along w).still = (a.still.along w.still).exchange := by
  rw [still_along hw, exchange_exchange]

theorem still_still (a : Quantity R) : a.still.still = a.still.still.exchange := by
  refine eq_exchange rfl ?_ ?_ rfl
  · rw [primal_still, change_still, change_still, primal, still, map_map, map_map]
    rfl
  · rw [primal_still, change_still, change_still, primal, still, map_map, map_map]
    rfl

variable {inputs : List (Quantity R)} {position position' : Nat}

/-- The two changes may be made in either order, even in one argument. -/
theorem seed_seed (ha : inputs[position]? = some a) (hv : v.shape = a.shape)
    (hb : inputs[position']? = some b) (hw : w.shape = b.shape) :
    seed (seed inputs position' w) position v.still =
      (seed (seed inputs position v) position' w.still).map exchange := by
  refine List.ext_getElem? fun j => ?_
  simp only [seed, List.getElem?_map, List.getElem?_mapIdx, Option.map_map]
  cases hj : inputs[j]? with
  | none => rfl
  | some c =>
    refine congrArg some ?_
    have hv' : j = position → v.shape = c.shape := by
      rintro rfl
      rwa [Option.some.inj (ha.symm.trans hj)] at hv
    have hw' : j = position' → w.shape = c.shape := by
      rintro rfl
      rwa [Option.some.inj (hb.symm.trans hj)] at hw
    simp only [Function.comp_apply]
    by_cases hfirst : j = position
    · by_cases hsecond : j = position'
      · rw [if_pos hfirst, if_pos hsecond, if_pos hfirst, if_pos hsecond]
        exact along_along (hv' hfirst) (hw' hsecond)
      · rw [if_pos hfirst, if_neg hsecond, if_pos hfirst, if_neg hsecond]
        exact still_along (hv' hfirst)
    · by_cases hsecond : j = position'
      · rw [if_neg hfirst, if_pos hsecond, if_neg hfirst, if_pos hsecond]
        exact along_still (hw' hsecond)
      · rw [if_neg hfirst, if_neg hsecond, if_neg hfirst, if_neg hsecond]
        exact still_still c

end Quantity

namespace Program

open Quantity

/-! ## Differentiating twice -/

section Lawful

variable {R : Type} [CommRing R] [Scalar R] [LawfulScalar R] {p d mixed : Program}
  {x y position position' : Nat} {tangent tangent' : Nat → Option Nat}
  {inputs : List (Quantity R)} {a b v w : Quantity R}

/-- The second derivative evaluates to what changes with both arguments. -/
theorem Differential.exists_change_change (h : p.Differential x tangent d)
    (hmixed : d.Differential y tangent' mixed) (hp : p.Regular)
    (hx : p.arguments[position]? = some x) (hy : p.arguments[position']? = some y)
    (hlength : inputs.length = p.arguments.length)
    (ha : inputs[position]? = some a) (hv : v.shape = a.shape)
    (hb : inputs[position']? = some b) (hw : w.shape = b.shape)
    (heval : p.Evaluates uniform inputs) :
    ∃ u : Quantity R[ε][ε],
      p.value? uniform (seed (seed inputs position' w) position v.still) p.result = some u ∧
        mixed.value? uniform (inputs ++ [v, w]) mixed.result = some u.change.change := by
  have hvalues := map_primal_seed hb hw
  have hlength' : (seed inputs position' w).length = p.arguments.length := by
    rw [length_seed, hlength]
  -- The program evaluates when the second argument changes,
  have heval' : p.Evaluates uniform (seed inputs position' w) := by
    intro node hneeded
    obtain ⟨q, hq⟩ := heval node hneeded
    rw [← hvalues] at hq
    obtain ⟨u, hu, -⟩ := exists_value?_of_primal hq
    exact ⟨u, hu⟩
  obtain ⟨a', ha', hprimal⟩ : ∃ a', (seed inputs position' w)[position]? = some a' ∧
      a'.primal = a := by
    have := congrArg (fun l => l[position]?) hvalues
    rw [List.getElem?_map, ha, Option.map_eq_some_iff] at this
    exact this
  have hv' : v.still.shape = a'.shape := by rw [shape_still, hv, ← hprimal, shape_primal]
  -- so that the first derivative does, and the second is sound for it.
  obtain ⟨u, hu, hchange⟩ := h.exists_change hp hx hlength' ha' hv' heval'
  refine ⟨u, hu, ?_⟩
  have hresult := hmixed.value?_result h.regular (h.getElem?_arguments hy)
    (by rw [List.length_append, hlength', h.arguments, List.length_append]; rfl)
    ((changesAt_seed hb hw).concat v) hchange
  rwa [List.map_append, hvalues, List.map_singleton, primal_still, List.append_assoc] at hresult

/-- The two second derivatives evaluate to the same. -/
theorem Differential.value?_mixed {d' mixed' : Program} {tangent₂ tangent₂' : Nat → Option Nat}
    (h : p.Differential x tangent d) (hmixed : d.Differential y tangent' mixed)
    (h' : p.Differential y tangent₂ d') (hmixed' : d'.Differential x tangent₂' mixed')
    (hp : p.Regular) (hx : p.arguments[position]? = some x)
    (hy : p.arguments[position']? = some y) (hlength : inputs.length = p.arguments.length)
    (ha : inputs[position]? = some a) (hv : v.shape = a.shape)
    (hb : inputs[position']? = some b) (hw : w.shape = b.shape)
    (heval : p.Evaluates uniform inputs) :
    ∃ r, mixed.value? uniform (inputs ++ [v, w]) mixed.result = some r ∧
      mixed'.value? uniform (inputs ++ [w, v]) mixed'.result = some r := by
  obtain ⟨u, hu, hvalue⟩ :=
    h.exists_change_change hmixed hp hx hy hlength ha hv hb hw heval
  obtain ⟨u', hu', hvalue'⟩ :=
    h'.exists_change_change hmixed' hp hy hx hlength hb hw ha hv heval
  have hexchange : p.value? uniform
      ((seed (seed inputs position v) position' w.still).map exchange) p.result =
        (p.value? uniform (seed (seed inputs position v) position' w.still) p.result).map
          exchange :=
    valueIn_map (commutes_uniform scalarHom_swap) p.nodes p.result
  rw [← seed_seed ha hv hb hw, hu, hu', Option.map_some] at hexchange
  obtain rfl := Option.some.inj hexchange
  exact ⟨_, hvalue, by rw [change_change_exchange, hvalue']⟩

end Lawful

/-! ## Running the code of second derivatives -/

variable {K : Type} [Field K] [Elementary K] {p d d' : Program} {position position' : Nat}

/-- A program that has derivatives at two positions has both second derivatives, and the code of one
along two directions yields what the code of the other yields along the same directions in the other
order. So twice differentiating with respect to one argument is symmetric in the directions. The
arguments are such that everything that the result needs has a value and no addition that it needs
combines a scalar with a vector. -/
theorem mixed_derivatives_commute (h : p.WellFormed) (hd : p.derivative position = .ok d)
    (hd' : p.derivative position' = .ok d') (number : Nat) {args directions : List (Quantity K)}
    (hargs : args.length = p.baseArity) (hdirections : directions.length = p.order)
    (heval : p.Evaluates Quantity.apply (args ++ directions))
    (hunmixed : p.Unmixed (args ++ directions)) {a b v w : Quantity K}
    (ha : (args ++ directions)[position]? = some a) (hv : v.shape = a.shape)
    (hb : (args ++ directions)[position']? = some b) (hw : w.shape = b.shape) :
    ∃ (mixed mixed' : Program) (code code' : Code) (r : Quantity K),
      d.derivative position' = .ok mixed ∧ d'.derivative position = .ok mixed' ∧
      mixed.toCode = .ok code ∧ mixed'.toCode = .ok code' ∧
      code.runAlong Value.apply number (args.map toValue)
        ((directions ++ [v, w]).map toValue) = .ok r.toValue ∧
      code'.runAlong Value.apply number (args.map toValue)
        ((directions ++ [w, v]).map toValue) = .ok r.toValue ∧
      (position' = position → mixed' = mixed ∧ p.derivatives position 2 = .ok [d, mixed]) := by
  have hp := h.regular
  obtain ⟨x, tangent, hx, hfirst⟩ := exists_differential h hd
  obtain ⟨y, tangent', hy, hsecond⟩ := exists_differential h hd'
  obtain ⟨mixed, _, hmixed, hfirst'⟩ := hfirst.exists_derivative h hy hd'
  obtain ⟨mixed', _, hmixed', hsecond'⟩ := hsecond.exists_derivative h hx hd
  have hlength := hp.length_append hargs hdirections
  obtain ⟨r, hr, hr'⟩ := hfirst.value?_mixed hfirst' hsecond hsecond' hp hx hy hlength ha hv hb hw
    ((evaluates_uniform_iff hp).2 ⟨heval, hunmixed⟩)
  have hbaseArity : args.length = mixed.baseArity := by
    rw [hfirst'.baseArity, hfirst.baseArity, hargs]
  have hbaseArity' : args.length = mixed'.baseArity := by
    rw [hsecond'.baseArity, hsecond.baseArity, hargs]
  have horder : (directions ++ [v, w]).length = mixed.order := by
    rw [hfirst'.order hfirst.regular, hfirst.order hp, List.length_append, hdirections]
    rfl
  have horder' : (directions ++ [w, v]).length = mixed'.order := by
    rw [hsecond'.order hsecond.regular, hsecond.order hp, List.length_append, hdirections]
    rfl
  obtain ⟨code, hcode, hrun⟩ := exists_runAlong_of_value?
    (wellFormed_iff_regular.2 hfirst'.regular) number hbaseArity horder
    (by rw [← List.append_assoc]; exact value?_uniform hfirst'.regular hr)
  obtain ⟨code', hcode', hrun'⟩ := exists_runAlong_of_value?
    (wellFormed_iff_regular.2 hsecond'.regular) number hbaseArity' horder'
    (by rw [← List.append_assoc]; exact value?_uniform hsecond'.regular hr')
  refine ⟨mixed, mixed', code, code', r, hmixed, hmixed', hcode, hcode', hrun, hrun', ?_⟩
  rintro rfl
  rw [hd] at hd'
  cases hd'
  rw [hmixed] at hmixed'
  cases hmixed'
  refine ⟨rfl, ?_⟩
  rw [derivatives_eq_chain (by decide)]
  simp only [chain, hd, hmixed, ok_bind]
  rfl

/-- The two second derivatives of a product of two rational arguments, along 2 and 3. -/
theorem mixed_derivatives_commute_product :
    ∃ d d' mixed mixed' code code',
      Program.derivative
        ⟨.ofNodes #[.argument 0, .argument 1, .call .mul [0, 1]], [0, 1], 2, 2⟩ 0 = .ok d ∧
      Program.derivative
        ⟨.ofNodes #[.argument 0, .argument 1, .call .mul [0, 1]], [0, 1], 2, 2⟩ 1 = .ok d' ∧
      d.derivative 1 = .ok mixed ∧ d'.derivative 0 = .ok mixed' ∧
      mixed.toCode = .ok code ∧ mixed'.toCode = .ok code' ∧
      code.runAlong (@Value.apply ℚ (@fieldScalar ℚ _ default)) 0 [.scalar 5, .scalar 7]
        [.scalar 2, .scalar 3] = .ok (.scalar 6) ∧
      code'.runAlong (@Value.apply ℚ (@fieldScalar ℚ _ default)) 0 [.scalar 5, .scalar 7]
        [.scalar 3, .scalar 2] = .ok (.scalar 6) := by
  let _ : Elementary ℚ := default
  obtain ⟨d, hd⟩ : ∃ d, Program.derivative
      ⟨.ofNodes #[.argument 0, .argument 1, .call .mul [0, 1]], [0, 1], 2, 2⟩ 0 = .ok d :=
    ⟨_, rfl⟩
  obtain ⟨d', hd'⟩ : ∃ d, Program.derivative
      ⟨.ofNodes #[.argument 0, .argument 1, .call .mul [0, 1]], [0, 1], 2, 2⟩ 1 = .ok d :=
    ⟨_, rfl⟩
  obtain ⟨mixed, mixed', code, code', r, hmixed, hmixed', hcode, hcode', hrun, hrun', -⟩ :=
    mixed_derivatives_commute (K := ℚ) (by decide) hd hd' 0
      (show [Quantity.scalar (5 : ℚ), .scalar 7].length = 2 from rfl)
      (show [].length = 0 from rfl)
      ((evaluates_iff (wellFormed_iff_regular.1 (by decide))).2 ⟨_, rfl⟩)
      (fun node op operands vs _ hnode _ => by
        match node, hnode with
        | 2, rfl => rfl)
      (show _ = some (Quantity.scalar (5 : ℚ)) from rfl)
      (show (Quantity.scalar (2 : ℚ)).shape = _ from rfl)
      (show _ = some (Quantity.scalar (7 : ℚ)) from rfl)
      (show (Quantity.scalar (3 : ℚ)).shape = _ from rfl)
  have hr : r.toValue = .scalar (2 * 3) := by
    obtain rfl := Except.ok.inj (hd.symm.trans rfl)
    obtain rfl := Except.ok.inj (hmixed.symm.trans rfl)
    obtain ⟨q, hq, hr⟩ := (runAlong_toValue_iff (by decide) hcode 0 rfl rfl).1 hrun
    cases hq
    exact hr
  have hsix : (2 * 3 : ℚ) = 6 := by norm_num
  rw [hr, hsix] at hrun hrun'
  exact ⟨d, d', mixed, mixed', code, code', hd, hd', hmixed, hmixed', hcode, hcode', hrun, hrun'⟩

end Program

end StagedTangent
