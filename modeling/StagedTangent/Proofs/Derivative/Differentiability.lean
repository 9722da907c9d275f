import StagedTangent.Proofs.Derivative.Differential

/-!
# Which derivatives there are

A program has a derivative with respect to an argument unless an `abs` that the result needs depends
on the argument. A derivative is a well-formed program and adds no `abs` to those in the way of
further derivatives, so what holds of the first derivative holds of all: `exists_chain` is the
invariant along the chain, and `chain_outcome` says when there are derivatives of all orders and how
the chain fails otherwise. Whether it is begun at all is a matter of memory: `derivatives_outcome`.
-/

namespace StagedTangent.Program

variable {p d : Program} {x position : Nat}

/-- An `abs` that depends on a node and that the result needs, as the sweeps over the tape mark
them. -/
def Obstructs (p : Program) (x node : Nat) : Prop :=
  (∃ operands, p.nodes[node]? = some (.call .abs operands)) ∧
    (p.reachedFrom x).getD node false = true ∧ (p.neededFor p.result).getD node false = true

/-- What stands in the way of the pass is what the sweeps mark. -/
theorem obstructs_iff_blocks (hp : p.Regular) (hx : p.nodes[x]? = some (.argument position))
    {node : Nat} : p.Obstructs x node ↔ p.Blocks x node := by
  refine and_congr_right fun ⟨operands, hnode⟩ => ?_
  have hne : node ≠ x := by
    rintro rfl
    rw [hx] at hnode
    cases hnode
  rw [← Bool.and_eq_true]
  change p.relevant x node = true ↔ _
  rw [relevant_iff hp, Carries, or_iff_right hne]

theorem Blocks.lt_length {node : Nat} (h : p.Blocks x node) : node < p.nodes.length := by
  obtain ⟨⟨operands, hnode⟩, -⟩ := h
  exact (List.getElem?_eq_some_iff.1 hnode).1

/-- What the chain of derivatives ends with if the first derivative fails. -/
theorem chain_eq_error {e : DerivativeError} {n : Nat} (hn : 1 ≤ n)
    (h : p.derivative position = .error e) : p.chain position n = .error e := by
  cases n with
  | zero => cases hn
  | succ n =>
    rw [chain, h]
    rfl

/-- Without an `abs` in the way there are derivatives of every order. -/
theorem exists_chain (h : p.WellFormed) (hx : p.arguments[position]? = some x)
    (hfree : ∀ node, ¬ p.Blocks x node) (n : Nat) :
    ∃ ds, p.chain position n = .ok ds ∧ ds.length = n ∧ ∀ d ∈ ds, d.WellFormed := by
  induction n generalizing p with
  | zero => exact ⟨[], rfl, rfl, fun d hd => absurd hd List.not_mem_nil⟩
  | succ n ih =>
    rcases derivative_dichotomy h hx with ⟨⟨node, -, hblocks⟩, -⟩ | ⟨-, d, tangent, hd, hdifferential⟩
    · exact absurd hblocks (hfree node)
    · have hwell : d.WellFormed := wellFormed_iff_regular.2 hdifferential.regular
      obtain ⟨ds, hds, hlength, hall⟩ := ih hwell (hdifferential.getElem?_arguments hx)
        fun node hblocks => hfree node (hdifferential.blocks_old h.regular hblocks)
      refine ⟨d :: ds, ?_, by rw [List.length_cons, hlength], List.forall_mem_cons.2 ⟨hwell, hall⟩⟩
      rw [chain, hd, ok_bind, hds, ok_bind]

/-- An argument that the program does not have. -/
theorem derivative_of_no_argument (h : p.WellFormed) (hx : p.arguments[position]? = none) :
    p.derivative position = .error (.noArgument position p.arguments.length) := by
  simp only [derivative, derivativeBy, (check_eq_ok_iff p).2 h, hx]
  rfl

/-- The chain of derivatives with respect to an argument succeeds, at every order from one on,
exactly if there is such an argument and no `abs` both depends on it and is needed for the result.
It fails in no other way than that the argument is missing or that there is no rule for `abs`. -/
theorem chain_outcome (h : p.WellFormed) (position n : Nat) (hn : 1 ≤ n) :
    ((∃ ds, p.chain position n = .ok ds) ↔
      ∃ x, p.arguments[position]? = some x ∧ ∀ node, ¬ p.Obstructs x node) ∧
    (p.arguments.length ≤ position →
      p.chain position n = .error (.noArgument position p.arguments.length)) ∧
    ∀ x node, p.arguments[position]? = some x → p.Obstructs x node →
      p.chain position n = .error (.missingRule .abs 1) := by
  have hp := h.regular
  have hmissing : p.arguments.length ≤ position →
      p.chain position n = .error (.noArgument position p.arguments.length) := fun hge =>
    chain_eq_error hn (derivative_of_no_argument h (List.getElem?_eq_none hge))
  have hobstructed : ∀ x node, p.arguments[position]? = some x → p.Obstructs x node →
      p.chain position n = .error (.missingRule .abs 1) := by
    intro x node hx hobstructs
    have hblocks := (obstructs_iff_blocks hp (hp.argument_at hx)).1 hobstructs
    rcases derivative_dichotomy h hx with ⟨-, herror⟩ | ⟨hfree, -⟩
    · exact chain_eq_error hn herror
    · exact absurd hblocks (hfree node hblocks.lt_length)
  refine ⟨⟨?_, ?_⟩, hmissing, hobstructed⟩
  · rintro ⟨ds, hds⟩
    cases hx : p.arguments[position]? with
    | none =>
      rw [hmissing (List.getElem?_eq_none_iff.1 hx)] at hds
      cases hds
    | some x =>
      refine ⟨x, rfl, fun node hobstructs => ?_⟩
      rw [hobstructed x node hx hobstructs] at hds
      cases hds
  · rintro ⟨x, hx, hfree⟩
    obtain ⟨ds, hds, -⟩ := exists_chain h hx
      (fun node hblocks => hfree node ((obstructs_iff_blocks hp (hp.argument_at hx)).2 hblocks)) n
    exact ⟨ds, hds⟩

/-- If the derivatives that are asked for do not fit into a block of memory, the program breaks off
before the first, whatever it is. If they fit, there are derivatives with respect to an argument, of
every order from one on, exactly if there is such an argument and no `abs` both depends on it and is
needed for the result. There are none for no other reason than that the argument is missing or that
there is no rule for `abs`, and if there is a first derivative then there are all further ones. -/
theorem derivatives_outcome (h : p.WellFormed) (position n : Nat) (hn : 1 ≤ n) :
    (blockBound ≤ n * bytes → p.derivatives position n = .error (.fault (.capacity n bytes))) ∧
    (n * bytes < blockBound →
      ((∃ ds, p.derivatives position n = .ok ds) ↔
        ∃ x, p.arguments[position]? = some x ∧ ∀ node, ¬ p.Obstructs x node) ∧
      (p.arguments.length ≤ position →
        p.derivatives position n =
          .error (.derivative (.noArgument position p.arguments.length))) ∧
      ∀ x node, p.arguments[position]? = some x → p.Obstructs x node →
        p.derivatives position n = .error (.derivative (.missingRule .abs 1))) ∧
    ∀ d, p.derivative position = .ok d →
      ∀ m, ∃ ds, p.chain position m = .ok ds ∧ ds.length = m ∧ (∀ d ∈ ds, d.WellFormed) ∧
        (m * bytes < blockBound → p.derivatives position m = .ok ds) := by
  refine ⟨derivatives_eq_fault, fun hfits => ?_, fun d hd m => ?_⟩
  · obtain ⟨hok, hmissing, hobstructed⟩ := chain_outcome h position n hn
    rw [derivatives_eq_chain hfits]
    simp only [mapError_eq_ok]
    refine ⟨hok, fun hge => ?_, fun x node hx hobstructs => ?_⟩
    · rw [hmissing hge]
      rfl
    · rw [hobstructed x node hx hobstructs]
      rfl
  · obtain ⟨x, tangent, hx, hdifferential⟩ := exists_differential h hd
    obtain ⟨ds, hds, hlength, hwell⟩ := exists_chain h hx hdifferential.unblocked m
    refine ⟨ds, hds, hlength, hwell, fun hfits => ?_⟩
    rw [derivatives_eq_chain hfits, hds]
    rfl

/-- Of `zero_like (abs x) + y` there is no derivative with respect to `x`, although nothing changes
with it, and there is one of every order with respect to `y`. -/
theorem derivatives_outcome_zeros :
    let p : Program := ⟨.ofNodes #[.argument 0, .argument 1, .call .abs [0], .call .zeroLike [2],
      .call .add [3, 1]], [0, 1], 4, 2⟩
    p.derivatives 0 3 = .error (.derivative (.missingRule .abs 1)) ∧
      p.derivatives 2 3 = .error (.derivative (.noArgument 2 2)) ∧
      (∃ ds, p.derivatives 1 3 = .ok ds) ∧
      p.derivatives 2 (wordBound - 1) = .error (.fault (.capacity (wordBound - 1) bytes)) := by
  intro p
  have h : p.WellFormed := by decide
  have hfits : 3 * bytes < blockBound := by decide
  refine ⟨((derivatives_outcome h 0 3 (by decide)).2.1 hfits).2.2 0 2 rfl
      ⟨⟨_, rfl⟩, by decide, by decide⟩,
    ((derivatives_outcome h 2 3 (by decide)).2.1 hfits).2.1 (by decide),
    ((derivatives_outcome h 1 3 (by decide)).2.1 hfits).1.2 ⟨1, rfl, ?_⟩,
    (derivatives_outcome h 2 (wordBound - 1) (by decide)).1 (by decide)⟩
  rintro node ⟨⟨operands, hnode⟩, hreached, -⟩
  match node, hnode with
  | 2, _ => exact absurd hreached (by decide)
  | 0, hnode | 1, hnode | 3, hnode | 4, hnode => cases hnode

/-- The derivatives with respect to an argument that is not there are not refused but break off, if
as many of them are asked for as can be. -/
theorem derivatives_breaks_off :
    let p : Program := ⟨.ofNodes #[.argument 0], [0], 0, 1⟩
    p.WellFormed ∧ p.arguments.length ≤ 7 ∧
      ¬ ((∃ ds, p.derivatives 7 (wordBound - 1) = .ok ds) ∨
        p.derivatives 7 (wordBound - 1) = .error (.derivative (.noArgument 7 1)) ∨
        p.derivatives 7 (wordBound - 1) = .error (.derivative (.missingRule .abs 1))) := by
  intro p
  have hfault : p.derivatives 7 (wordBound - 1) =
      .error (.fault (.capacity (wordBound - 1) bytes)) := derivatives_eq_fault (by decide)
  refine ⟨by decide, by decide, ?_⟩
  rw [hfault]
  rintro (⟨ds, hds⟩ | herror | herror)
  · cases hds
  · cases herror
  · cases herror

end StagedTangent.Program
