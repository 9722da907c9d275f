import StagedTangent.Proofs.Derivative.Progress
import StagedTangent.Proofs.Live.Match
import StagedTangent.Proofs.Live.Renaming

/-!
# The pass of differentiation over a live part

Two programs with one live part are passed side by side, each by a cursor of its own. Where the pass
records nothing for a node one cursor moves alone; where it records a tangent the other cursor stands
at the matching call, and both move. So the two passes record the same calls over matching nodes:
`passes_match` states it for cursors before which the same calls have been passed.
-/

namespace StagedTangent.Program

variable {p q : Program} {f : Nat → Nat} {x position n m : Nat} {pass pass' : TangentPass}

/-! ## The first nodes -/

/-- The pass of differentiation over the first nodes, by the standard rules. -/
def passUpTo (p : Program) (x n : Nat) : Except DerivativeError TangentPass :=
  p.passBy .standard x n

theorem passUpTo_succ {node : Node} (hnode : p.nodes[n]? = some node) :
    p.passUpTo x (n + 1) = (do
      let pass ← p.passUpTo x n
      passNode .standard x p.nodes.length (p.relevant x) pass node) :=
  passBy_succ hnode

/-- A pass over the first nodes that succeeds is in the state that belongs to their number. -/
theorem passState_of_passUpTo (hp : p.Regular) (hx : p.nodes[x]? = some (.argument position))
    (hn : n ≤ p.nodes.length) (h : p.passUpTo x n = .ok pass) : p.PassState x n pass := by
  induction n generalizing pass with
  | zero =>
    obtain rfl := Except.ok.inj h
    exact passState_start p x
  | succ n ih =>
    have hnode : p.nodes[n]? = some p.nodes[n] := List.getElem?_eq_getElem hn
    rw [passUpTo_succ hnode] at h
    obtain ⟨before, hbefore, hstep⟩ := bind_eq_ok.1 h
    rcases passNode_spec hp hx (ih (Nat.le_of_succ_le hn) hbefore) hnode with
      ⟨-, herror⟩ | ⟨-, after, hok, hafter⟩
    · rw [herror] at hstep
      cases hstep
    · rw [hok] at hstep
      obtain rfl := Except.ok.inj hstep
      exact hafter

/-- The pass records a tangent for a node: it carries one and is not the argument itself. -/
def Records (p : Program) (x node : Nat) : Prop := node ≠ x ∧ p.Carries x node

theorem Records.needed (h : p.Records x n) : p.Needed n := h.2.2.resolve_left h.1

theorem Records.isCall (hp : p.Regular) (h : p.Records x n) : p.IsCall n := by
  rcases Live.cases hp (.inr h.needed) with ⟨position, hargument⟩ | ⟨-, hcall⟩
  · exact absurd ((carries_argument hargument).1 h.2) h.1
  · exact hcall

/-- At a node that the pass records a tangent for, it records that of a call. -/
theorem exists_callTangent_of_records (hp : p.Regular)
    (hx : p.nodes[x]? = some (.argument position)) (hrecords : p.Records x n)
    (h : p.passUpTo x (n + 1) = .ok pass') :
    ∃ pass op operands t r, p.passUpTo x n = .ok pass ∧
      p.nodes[n]? = some (.call op operands) ∧
      callTangent .standard op operands pass = .ok (t, r) ∧
      pass' = ⟨r, pass.tangents.push t⟩ := by
  obtain ⟨op, operands, hcall⟩ := hrecords.isCall hp
  rw [passUpTo_succ hcall] at h
  obtain ⟨pass, hbefore, hstep⟩ := bind_eq_ok.1 h
  have hlt := (List.getElem?_eq_some_iff.1 hcall).1
  have hsize := (passState_of_passUpTo hp hx (Nat.le_of_lt hlt) hbefore).size
  have hrelevant := (relevant_iff hp).2 ⟨hrecords.2.1, hrecords.needed⟩
  simp only [passNode, hsize, if_neg hrecords.1, hrelevant] at hstep
  obtain ⟨⟨t, r⟩, hcallTangent, hstep⟩ := bind_eq_ok.1 hstep
  exact ⟨pass, op, operands, t, r, hbefore, hcall, hcallTangent, (Except.ok.inj hstep).symm⟩

/-- At any other node the pass records nothing. -/
theorem exists_push_of_not_records (hp : p.Regular)
    (hx : p.nodes[x]? = some (.argument position)) (hlt : n < p.nodes.length)
    (hrecords : ¬ p.Records x n) (h : p.passUpTo x (n + 1) = .ok pass') :
    ∃ pass t, p.passUpTo x n = .ok pass ∧ pass' = ⟨pass.recorder, pass.tangents.push t⟩ := by
  have hnode : p.nodes[n]? = some p.nodes[n] := List.getElem?_eq_getElem hlt
  rw [passUpTo_succ hnode] at h
  obtain ⟨pass, hbefore, hstep⟩ := bind_eq_ok.1 h
  have hsize := (passState_of_passUpTo hp hx (Nat.le_of_lt hlt) hbefore).size
  unfold passNode at hstep
  simp only [hsize] at hstep
  split at hstep
  · exact ⟨pass, _, hbefore, (Except.ok.inj hstep).symm⟩
  · next hne =>
    split at hstep
    · next hrelevant =>
      obtain ⟨hpath, hneeded⟩ := (relevant_iff hp).1 hrelevant
      exact absurd ⟨hne, hpath, .inr hneeded⟩ hrecords
    · exact ⟨pass, _, hbefore, (Except.ok.inj hstep).symm⟩

/-! ## What is recorded for matching nodes -/

namespace LiveMatch

theorem records_iff (h : p.LiveMatch f q) (hp : p.Regular) (hq : q.Regular)
    (hx : p.nodes[x]? = some (.argument position)) (hn : p.Live n) :
    q.Records (f x) (f n) ↔ p.Records x n := by
  have hne : f n ≠ f x ↔ n ≠ x :=
    not_congr ⟨h.injOn hp hq hn (live_argument hp hx), congrArg f⟩
  exact and_congr hne (h.carries_iff hp hq hx hn)

/-- Every node that the other pass records a tangent for is the image of one. -/
theorem exists_records (h : p.LiveMatch f q) (hp : p.Regular) (hq : q.Regular)
    (hx : p.nodes[x]? = some (.argument position)) (hm : q.Records (f x) m) :
    ∃ n, p.Records x n ∧ f n = m := by
  obtain ⟨n, hneeded, rfl⟩ := h.exists_needed hp hq hm.needed
  exact ⟨n, (h.records_iff hp hq hx (.inr hneeded)).1 hm, rfl⟩

theorem lt_of_records (h : p.LiveMatch f q) (hp : p.Regular) (hm : p.Records x m)
    (hn : p.Records x n) (hlt : m < n) : f m < f n :=
  h.lt hm.needed (hm.isCall hp) hn.needed (hn.isCall hp) hlt

end LiveMatch

/-- The match of two programs, continued to what is recorded behind them: new nodes match in their
order. -/
def extendMatch (p : Program) (f : Nat → Nat) (q : Program) (node : Nat) : Nat :=
  if node < p.nodes.length then f node else q.nodes.length + (node - p.nodes.length)

theorem extendMatch_old (h : n < p.nodes.length) : p.extendMatch f q n = f n := if_pos h

theorem extendMatch_new (p : Program) (f : Nat → Nat) (q : Program) (n : Nat) :
    p.extendMatch f q (p.nodes.length + n) = q.nodes.length + n := by
  rw [extendMatch, if_neg (by omega), Nat.add_sub_cancel_left]

/-- The operands of a call of the program keep their images. -/
theorem map_extendMatch (hp : p.Regular) {op : Op} {operands : List Nat}
    (hn : p.nodes[n]? = some (.call op operands)) :
    operands.map (p.extendMatch f q) = operands.map f :=
  List.map_congr_left fun _ ho => extendMatch_old (hp.operand_lt_length hn ho)

/-- Two passes, each over a number of nodes, have recorded the same. -/
structure PassesMatch (p : Program) (f : Nat → Nat) (q : Program) (x n m : Nat)
    (pass pass' : TangentPass) : Prop where
  recorder : pass.recorder.Renamed (p.extendMatch f q) pass'.recorder
  tangents : ∀ i < n, f i < m → p.Records x i →
    pass'.tangents.getD (f i) none = (pass.tangents.getD i none).map (p.extendMatch f q)

/-- The tangents of all live nodes that both passes have passed match. -/
theorem PassesMatch.getD_tangents (hmatch : p.LiveMatch f q) (hp : p.Regular) (hq : q.Regular)
    (hx : p.nodes[x]? = some (.argument position)) (h : p.PassesMatch f q x n m pass pass')
    (hpass : p.PassState x n pass) (hpass' : q.PassState (f x) m pass') {i : Nat} (hi : i < n)
    (hfi : f i < m) (hlive : p.Live i) :
    pass'.tangents.getD (f i) none = (pass.tangents.getD i none).map (p.extendMatch f q) := by
  by_cases hrecords : p.Records x i
  · exact h.tangents i hi hfi hrecords
  · by_cases hself : i = x
    · subst hself
      rw [hpass.self hi, hpass'.self hfi]
      exact congrArg some (extendMatch_new p f q 0).symm
    · have hcarries : ¬ p.Carries x i := fun hcarries => hrecords ⟨hself, hcarries⟩
      have hcarries' : ¬ q.Carries (f x) (f i) := by
        rwa [hmatch.carries_iff hp hq hx hlive]
      rw [← hpass.carries i hi, ← Option.isSome_iff_exists, Option.not_isSome_iff_eq_none]
        at hcarries
      rw [← hpass'.carries (f i) hfi, ← Option.isSome_iff_exists, Option.not_isSome_iff_eq_none]
        at hcarries'
      rw [hcarries, hcarries']
      rfl

/-! ## Moving the cursors -/

theorem passesMatch_start (p : Program) (f : Nat → Nat) (q : Program)
    (h : p.LiveMatch f q) :
    p.PassesMatch f q x 0 0 ⟨p.withDirection, #[]⟩ ⟨q.withDirection, #[]⟩ := by
  refine ⟨⟨?_, fun n => ?_⟩, fun i hi => absurd hi (Nat.not_lt_zero i)⟩
  · change #[Node.argument q.arguments.length] =
      #[Node.argument p.arguments.length].map (Node.rename _)
    rw [h.arguments, List.length_map, List.map_toArray]
    rfl
  · change p.extendMatch f q (p.tape.size + n) = q.tape.size + n
    rw [Tape.size_eq_length, Tape.size_eq_length]
    exact extendMatch_new p f q n

/-- The first cursor moves alone. -/
theorem passesMatch_succ_left (hp : p.Regular) (hx : p.nodes[x]? = some (.argument position))
    (hn : n + 1 ≤ p.nodes.length) (hnot : ¬ p.Records x n)
    (ih : ∀ pass, p.passUpTo x n = .ok pass → p.PassesMatch f q x n m pass pass')
    (hpass : p.passUpTo x (n + 1) = .ok pass) : p.PassesMatch f q x (n + 1) m pass pass' := by
  obtain ⟨before, t, hbefore, rfl⟩ := exists_push_of_not_records hp hx hn hnot hpass
  have hsize := (passState_of_passUpTo hp hx (Nat.le_of_succ_le hn) hbefore).size
  have h := ih before hbefore
  refine ⟨h.recorder, fun i hi hfi hrecords => ?_⟩
  have hne : i ≠ n := by
    rintro rfl
    exact hnot hrecords
  rw [getD_push, hsize, if_neg hne]
  exact h.tangents i (by omega) hfi hrecords

/-- The second cursor moves alone. -/
theorem passesMatch_succ_right (hmatch : p.LiveMatch f q) (hp : p.Regular) (hq : q.Regular)
    (hx : p.nodes[x]? = some (.argument position)) (hm : m + 1 ≤ q.nodes.length)
    (hnot : ∀ i, p.Records x i → f i ≠ m)
    (ih : ∀ pass', q.passUpTo (f x) m = .ok pass' → p.PassesMatch f q x n m pass pass')
    (hpass' : q.passUpTo (f x) (m + 1) = .ok pass') :
    p.PassesMatch f q x n (m + 1) pass pass' := by
  have hx' := hmatch.argument hp hq hx
  have hnot' : ¬ q.Records (f x) m := by
    intro hrecords
    obtain ⟨i, hi, heq⟩ := hmatch.exists_records hp hq hx hrecords
    exact hnot i hi heq
  obtain ⟨before, t, hbefore, rfl⟩ := exists_push_of_not_records hq hx' hm hnot' hpass'
  have hsize := (passState_of_passUpTo hq hx' (Nat.le_of_succ_le hm) hbefore).size
  have h := ih before hbefore
  refine ⟨h.recorder, fun i hi hfi hrecords => ?_⟩
  have hne := hnot i hrecords
  rw [getD_push, hsize, if_neg hne]
  exact h.tangents i hi (by omega) hrecords

/-- What holds when both cursors have moved past a matching call. -/
theorem PassesMatch.push_both (hmatch : p.LiveMatch f q) (hp : p.Regular) (hq : q.Regular)
    (hsize : pass.tangents.size = n) (hsize' : pass'.tangents.size = f n)
    (h : p.PassesMatch f q x n (f n) pass pass') (hn : p.Records x n) {r r' : Recorder}
    (hr : r.Renamed (p.extendMatch f q) r') (t : Option Nat) :
    p.PassesMatch f q x (n + 1) (f n + 1) ⟨r, pass.tangents.push t⟩
      ⟨r', pass'.tangents.push (t.map (p.extendMatch f q))⟩ := by
  refine ⟨hr, fun i hi hfi hrecords => ?_⟩
  rw [getD_push, getD_push, hsize, hsize']
  by_cases heq : i = n
  · rw [if_pos heq, if_pos (congrArg f heq)]
  · have hne : f i ≠ f n := fun hfeq =>
      heq (hmatch.injOn hp hq (.inr hrecords.needed) (.inr hn.needed) hfeq)
    rw [if_neg heq, if_neg hne]
    exact h.tangents i (by omega) (by omega) hrecords

/-- Both cursors stand before matching calls. -/
theorem passesMatch_succ_both (hmatch : p.LiveMatch f q) (hp : p.Regular) (hq : q.Regular)
    (hx : p.nodes[x]? = some (.argument position)) (hn : p.Records x n)
    (ih : ∀ pass pass', p.passUpTo x n = .ok pass → q.passUpTo (f x) (f n) = .ok pass' →
      p.PassesMatch f q x n (f n) pass pass')
    (hpass : p.passUpTo x (n + 1) = .ok pass) (hpass' : q.passUpTo (f x) (f n + 1) = .ok pass') :
    p.PassesMatch f q x (n + 1) (f n + 1) pass pass' := by
  have hx' := hmatch.argument hp hq hx
  have hn' := (hmatch.records_iff hp hq hx (.inr hn.needed)).2 hn
  obtain ⟨before, op, operands, t, r, hbefore, hcall, hok, rfl⟩ :=
    exists_callTangent_of_records hp hx hn hpass
  obtain ⟨before', op', operands', t', r', hbefore', hcall', hok', rfl⟩ :=
    exists_callTangent_of_records hq hx' hn' hpass'
  have hstate := passState_of_passUpTo hp hx
    (Nat.le_of_lt (List.getElem?_eq_some_iff.1 hcall).1) hbefore
  have hstate' := passState_of_passUpTo hq hx'
    (Nat.le_of_lt (List.getElem?_eq_some_iff.1 hcall').1) hbefore'
  have h := ih before before' hbefore hbefore'
  have hcallf := hmatch.call hn.needed hcall
  rw [hcall'] at hcallf
  cases hcallf
  have htangents : ∀ o ∈ operands, before'.tangents.getD (p.extendMatch f q o) none =
      (before.tangents.getD o none).map (p.extendMatch f q) := by
    intro o ho
    rw [extendMatch_old (hp.operand_lt_length hcall ho)]
    exact h.getD_tangents hmatch hp hq hx hstate hstate' (hp.operand_lt hcall ho)
      (hq.operand_lt hcall' (List.mem_map_of_mem ho)) (.inr (hn.needed.operand hp hcall ho))
  obtain ⟨r₁, hok₁, hr⟩ :=
    callTangent_renamed (hp.operand_count hcall) h.recorder htangents hok
  rw [map_extendMatch hp hcall, hok'] at hok₁
  cases hok₁
  exact h.push_both hmatch hp hq hstate.size hstate'.size hn hr t

/-- Two cursors have passed matching calls. -/
def Abreast (p : Program) (f : Nat → Nat) (x n m : Nat) : Prop :=
  ∀ i, p.Records x i → (i < n ↔ f i < m)

theorem Abreast.left (h : p.Abreast f x (n + 1) m) (hnot : ¬ p.Records x n) :
    p.Abreast f x n m := by
  intro i hi
  have hne : i ≠ n := by
    rintro rfl
    exact hnot hi
  have := h i hi
  omega

theorem Abreast.right (h : p.Abreast f x n (m + 1)) (hnot : ∀ i, p.Records x i → f i ≠ m) :
    p.Abreast f x n m := by
  intro i hi
  have := h i hi
  have := hnot i hi
  omega

theorem Abreast.both (hmatch : p.LiveMatch f q) (hp : p.Regular) (hn : p.Records x n) :
    p.Abreast f x n (f n) := by
  intro i hi
  constructor
  · exact hmatch.lt_of_records hp hi hn
  · intro hlt
    rcases Nat.lt_trichotomy i n with hin | rfl | hgt
    · exact hin
    · exact absurd hlt (Nat.lt_irrefl _)
    · exact absurd hlt (Nat.lt_asymm (hmatch.lt_of_records hp hn hi hgt))

/-- Passes over two programs with one live part have recorded the same whenever they have passed
matching calls. -/
theorem passes_match (hmatch : p.LiveMatch f q) (hp : p.Regular) (hq : q.Regular)
    (hx : p.nodes[x]? = some (.argument position)) (hn : n ≤ p.nodes.length)
    (hm : m ≤ q.nodes.length) (habreast : p.Abreast f x n m)
    (hpass : p.passUpTo x n = .ok pass) (hpass' : q.passUpTo (f x) m = .ok pass') :
    p.PassesMatch f q x n m pass pass' := by
  induction n generalizing m pass pass' with
  | zero =>
    induction m generalizing pass' with
    | zero =>
      obtain rfl := Except.ok.inj hpass
      obtain rfl := Except.ok.inj hpass'
      exact passesMatch_start p f q hmatch
    | succ m ihm =>
      -- No call has been passed by the first cursor, so none by the second.
      have hnot : ∀ i, p.Records x i → f i ≠ m := by
        rintro i hi rfl
        exact absurd ((habreast i hi).2 (Nat.lt_succ_self _)) (Nat.not_lt_zero i)
      exact passesMatch_succ_right hmatch hp hq hx hm hnot
        (fun _ hbefore => ihm (Nat.le_of_succ_le hm) (habreast.right hnot) hbefore) hpass'
  | succ n ihn =>
    by_cases hrecords : p.Records x n
    · induction m generalizing pass' with
      | zero => exact absurd ((habreast n hrecords).1 (Nat.lt_succ_self n)) (Nat.not_lt_zero _)
      | succ m ihm =>
        have hfn : f n < m + 1 := (habreast n hrecords).1 (Nat.lt_succ_self n)
        rcases Nat.lt_succ_iff_lt_or_eq.1 hfn with hlt | rfl
        · -- The second cursor has still to come back to the match of the last call.
          have hnot : ∀ i, p.Records x i → f i ≠ m := by
            rintro i hi rfl
            have hin := (habreast i hi).2 (Nat.lt_succ_self _)
            have := (Abreast.both hmatch hp hrecords i hi).1
            rcases Nat.lt_succ_iff_lt_or_eq.1 hin with hin | rfl
            · exact Nat.lt_asymm hlt (this hin)
            · exact Nat.lt_irrefl _ hlt
          exact passesMatch_succ_right hmatch hp hq hx hm hnot
            (fun _ hbefore => ihm (Nat.le_of_succ_le hm) (habreast.right hnot) hbefore) hpass'
        · exact passesMatch_succ_both hmatch hp hq hx hrecords
            (fun _ _ hbefore hbefore' => ihn (Nat.le_of_succ_le hn) (Nat.le_of_succ_le hm)
              (.both hmatch hp hrecords) hbefore hbefore') hpass hpass'
    · exact passesMatch_succ_left hp hx hn hrecords
        (fun _ hbefore => ihn (Nat.le_of_succ_le hn) hm (habreast.left hrecords) hbefore hpass')
        hpass

end StagedTangent.Program
