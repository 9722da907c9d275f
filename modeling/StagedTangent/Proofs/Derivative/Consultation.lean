import StagedTangent.Proofs.Derivative.Progress
import StagedTangent.Proofs.Staging.Layout

/-!
# Which rules are asked for

The pass asks a table for the rule of an operation at an operand exactly if it has a tangent for that
operand and a tangent to record for the operation, `Program.Consults`. So it is the dependence of the
nodes and not the way the pass goes that settles which rules a derivative rests on. The main
statement, `derivativeBy_consults`, is that a derivative fails for want of a rule exactly if one of
these is missing, that the first of them is reported, and that no other rule matters. By
`passNode_first` a single step of the pass behaves so, with any rules, and keeps the invariant
`Program.Passed`.
-/

namespace StagedTangent

namespace RuleTable

variable {rules : RuleTable} {opcode : Opcode} {position : Nat} {rule : Rule}

theorem get_of_some (h : rules.get? opcode position = some rule) :
    rules.get opcode position = .ok rule := by
  rw [get, h]

theorem get_of_none (h : rules.get? opcode position = none) :
    rules.get opcode position = .error (.missingRule opcode position) := by
  rw [get, h]

end RuleTable

namespace Program

variable {rules rules' : RuleTable} {p : Program} {x position n : Nat} {op : Op}
  {operands : List Nat} {opcode : Opcode} {pass : TangentPass}

/-! ## Rules that are asked for -/

/-- At a node the rule of an opcode at an operand, counted from one, is asked for: the node is a call
of that opcode, it depends on the argument and is needed for the result, and the operand depends on
the argument. -/
def Consults (p : Program) (x node : Nat) (opcode : Opcode) (k : Nat) : Prop :=
  ∃ op operands position operand, p.nodes[node]? = some (.call op operands) ∧
    op.opcode = opcode ∧ operands[position]? = some operand ∧ k = position + 1 ∧
    (p.reachedFrom x).getD node false = true ∧ (p.neededFor p.result).getD node false = true ∧
    (p.reachedFrom x).getD operand false = true

/-- At a node a rule that is asked for is missing, and none at an earlier operand is. -/
structure MissesAt (p : Program) (rules : RuleTable) (x node : Nat) (opcode : Opcode) (k : Nat) :
    Prop where
  consults : p.Consults x node opcode k
  missing : rules.get? opcode k = none
  smallest : ∀ k' < k, p.Consults x node opcode k' → rules.get? opcode k' ≠ none

/-- At a node the pass stops with an error, for want of a rule. -/
def StopsWith (p : Program) (rules : RuleTable) (x node : Nat) (e : DerivativeError) : Prop :=
  ∃ opcode k, p.MissesAt rules x node opcode k ∧ e = .missingRule opcode k

/-- The first rule that is asked for and missing, by node and then by operand. -/
structure MissesFirst (p : Program) (rules : RuleTable) (x node : Nat) (opcode : Opcode) (k : Nat) :
    Prop extends p.MissesAt rules x node opcode k where
  first : ∀ node' < node, ∀ opcode' k', p.Consults x node' opcode' k' →
    rules.get? opcode' k' ≠ none

/-- At a call a rule is asked for where the call and the operand carry a tangent. -/
theorem consults_iff (hp : p.Regular) (hx : p.nodes[x]? = some (.argument position))
    (hnode : p.nodes[n]? = some (.call op operands)) {k : Nat} :
    p.Consults x n opcode k ↔ op.opcode = opcode ∧ ∃ place operand, k = place + 1 ∧
      operands[place]? = some operand ∧ p.Needed n ∧ p.Carries x operand := by
  constructor
  · rintro ⟨op', operands', place, operand, hcall, rfl, ho, rfl, -, hneeded, hreached⟩
    rw [hnode] at hcall
    cases hcall
    have hused := Needed.operand hp hneeded hnode (List.mem_of_getElem? ho)
    exact ⟨rfl, place, operand, rfl, ho, hneeded, ((reachedFrom_iff hp).1 hreached).2, .inr hused⟩
  · rintro ⟨rfl, place, operand, rfl, ho, hneeded, hcarries⟩
    have hmem := List.mem_of_getElem? ho
    have hcall := (carries_call hp hx hnode).2 ⟨hneeded, operand, hmem, hcarries⟩
    exact ⟨op, operands, place, operand, hnode, rfl, ho, rfl,
      (reachedFrom_iff hp).2 ⟨hneeded.lt_length hp, hcall.1⟩, hneeded,
      (reachedFrom_iff hp).2 ⟨hcarries.lt_length hp hx, hcarries.1⟩⟩

/-- Only calls ask for rules. -/
theorem Consults.exists_call {k : Nat} (h : p.Consults x n opcode k) :
    ∃ op operands, p.nodes[n]? = some (.call op operands) ∧ op.opcode = opcode := by
  obtain ⟨op, operands, -, -, hnode, hopcode, -⟩ := h
  exact ⟨op, operands, hnode, hopcode⟩

/-- A node that asks for rules carries a tangent. -/
theorem Consults.carries (hp : p.Regular) {k : Nat} (h : p.Consults x n opcode k) :
    p.Carries x n := by
  obtain ⟨-, -, -, -, -, -, -, -, hreached, hneeded, -⟩ := h
  exact ⟨((reachedFrom_iff hp).1 hreached).2, .inr hneeded⟩

/-- There is only one rule that is the first to be missing. -/
theorem MissesFirst.unique {n' k k' : Nat} {opcode' : Opcode} (h : p.MissesFirst rules x n opcode k)
    (h' : p.MissesFirst rules x n' opcode' k') : opcode = opcode' ∧ k = k' := by
  obtain rfl : n = n' := by
    rcases Nat.lt_trichotomy n n' with hlt | heq | hgt
    · exact absurd h.missing (h'.first n hlt opcode k h.consults)
    · exact heq
    · exact absurd h'.missing (h.first n' hgt opcode' k' h'.consults)
  obtain ⟨op, operands, hnode, rfl⟩ := h.consults.exists_call
  obtain ⟨op', operands', hnode', rfl⟩ := h'.consults.exists_call
  rw [hnode] at hnode'
  cases hnode'
  refine ⟨rfl, ?_⟩
  rcases Nat.lt_trichotomy k k' with hlt | heq | hgt
  · exact absurd h.missing (h'.smallest k hlt h.consults)
  · exact heq
  · exact absurd h'.missing (h.smallest k' hgt h'.consults)

/-! ## The tangent of a call -/

/-- An operand has a tangent and a rule is missing for it. -/
def Lacks (rules : RuleTable) (op : Op) (operands : List Nat) (tangents : Array (Option Nat))
    (place : Nat) : Prop :=
  (∃ o t, operands[place]? = some o ∧ tangents.getD o none = some t) ∧
    rules.get? op.opcode (place + 1) = none

/-- An operand that has a tangent and no rule stops the recording. Any other is passed, and then
there is a sum if there was one before or the operand has a tangent. -/
theorem addContribution_step {place o : Nat} (ho : operands[place]? = some o)
    (tangents : Array (Option Nat)) (total : Option Nat × Recorder) :
    (Lacks rules op operands tangents place ∧
      addContribution rules op operands tangents total (o, place) =
        .error (.missingRule op.opcode (place + 1))) ∨
    (¬ Lacks rules op operands tangents place ∧
      ∃ total', addContribution rules op operands tangents total (o, place) = .ok total' ∧
        ((∃ t, total'.1 = some t) ↔
          (∃ t, total.1 = some t) ∨ ∃ t, tangents.getD o none = some t)) := by
  cases ht : tangents.getD o none with
  | none =>
    refine .inr ⟨?_, total, addContribution_none total ht, ?_⟩
    · rintro ⟨⟨o', t, ho', ht'⟩, -⟩
      rw [ho] at ho'
      cases ho'
      rw [ht] at ht'
      cases ht'
    · exact ⟨.inl, fun h => h.resolve_right nofun⟩
  | some t =>
    cases hrule : rules.get? op.opcode (place + 1) with
    | none =>
      refine .inl ⟨⟨⟨o, t, ho, ht⟩, hrule⟩, ?_⟩
      simp only [addContribution, ht, RuleTable.get_of_none hrule]
      rfl
    | some rule =>
      refine .inr ⟨fun hlacks => ?_, ?_⟩
      · rw [hlacks.2] at hrule
        cases hrule
      · rw [addContribution_of_rule ht (RuleTable.get_of_some hrule)]
        cases total.1 with
        | none => exact ⟨_, rfl, iff_of_true ⟨_, rfl⟩ (.inr ⟨t, rfl⟩)⟩
        | some sum => exact ⟨_, rfl, iff_of_true ⟨_, rfl⟩ (.inr ⟨t, rfl⟩)⟩

/-- Recording the tangent of a call stops at the first operand that has a tangent and no rule.
Otherwise the call has a tangent if some operand has one. -/
theorem callTangent_first (rules : RuleTable) (op : Op) (operands : List Nat)
    (pass : TangentPass) :
    (∃ place, Lacks rules op operands pass.tangents place ∧
      (∀ place' < place, ¬ Lacks rules op operands pass.tangents place') ∧
      callTangent rules op operands pass = .error (.missingRule op.opcode (place + 1))) ∨
    ((∀ place, ¬ Lacks rules op operands pass.tangents place) ∧
      ∃ c r, callTangent rules op operands pass = .ok (c, r) ∧
        ((∃ t, c = some t) ↔ ∃ o ∈ operands, ∃ t, pass.tangents.getD o none = some t)) := by
  have hbeyond : ∀ place, Lacks rules op operands pass.tangents place →
      place < operands.zipIdx.length := by
    rintro place ⟨⟨o, -, ho, -⟩, -⟩
    rw [List.length_zipIdx]
    exact (List.getElem?_eq_some_iff.1 ho).1
  have hloop := foldlM_first (f := addContribution rules op operands pass.tangents)
    (s := (none, pass.recorder))
    (fun place total => (∃ t, total.1 = some t) ↔
      ∃ o ∈ operands.take place, ∃ t, pass.tangents.getD o none = some t)
    (fun place e => Lacks rules op operands pass.tangents place ∧
      e = .missingRule op.opcode (place + 1))
    (by simp) fun place item total (hitem : operands.zipIdx[place]? = some item) hinv => by
      rw [List.getElem?_zipIdx, Option.map_eq_some_iff] at hitem
      obtain ⟨o, ho, rfl⟩ := hitem
      rw [Nat.zero_add]
      rcases addContribution_step ho pass.tangents total with
        ⟨hlacks, herror⟩ | ⟨hgood, total', hok, hsome⟩
      · exact .inl ⟨_, ⟨hlacks, rfl⟩, herror⟩
      · refine .inr ⟨fun e hbad => hgood hbad.1, total', hok, ?_⟩
        obtain ⟨hplace, rfl⟩ := List.getElem?_eq_some_iff.1 ho
        rw [hsome, hinv, List.take_succ_eq_append_getElem hplace]
        simp only [List.mem_append, List.mem_singleton, or_and_right, exists_or, exists_eq_left]
  rcases hloop with ⟨place, e, -, ⟨hlacks, rfl⟩, hfirst, herror⟩ | ⟨hgood, ⟨c, r⟩, hok, hsome⟩
  · exact .inl ⟨place, hlacks, fun place' hlt hlacks' => hfirst place' hlt _ ⟨hlacks', rfl⟩, herror⟩
  · rw [List.length_zipIdx, List.take_length] at hsome
    exact .inr ⟨fun place hlacks => hgood place (hbeyond place hlacks) _ ⟨hlacks, rfl⟩, c, r, hok,
      hsome⟩

/-- Tables that agree where an operand has a tangent record the same tangent. -/
theorem callTangent_congr
    (h : ∀ place o t, operands[place]? = some o → pass.tangents.getD o none = some t →
      rules.get? op.opcode (place + 1) = rules'.get? op.opcode (place + 1)) :
    callTangent rules op operands pass = callTangent rules' op operands pass := by
  refine foldlM_congr_of_invariant (fun _ _ => True) trivial
    (fun place item total hitem _ => ?_) fun _ _ _ _ _ _ _ => trivial
  rw [List.getElem?_zipIdx, Option.map_eq_some_iff] at hitem
  obtain ⟨o, ho, rfl⟩ := hitem
  rw [Nat.zero_add]
  cases ht : pass.tangents.getD o none with
  | none => rw [addContribution_none total ht, addContribution_none total ht]
  | some t => simp only [addContribution, ht, RuleTable.get, h place o t ho ht]

/-! ## A step of the pass -/

/-- The state of the pass after a number of nodes, with any rules: a tangent is there for the nodes
that carry one. -/
structure Passed (p : Program) (x n : Nat) (pass : TangentPass) : Prop where
  size : pass.tangents.size = n
  carries : ∀ i < n, (∃ t, pass.tangents.getD i none = some t) ↔ p.Carries x i

theorem passed_start (p : Program) (x : Nat) : p.Passed x 0 ⟨p.withDirection, #[]⟩ :=
  ⟨rfl, fun i hi => absurd hi (Nat.not_lt_zero i)⟩

/-- The pass adds an entry. -/
theorem Passed.push (h : p.Passed x n pass) (r : Recorder) (entry : Option Nat)
    (hentry : (∃ t, entry = some t) ↔ p.Carries x n) :
    p.Passed x (n + 1) ⟨r, pass.tangents.push entry⟩ := by
  refine ⟨by rw [Array.size_push, h.size], fun i hi => ?_⟩
  rw [getD_push, h.size]
  split
  · next heq => rwa [heq]
  · next hne => exact h.carries i (Nat.lt_of_le_of_ne (Nat.le_of_lt_succ hi) hne)

/-- A node that carries no tangent gets none. -/
theorem Passed.push_none (h : p.Passed x n pass) (hnot : ¬ p.Carries x n) :
    p.Passed x (n + 1) ⟨pass.recorder, pass.tangents.push none⟩ :=
  h.push pass.recorder none ⟨nofun, fun hcarries => absurd hcarries hnot⟩

/-- At a call that carries a tangent the pass asks for the rules of the operands that have one. -/
theorem Passed.consults_iff (hp : p.Regular) (hx : p.nodes[x]? = some (.argument position))
    (h : p.Passed x n pass) (hnode : p.nodes[n]? = some (.call op operands))
    (hneeded : p.Needed n) {k : Nat} :
    p.Consults x n opcode k ↔ op.opcode = opcode ∧ ∃ place, k = place + 1 ∧
      ∃ o t, operands[place]? = some o ∧ pass.tangents.getD o none = some t := by
  rw [Program.consults_iff hp hx hnode]
  refine and_congr_right fun _ => exists_congr fun place => ?_
  constructor
  · rintro ⟨o, rfl, ho, -, hcarries⟩
    obtain ⟨t, ht⟩ :=
      (h.carries o (hp.operand_lt hnode (List.mem_of_getElem? ho))).2 hcarries
    exact ⟨rfl, o, t, ho, ht⟩
  · rintro ⟨rfl, o, t, ho, ht⟩
    exact ⟨o, rfl, ho, hneeded,
      (h.carries o (hp.operand_lt hnode (List.mem_of_getElem? ho))).1 ⟨t, ht⟩⟩

/-- What the pass does with a call that carries a tangent. -/
theorem passNode_of_carries (hp : p.Regular) (hx : p.nodes[x]? = some (.argument position))
    (h : p.Passed x n pass) (hnode : p.nodes[n]? = some (.call op operands))
    (hcarries : p.Carries x n) :
    passNode rules x p.nodes.length (p.relevant x) pass (.call op operands) =
      callTangent rules op operands pass >>= fun total =>
        .ok ⟨total.2, pass.tangents.push total.1⟩ := by
  have hne : n ≠ x := by
    rintro rfl
    rw [hx] at hnode
    cases hnode
  have hrelevant := (relevant_iff hp).2 ⟨hcarries.1, hcarries.2.resolve_left hne⟩
  simp only [passNode, h.size, if_neg hne, hrelevant]

/-- What it does with any other node rests on no rule. -/
theorem exists_passNode (hp : p.Regular) (hx : p.nodes[x]? = some (.argument position))
    (h : p.Passed x n pass) {node : Node} (hnode : p.nodes[n]? = some node)
    (hother : p.IsCall n → ¬ p.Carries x n) :
    ∃ pass', p.Passed x (n + 1) pass' ∧ ∀ rules,
      passNode rules x p.nodes.length (p.relevant x) pass node = .ok pass' := by
  by_cases hself : n = x
  · subst hself
    refine ⟨_, h.push pass.recorder (some p.nodes.length)
      (iff_of_true ⟨_, rfl⟩ (carries_self p n)), fun rules => ?_⟩
    simp only [passNode, h.size, if_true]
  · have hnot : ¬ p.Carries x n := by
      cases node with
      | argument position' => exact fun hcarries => hself ((carries_argument hnode).1 hcarries)
      | call op operands => exact hother ⟨op, operands, hnode⟩
    have hirrelevant : p.relevant x n = false := by
      rw [Bool.eq_false_iff]
      intro hrelevant
      obtain ⟨hpath, hneeded⟩ := (relevant_iff hp).1 hrelevant
      exact hnot ⟨hpath, .inr hneeded⟩
    refine ⟨_, h.push_none hnot, fun rules => ?_⟩
    cases node <;> simp only [passNode, h.size, if_neg hself, hirrelevant]

/-- A step of the pass stops at the first rule that it asks for and that is missing, and otherwise
goes on. -/
theorem passNode_first (rules : RuleTable) (hp : p.Regular)
    (hx : p.nodes[x]? = some (.argument position)) (h : p.Passed x n pass) {node : Node}
    (hnode : p.nodes[n]? = some node) :
    (∃ e, p.StopsWith rules x n e ∧
      passNode rules x p.nodes.length (p.relevant x) pass node = .error e) ∨
    ((∀ e, ¬ p.StopsWith rules x n e) ∧
      ∃ pass', passNode rules x p.nodes.length (p.relevant x) pass node = .ok pass' ∧
        p.Passed x (n + 1) pass') := by
  by_cases hcall : p.IsCall n ∧ p.Carries x n
  · obtain ⟨⟨op, operands, hop⟩, hcarries⟩ := hcall
    obtain rfl : node = .call op operands := Option.some.inj (hnode.symm.trans hop)
    have hneeded := ((carries_call hp hx hnode).1 hcarries).1
    rw [passNode_of_carries hp hx h hnode hcarries]
    rcases callTangent_first rules op operands pass with
      ⟨place, hlacks, hfirst, herror⟩ | ⟨hgood, c, r, hok, hsome⟩
    · refine .inl ⟨_, ⟨op.opcode, place + 1, ⟨?_, hlacks.2, fun k hk hconsults hmissing => ?_⟩, rfl⟩,
        by rw [herror]; rfl⟩
      · exact (h.consults_iff hp hx hnode hneeded).2 ⟨rfl, place, rfl, hlacks.1⟩
      · obtain ⟨-, place', rfl, hplace'⟩ := (h.consults_iff hp hx hnode hneeded).1 hconsults
        exact hfirst place' (Nat.lt_of_succ_lt_succ hk) ⟨hplace', hmissing⟩
    · refine .inr ⟨?_, _, by rw [hok, ok_bind], h.push r c ?_⟩
      · rintro e ⟨opcode, k, hmisses, -⟩
        obtain ⟨rfl, place, rfl, hplace⟩ := (h.consults_iff hp hx hnode hneeded).1 hmisses.consults
        exact hgood place ⟨hplace, hmisses.missing⟩
      · rw [hsome, carries_call hp hx hnode, and_iff_right hneeded]
        exact exists_congr fun o => and_congr_right fun ho => h.carries o (hp.operand_lt hnode ho)
  · obtain ⟨pass', hpass', hok⟩ :=
      exists_passNode hp hx h hnode fun hop hcarries => hcall ⟨hop, hcarries⟩
    refine .inr ⟨?_, pass', hok rules, hpass'⟩
    rintro e ⟨opcode, k, hmisses, -⟩
    obtain ⟨op, operands, hop, -⟩ := hmisses.consults.exists_call
    exact hcall ⟨⟨op, operands, hop⟩, hmisses.consults.carries hp⟩

/-- A pass that has come to some node is in such a state. -/
theorem passed_of_passBy (hp : p.Regular) (hx : p.nodes[x]? = some (.argument position))
    (hn : n ≤ p.nodes.length) (h : p.passBy rules x n = .ok pass) : p.Passed x n pass := by
  induction n generalizing pass with
  | zero =>
    obtain rfl := Except.ok.inj h
    exact passed_start p x
  | succ n ih =>
    have hnode := List.getElem?_eq_getElem hn
    rw [passBy_succ hnode] at h
    obtain ⟨before, hbefore, h⟩ := bind_eq_ok.1 h
    rcases passNode_first rules hp hx (ih (Nat.le_of_lt hn) hbefore) hnode with
      ⟨e, -, herror⟩ | ⟨-, after, hok, hafter⟩
    · rw [h] at herror
      cases herror
    · rw [h] at hok
      cases hok
      exact hafter

/-- A step of the pass does the same with tables that agree on the rules that it asks for. -/
theorem passNode_congr (hp : p.Regular) (hx : p.nodes[x]? = some (.argument position))
    (hagree : ∀ node opcode k, p.Consults x node opcode k →
      rules.get? opcode k = rules'.get? opcode k)
    (h : p.Passed x n pass) {node : Node} (hnode : p.nodes[n]? = some node) :
    passNode rules x p.nodes.length (p.relevant x) pass node =
      passNode rules' x p.nodes.length (p.relevant x) pass node := by
  by_cases hcall : p.IsCall n ∧ p.Carries x n
  · obtain ⟨⟨op, operands, hop⟩, hcarries⟩ := hcall
    obtain rfl : node = .call op operands := Option.some.inj (hnode.symm.trans hop)
    have hneeded := ((carries_call hp hx hnode).1 hcarries).1
    rw [passNode_of_carries hp hx h hnode hcarries, passNode_of_carries hp hx h hnode hcarries,
      callTangent_congr fun place o t ho ht => hagree n op.opcode (place + 1)
        ((h.consults_iff hp hx hnode hneeded).2 ⟨rfl, place, rfl, o, t, ho, ht⟩)]
  · obtain ⟨pass', -, hok⟩ :=
      exists_passNode hp hx h hnode fun hop hcarries => hcall ⟨hop, hcarries⟩
    rw [hok, hok]

/-! ## The whole pass -/

/-- The pass stops at the first rule that is asked for and missing, and otherwise comes to the end
of the tape. -/
theorem passBy_first (rules : RuleTable) (hp : p.Regular)
    (hx : p.nodes[x]? = some (.argument position)) :
    (∃ node opcode k, p.MissesFirst rules x node opcode k ∧
      p.passBy rules x p.nodes.length = .error (.missingRule opcode k)) ∨
    ((∀ node opcode k, p.Consults x node opcode k → rules.get? opcode k ≠ none) ∧
      ∃ pass, p.passBy rules x p.nodes.length = .ok pass) := by
  -- Where a rule is missing at some operand of a node, there is a first such operand.
  have hleast : ∀ node, (∀ opcode k, ¬ p.MissesAt rules x node opcode k) → ∀ opcode k,
      p.Consults x node opcode k → rules.get? opcode k ≠ none := by
    intro node hnone opcode k
    induction k using Nat.strongRecOn with
    | ind k ih => exact fun hconsults hmissing => hnone opcode k ⟨hconsults, hmissing, ih⟩
  rw [passBy, List.take_length]
  rcases foldlM_first (p.Passed x) (p.StopsWith rules x) (passed_start p x)
      fun n node pass hnode hpass => passNode_first rules hp hx hpass hnode with
    ⟨n, _, -, ⟨opcode, k, hmisses, rfl⟩, hfirst, herror⟩ | ⟨hgood, pass, hok, -⟩
  · refine .inl ⟨n, opcode, k, ⟨hmisses, fun node hlt => hleast node ?_⟩, herror⟩
    exact fun opcode' k' hmisses' => hfirst node hlt _ ⟨opcode', k', hmisses', rfl⟩
  · refine .inr ⟨fun node opcode k hconsults => ?_, pass, hok⟩
    obtain ⟨op, operands, hnode, -⟩ := hconsults.exists_call
    have hlt := (List.getElem?_eq_some_iff.1 hnode).1
    refine hleast node (fun opcode' k' hmisses' => ?_) opcode k hconsults
    exact hgood node hlt _ ⟨opcode', k', hmisses', rfl⟩

theorem passBy_congr (hp : p.Regular) (hx : p.nodes[x]? = some (.argument position))
    (hagree : ∀ node opcode k, p.Consults x node opcode k →
      rules.get? opcode k = rules'.get? opcode k) :
    p.passBy rules x p.nodes.length = p.passBy rules' x p.nodes.length := by
  rw [passBy, passBy, List.take_length]
  refine foldlM_congr_of_invariant (p.Passed x) (passed_start p x)
    (fun n node pass hnode hpass => passNode_congr hp hx hagree hpass hnode)
    fun n node pass pass' hnode hpass hok => ?_
  rcases passNode_first rules hp hx hpass hnode with ⟨e, -, herror⟩ | ⟨-, after, hok', h⟩
  · rw [herror] at hok
    cases hok
  · rw [hok'] at hok
    cases hok
    exact h

/-- A derivative is missing for want of a rule exactly where the pass stops. -/
theorem derivativeBy_eq_missingRule (h : p.WellFormed) (hx : p.arguments[position]? = some x)
    {k : Nat} :
    p.derivativeBy rules position = .error (.missingRule opcode k) ↔
      p.passBy rules x p.nodes.length = .error (.missingRule opcode k) := by
  rw [derivativeBy_eq rules h hx, recordDerivative_eq]
  cases p.passBy rules x p.nodes.length with
  | error e =>
    show Except.error e = _ ↔ _
    rw [Except.error.injEq, Except.error.injEq]
  | ok pass =>
    rw [ok_bind, ok_bind]
    refine iff_of_false ?_ nofun
    cases (p.finish pass).2.close (p.finish pass).1 with
    | error e => exact nofun
    | ok d => exact nofun

/-- A derivative is missing for want of a rule exactly if a rule is missing that is asked for, and
then the first such rule is reported, by node and then by operand. Other rules never matter: tables
that agree on the rules that are asked for give the same derivative or the same error. -/
theorem derivativeBy_consults (h : p.WellFormed) (hx : p.arguments[position]? = some x)
    (rules : RuleTable) :
    ((∃ opcode k, p.derivativeBy rules position = .error (.missingRule opcode k)) ↔
      ∃ node opcode k, p.Consults x node opcode k ∧ rules.get? opcode k = none) ∧
    (∀ opcode k, p.derivativeBy rules position = .error (.missingRule opcode k) ↔
      ∃ node, p.MissesFirst rules x node opcode k) ∧
    ∀ rules', (∀ node opcode k, p.Consults x node opcode k →
        rules.get? opcode k = rules'.get? opcode k) →
      p.derivativeBy rules position = p.derivativeBy rules' position := by
  have hp := h.regular
  have hargument := hp.argument_at hx
  refine ⟨?_, fun opcode k => ?_, fun rules' hagree => ?_⟩
  · simp only [derivativeBy_eq_missingRule h hx]
    rcases passBy_first rules hp hargument with ⟨node, opcode, k, hfirst, herror⟩ | ⟨hall, pass, hok⟩
    · exact iff_of_true ⟨opcode, k, herror⟩ ⟨node, opcode, k, hfirst.consults, hfirst.missing⟩
    · refine iff_of_false ?_ ?_
      · rintro ⟨opcode, k, herror⟩
        rw [hok] at herror
        cases herror
      · rintro ⟨node, opcode, k, hconsults, hmissing⟩
        exact hall node opcode k hconsults hmissing
  · rw [derivativeBy_eq_missingRule h hx]
    rcases passBy_first rules hp hargument with
      ⟨node, opcode', k', hfirst, herror⟩ | ⟨hall, pass, hok⟩
    · constructor
      · intro heq
        rw [herror] at heq
        cases heq
        exact ⟨node, hfirst⟩
      · rintro ⟨node', hfirst'⟩
        obtain ⟨rfl, rfl⟩ := hfirst.unique hfirst'
        exact herror
    · refine iff_of_false ?_ ?_
      · intro herror
        rw [hok] at herror
        cases herror
      · rintro ⟨node, hfirst⟩
        exact hall node opcode k hfirst.consults hfirst.missing
  · rw [derivativeBy_eq rules h hx, derivativeBy_eq rules' h hx, recordDerivative_eq,
      recordDerivative_eq, passBy_congr hp hargument hagree]

/-- Of `x * sin y`, with an `abs x` that nothing uses, the derivative along `x` rests on the rule of
products at their first operand and on no other. -/
theorem derivativeBy_consults_product :
    let p : Program := ⟨.ofNodes #[.argument 0, .argument 1, .call .sin [1], .call .mul [0, 2],
      .call .abs [0]], [0, 1], 3, 2⟩
    (∃ node, p.MissesFirst .empty 0 node .mul 1) ∧
      p.derivative 0 = p.derivativeBy ⟨[((.mul, 1), Rule.replaceFirst .mul)]⟩ 0 := by
  intro p
  have h : p.WellFormed := by decide
  have hx : p.arguments[0]? = some 0 := rfl
  refine ⟨((derivativeBy_consults h hx .empty).2.1 .mul 1).1 (by decide +kernel),
    (derivativeBy_consults h hx .standard).2.2 _ ?_⟩
  have honly : ∀ node < 5, (p.reachedFrom 0).getD node false = true →
      (p.neededFor p.result).getD node false = true → node = 0 ∨ node = 3 := by decide
  rintro node opcode k ⟨op, operands, place, operand, hnode, rfl, ho, rfl, hreached, hneeded, hfrom⟩
  rcases honly node (List.getElem?_eq_some_iff.1 hnode).1 hreached hneeded with rfl | rfl
  · cases hnode
  · cases hnode
    match place, ho with
    | 0, _ => rfl
    | 1, ho =>
      cases ho
      exact absurd hfrom (by decide)

end Program

end StagedTangent
