import StagedTangent.Derivative.Directional
import StagedTangent.Proofs.Derivative.Contribution

/-!
# The tangent of a call

The tangent of a call is the sum of what its operands contribute, where an operand without a tangent
contributes nothing. `CallTangent` says how it arises from the tangents of the operands, one case
for each way in which they can be there or not, and `exists_callTangent` shows that the pass of
differentiation records it.
-/

namespace StagedTangent

/-- No operation takes more than two operands. -/
theorem Op.arity_le (op : Op) : op.arity ≤ 2 := by
  cases op <;> simp [Op.arity]

/-- A node holds what an operand contributes to the tangent of a call. -/
structure Contributed (nodes : List Node) (op : Op) (position : Nat) (operands : List Nat)
    (tangent node : Nat) : Prop where
  operand_lt : ∀ o ∈ operands, o < nodes.length
  tangent_lt : tangent < nodes.length
  lt : node < nodes.length
  value : ∀ {V : Type} {interpret : Op → List V → Except RunError V} {inputs vs : List V},
    operands.mapM (valueIn interpret inputs nodes) = some vs →
    valueIn interpret inputs nodes node =
      (valueIn interpret inputs nodes tangent).bind (contribution interpret op position vs)

/-- A node is the tangent of a call, given the tangents of other nodes. -/
inductive CallTangent (nodes : List Node) (tangent : Nat → Option Nat) (op : Op) :
    List Nat → Nat → Prop where
  | unary {a t c : Nat} : tangent a = some t → Contributed nodes op 0 [a] t c →
    CallTangent nodes tangent op [a] c
  | left {a b t c : Nat} : tangent a = some t → tangent b = none →
    Contributed nodes op 0 [a, b] t c → CallTangent nodes tangent op [a, b] c
  | right {a b t c : Nat} : tangent a = none → tangent b = some t →
    Contributed nodes op 1 [a, b] t c → CallTangent nodes tangent op [a, b] c
  | both {a b s t c d e : Nat} : tangent a = some s → tangent b = some t →
    Contributed nodes op 0 [a, b] s c → Contributed nodes op 1 [a, b] t d →
    nodes[e]? = some (.call .add [c, d]) → c < e → d < e → CallTangent nodes tangent op [a, b] e

variable {nodes nodes' : List Node}

theorem Contributed.mono {op : Op} {position t c : Nat} {operands : List Nat}
    (h : Contributed nodes op position operands t c) (hpre : nodes <+: nodes') :
    Contributed nodes' op position operands t c := by
  have hle := hpre.length_le
  refine ⟨fun o ho => Nat.lt_of_lt_of_le (h.operand_lt o ho) hle,
    Nat.lt_of_lt_of_le h.tangent_lt hle, Nat.lt_of_lt_of_le h.lt hle,
    fun {V interpret inputs vs} hvs => ?_⟩
  rw [valueIn_extend hpre h.lt, valueIn_extend hpre h.tangent_lt]
  refine h.value ?_
  rw [← hvs]
  exact mapM_congr_left fun o ho => (valueIn_extend hpre (h.operand_lt o ho)).symm

theorem CallTangent.lt {tangent : Nat → Option Nat} {op : Op} {operands : List Nat} {c : Nat}
    (h : CallTangent nodes tangent op operands c) : c < nodes.length := by
  cases h with
  | unary _ hc => exact hc.lt
  | left _ _ hc => exact hc.lt
  | right _ _ hc => exact hc.lt
  | both _ _ _ _ he _ _ => exact (List.getElem?_eq_some_iff.1 he).1

/-- What the tangent of a call is does not change when nodes and tangents of others are added. -/
theorem CallTangent.mono {tangent tangent' : Nat → Option Nat} {op : Op} {operands : List Nat}
    {c : Nat} (h : CallTangent nodes tangent op operands c) (hpre : nodes <+: nodes')
    (htangent : ∀ o ∈ operands, tangent' o = tangent o) :
    CallTangent nodes' tangent' op operands c := by
  cases h with
  | unary ha hc => exact .unary (by rw [htangent _ (by simp), ha]) (hc.mono hpre)
  | left ha hb hc =>
    exact .left (by rw [htangent _ (by simp), ha]) (by rw [htangent _ (by simp), hb])
      (hc.mono hpre)
  | right ha hb hc =>
    exact .right (by rw [htangent _ (by simp), ha]) (by rw [htangent _ (by simp), hb])
      (hc.mono hpre)
  | both ha hb hc hd he hce hde =>
    refine .both (by rw [htangent _ (by simp), ha]) (by rw [htangent _ (by simp), hb])
      (hc.mono hpre) (hd.mono hpre) ?_ hce hde
    obtain ⟨more, rfl⟩ := hpre
    rw [List.getElem?_append_left (List.getElem?_eq_some_iff.1 he).1, he]

/-! ## Recording it -/

namespace Program

/-- What holds of the calls recorded for the tangent of a call. -/
def TangentCall (operands : List Nat) (tangents : Array (Option Nat)) (start place : Nat) (op : Op)
    (args : List Nat) : Prop :=
  args.length = op.arity ∧ op ≠ .abs ∧ ∀ arg ∈ args, arg < place ∧
    (arg ∈ operands ∨ (∃ o ∈ operands, tangents.getD o none = some arg) ∨ start ≤ arg)

variable {rules : RuleTable} {op : Op} {operands : List Nat} {tangents : Array (Option Nat)}
  {r : Recorder}

/-- Calls that may refer to what is recorded from some place on may refer to what is recorded from
an earlier one on. -/
theorem TangentCall.of_le {start start' place : Nat} {args : List Nat} (hle : start ≤ start')
    (h : TangentCall operands tangents start' place op args) :
    TangentCall operands tangents start place op args := by
  refine ⟨h.1, h.2.1, fun arg harg => ⟨(h.2.2 arg harg).1, ?_⟩⟩
  exact (h.2.2 arg harg).2.imp_right (Or.imp_right fun hge => Nat.le_trans hle hge)

/-- At an operand with a tangent its rule records a factor, the map of the rule what it contributes,
and the pass the sum, if there is one already. -/
theorem addContribution_of_rule {total : Option Nat × Recorder} {o position t : Nat} {rule : Rule}
    (ht : tangents.getD o none = some t) (hrule : rules.get op.opcode (position + 1) = .ok rule) :
    addContribution rules op operands tangents total (o, position) =
      let factored := (rule op operands).run total.2
      let mapped := (factored.1.apply t).run factored.2
      match total.1 with
      | none => .ok (some mapped.1, mapped.2)
      | some sum => .ok (some mapped.2.size, (mapped.2.call .add [sum, mapped.1]).2) := by
  simp only [addContribution, ht, hrule, ok_bind]
  cases total.1 <;> rfl

/-- The nodes recorded for one operand. -/
theorem addContribution_eq {o position t : Nat} {rule : Rule} (total : Option Nat)
    (ht : tangents.getD o none = some t)
    (hrule : rules.get op.opcode (position + 1) = .ok rule) :
    addContribution rules op operands tangents (total, r) (o, position) =
      let (c, r') := (rule.contribute op operands t).run r
      match total with
      | none => .ok (some c, r')
      | some s => .ok (some r'.size, (r'.call .add [s, c]).2) := by
  rw [addContribution_of_rule ht hrule, Rule.contribute, Fragment.run_bind]

/-- An operand without a tangent is passed over. -/
theorem addContribution_none {o position : Nat} (total : Option Nat × Recorder)
    (ht : tangents.getD o none = none) :
    addContribution rules op operands tangents total (o, position) = .ok total := by
  simp only [addContribution, ht]

/-- What is recorded for one operand is its contribution. -/
theorem exists_contribution (position : Nat) {o t : Nat} (hcount : operands.length = op.arity)
    (ho : operands[position]? = some o) (ht : tangents.getD o none = some t)
    (hsmooth : op ≠ .abs) (hlt : ∀ o ∈ operands, o < r.size) (htlt : t < r.size) :
    ∃ rule c r', RuleTable.standard.get op.opcode (position + 1) = .ok rule ∧
      (rule.contribute op operands t).run r = (c, r') ∧
      r.Extends (TangentCall operands tangents r.size) r' ∧
      Contributed r'.nodes op position operands t c ∧ (c = t ∨ r.size ≤ c) := by
  obtain ⟨hposition, rfl⟩ := List.getElem?_eq_some_iff.1 ho
  obtain ⟨rule, hrule, hcontributes⟩ :=
    standard_contributes (by rwa [← hcount]) hsmooth
  refine ⟨rule, _, _, hrule, rfl, ?_⟩
  have hrun := (hcontributes.ensures hcount hlt htlt).run
  have hextends : r.Extends (TangentCall operands tangents r.size)
      ((rule.contribute op operands t).run r).2 := by
    refine hrun.1.imp fun place op' args _ hcall => ?_
    refine ⟨hcall.count, hcall.smooth, fun arg harg => ⟨hcall.lt arg harg, ?_⟩⟩
    rcases hcall.source arg harg with hmem | rfl | hge
    · exact .inl hmem
    · exact .inr (.inl ⟨_, List.getElem_mem hposition, ht⟩)
    · exact .inr (.inr hge)
  have hle : r.nodes.length ≤ ((rule.contribute op operands t).run r).2.nodes.length :=
    hextends.length_le
  rw [Recorder.size_eq_length] at hlt htlt
  refine ⟨hextends, ⟨fun o ho => Nat.lt_of_lt_of_le (hlt o ho) hle,
    Nat.lt_of_lt_of_le htlt hle, ?_, fun {V interpret inputs vs} hvs => ?_⟩, hrun.2.2⟩
  · rw [← Recorder.size_eq_length]
    exact hrun.2.1
  · rw [Fragment.valueIn_run, valueIn_extend hextends.nodes htlt]
    refine hcontributes.value hcount ?_ ?_ ?_
    · rwa [Recorder.size_eq_length]
    · rwa [Recorder.size_eq_length]
    · rw [← hvs]
      exact mapM_congr_left fun o ho => (valueIn_extend hextends.nodes (hlt o ho)).symm

/-- Two contributions and their sum. -/
theorem exists_callTangent_both {pass : TangentPass} {a b s t : Nat}
    (hcount : [a, b].length = op.arity)
    (hsmooth : op ≠ .abs) (hlt : ∀ o ∈ [a, b], o < pass.recorder.size)
    (ha : pass.tangents.getD a none = some s) (hb : pass.tangents.getD b none = some t)
    (hs : s < pass.recorder.size) (ht : t < pass.recorder.size) :
    ∃ e r', callTangent .standard op [a, b] pass = .ok (some e, r') ∧
      pass.recorder.Extends (TangentCall [a, b] pass.tangents pass.recorder.size) r' ∧
      CallTangent r'.nodes (fun o => pass.tangents.getD o none) op [a, b] e ∧
      pass.recorder.size ≤ e := by
  obtain ⟨rule, c, r₁, hrule, hrun, hextends, hc, hcsource⟩ :=
    exists_contribution 0 hcount rfl ha hsmooth hlt hs
  have hle : pass.recorder.size ≤ r₁.size := hextends.size_le
  obtain ⟨rule', d, r₂, hrule', hrun', hextends', hd, hdsource⟩ :=
    exists_contribution 1 (r := r₁) hcount rfl hb hsmooth
      (fun o ho => Nat.lt_of_lt_of_le (hlt o ho) hle) (Nat.lt_of_lt_of_le ht hle)
  have hle' : r₁.size ≤ r₂.size := hextends'.size_le
  have hclt : c < r₁.size := by
    rw [Recorder.size_eq_length]
    exact hc.lt
  have hdlt : d < r₂.size := by
    rw [Recorder.size_eq_length]
    exact hd.lt
  have hall : pass.recorder.Extends (TangentCall [a, b] pass.tangents pass.recorder.size) r₂ :=
    hextends.trans (hextends'.imp fun place op' args _ hcall => hcall.of_le hle)
  have hsum : r₂.Extends (TangentCall [a, b] pass.tangents pass.recorder.size)
      (r₂.call .add [c, d]).2 := by
    refine .call ⟨rfl, by decide, fun arg harg => ?_⟩
    rcases List.mem_pair.1 harg with rfl | rfl
    · refine ⟨Nat.lt_of_lt_of_le hclt hle', .inr ?_⟩
      rcases hcsource with rfl | hge
      · exact .inl ⟨a, by simp, ha⟩
      · exact .inr hge
    · refine ⟨hdlt, .inr ?_⟩
      rcases hdsource with rfl | hge
      · exact .inl ⟨b, by simp, hb⟩
      · exact .inr (Nat.le_trans hle hge)
  refine ⟨r₂.size, (r₂.call .add [c, d]).2, ?_, hall.trans hsum, ?_,
    Nat.le_trans hle hle'⟩
  · change (addContribution .standard op [a, b] pass.tangents (none, pass.recorder) (a, 0) >>=
      fun total => addContribution .standard op [a, b] pass.tangents total (b, 1) >>= pure) = _
    rw [addContribution_eq none ha hrule, hrun, ok_bind, addContribution_eq (some c) hb hrule', hrun']
    rfl
  · refine .both ha hb (hc.mono (hextends'.nodes.trans hsum.nodes)) (hd.mono hsum.nodes) ?_
      (Nat.lt_of_lt_of_le hclt hle') hdlt
    rw [Recorder.nodes_call, Recorder.size_eq_length]
    simp

/-- One contribution, where no other operand has a tangent. -/
theorem exists_callTangent_single {pass : TangentPass} (position : Nat) {o t : Nat}
    (hcount : operands.length = op.arity) (ho : operands[position]? = some o)
    (ht : pass.tangents.getD o none = some t) (hsmooth : op ≠ .abs)
    (hlt : ∀ o ∈ operands, o < pass.recorder.size) (htlt : t < pass.recorder.size)
    (honly : callTangent .standard op operands pass =
      addContribution .standard op operands pass.tangents (none, pass.recorder) (o, position))
    (hmake : ∀ {nodes : List Node} {c : Nat}, Contributed nodes op position operands t c →
      CallTangent nodes (fun o => pass.tangents.getD o none) op operands c) :
    ∃ c r', callTangent .standard op operands pass = .ok (some c, r') ∧
      pass.recorder.Extends (TangentCall operands pass.tangents pass.recorder.size) r' ∧
      CallTangent r'.nodes (fun o => pass.tangents.getD o none) op operands c ∧
      ((∃ o ∈ operands, pass.tangents.getD o none = some c) ∨ pass.recorder.size ≤ c) := by
  obtain ⟨rule, c, r', hrule, hrun, hextends, hc, hsource⟩ :=
    exists_contribution position hcount ho ht hsmooth hlt htlt
  refine ⟨c, r', ?_, hextends, hmake hc, ?_⟩
  · rw [honly, addContribution_eq none ht hrule, hrun]
  · rcases hsource with rfl | hge
    · exact .inl ⟨o, List.mem_of_getElem? ho, ht⟩
    · exact .inr hge

/-- The tangent of a call is recorded if some operand has one. -/
theorem exists_callTangent {pass : TangentPass} (hcount : operands.length = op.arity)
    (hsmooth : op ≠ .abs) (hlt : ∀ o ∈ operands, o < pass.recorder.size)
    (htangent : ∀ o ∈ operands, ∀ t, pass.tangents.getD o none = some t →
      t < pass.recorder.size)
    (hsome : ∃ o ∈ operands, ∃ t, pass.tangents.getD o none = some t) :
    ∃ c r', callTangent .standard op operands pass = .ok (some c, r') ∧
      pass.recorder.Extends (TangentCall operands pass.tangents pass.recorder.size) r' ∧
      CallTangent r'.nodes (fun o => pass.tangents.getD o none) op operands c ∧
      ((∃ o ∈ operands, pass.tangents.getD o none = some c) ∨ pass.recorder.size ≤ c) := by
  match operands, hcount with
  | [], _ =>
    obtain ⟨o, ho, -⟩ := hsome
    cases ho
  | [a], hcount =>
    obtain ⟨o, ho, t, ht⟩ := hsome
    obtain rfl := List.mem_singleton.1 ho
    refine exists_callTangent_single 0 hcount rfl ht hsmooth hlt (htangent o ho t ht) ?_ (.unary ht)
    exact bind_ok _
  | [a, b], hcount =>
    have hunfold : callTangent .standard op [a, b] pass =
        (addContribution .standard op [a, b] pass.tangents (none, pass.recorder) (a, 0) >>=
          fun total => addContribution .standard op [a, b] pass.tangents total (b, 1)) :=
      congrArg _ (funext fun total => bind_ok _)
    cases ha : pass.tangents.getD a none with
    | none =>
      cases hb : pass.tangents.getD b none with
      | none =>
        obtain ⟨o, ho, t, ht⟩ := hsome
        rcases List.mem_pair.1 ho with rfl | rfl
        · rw [ha] at ht
          cases ht
        · rw [hb] at ht
          cases ht
      | some t =>
        refine exists_callTangent_single 1 hcount rfl hb hsmooth hlt (htangent b (by simp) t hb) ?_
          (.right ha hb)
        rw [hunfold, addContribution_none _ ha, ok_bind]
    | some s =>
      cases hb : pass.tangents.getD b none with
      | none =>
        refine exists_callTangent_single 0 hcount rfl ha hsmooth hlt (htangent a (by simp) s ha) ?_
          (.left ha hb)
        rw [hunfold]
        exact (congrArg _ (funext fun total => addContribution_none total hb)).trans (bind_ok _)
      | some t =>
        obtain ⟨e, r', hok, hextends, he, hge⟩ :=
          exists_callTangent_both hcount hsmooth hlt ha hb (htangent a (by simp) s ha)
            (htangent b (by simp) t hb)
        exact ⟨e, r', hok, hextends, he, .inr hge⟩
  | _ :: _ :: _ :: _, hcount =>
    have := op.arity_le
    simp only [List.length_cons] at hcount
    omega

/-- Where the operand of `abs` has a tangent its rule is missed. -/
theorem callTangent_abs {pass : TangentPass} {a t : Nat}
    (ht : pass.tangents.getD a none = some t) :
    callTangent .standard .abs [a] pass = .error (.missingRule .abs 1) := by
  change (addContribution .standard .abs [a] pass.tangents (none, pass.recorder) (a, 0) >>= _) = _
  simp only [addContribution, ht, Op.opcode, standard_abs]
  rfl

end Program

end StagedTangent
