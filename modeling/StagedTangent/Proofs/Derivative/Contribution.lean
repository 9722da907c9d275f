import StagedTangent.Derivative.RuleTable
import StagedTangent.Proofs.Derivative.Recording

/-!
# What a rule contributes

The rule of an operation at one of its operands is a recipe over nodes. Read over values it is a
function: from the values of the operands and the tangent of the one to what that operand
contributes to the tangent of the result. `contribution` lists these functions and
`standard_contributes` shows that the nodes recorded by the standard rules compute them, whatever
the operations mean.
-/

namespace StagedTangent

section Values

variable {V : Type} (interpret : Op → List V → Except RunError V)

/-- The value of an operation on values. -/
def perform (op : Op) (vs : List V) : Option V := (interpret op vs).toOption

variable {interpret} in
theorem perform_eq_some {op : Op} {vs : List V} {v : V} :
    perform interpret op vs = some v ↔ interpret op vs = .ok v := by
  unfold perform
  cases interpret op vs with
  | ok u => simp [Except.toOption]
  | error e => simp [Except.toOption]

/-- What an operand, counted from zero, contributes to the tangent of an operation, given the values
of all operands and the tangent of this one. -/
def contribution (op : Op) (position : Nat) (vs : List V) (t : V) : Option V :=
  match op, position, vs with
  | .add, _, _ => some t
  | .sub, 0, _ => some t
  | .sub, _, _ => perform interpret .neg [t]
  | .mul, 0, [_, b] => perform interpret .mul [t, b]
  | .mul, _, [a, _] => perform interpret .mul [a, t]
  | .div, 0, [_, b] => perform interpret .div [t, b]
  | .div, _, [a, b] => do
    let quotient ← perform interpret .div [a, b]
    let scaled ← perform interpret .div [quotient, b]
    let factor ← perform interpret .neg [scaled]
    perform interpret .mul [t, factor]
  | .sin, _, [a] => do
    let factor ← perform interpret .cos [a]
    perform interpret .mul [t, factor]
  | .cos, _, [a] => do
    let sine ← perform interpret .sin [a]
    let factor ← perform interpret .neg [sine]
    perform interpret .mul [t, factor]
  | .exp, _, [a] => do
    let factor ← perform interpret .exp [a]
    perform interpret .mul [t, factor]
  | .log, _, [a] => perform interpret .div [t, a]
  | .sqrt, _, [a] => do
    let root ← perform interpret .sqrt [a]
    let twice ← perform interpret .add [root, root]
    perform interpret .div [t, twice]
  | .dot, 0, [_, b] => perform interpret .dot [t, b]
  | .dot, _, [a, _] => perform interpret .dot [a, t]
  | .neg, _, _ => perform interpret .neg [t]
  | .sum, _, _ => perform interpret .sum [t]
  | .index place, _, _ => perform interpret (.index place) [t]
  | .circshift shift, _, _ => perform interpret (.circshift shift) [t]
  | .zeroLike, _, _ | .sign, _, _ => perform interpret .zeroLike [t]
  | _, _, _ => none

end Values

/-- The recipe of a contribution: the factor and then the map. -/
def Rule.contribute (rule : Rule) (op : Op) (operands : List Nat) (tangent : Nat) : Fragment Nat :=
  rule op operands >>= fun map => map.apply tangent

/-- What holds of a call that a rule records at a place: it has as many operands as it takes, each
of them before it and either an operand of the rule, its tangent or recorded by the rule itself;
and it is not an operation without a rule. -/
structure RuleCall (operands : List Nat) (tangent start place : Nat) (op : Op)
    (args : List Nat) : Prop where
  count : args.length = op.arity
  lt : ∀ arg ∈ args, arg < place
  source : ∀ arg ∈ args, arg ∈ operands ∨ arg = tangent ∨ start ≤ arg
  smooth : op ≠ .abs

/-- What holds of the node that a rule ends in, with the place behind the last one recorded. -/
def RuleResult (tangent start final : Nat) (node : Nat) : Prop :=
  node < final ∧ (node = tangent ∨ start ≤ node)

/-- A rule does what `contribution` says. -/
structure Rule.Contributes (rule : Rule) (op : Op) (position : Nat) : Prop where
  ensures : ∀ {operands : List Nat} {tangent start : Nat}, operands.length = op.arity →
    (∀ o ∈ operands, o < start) → tangent < start →
    (rule.contribute op operands tangent).Ensures (RuleCall operands tangent start)
      (RuleResult tangent start) start
  value : ∀ {V : Type} {interpret : Op → List V → Except RunError V} {value : Nat → Option V}
    {operands : List Nat} {tangent start : Nat} {vs : List V}, operands.length = op.arity →
    (∀ o ∈ operands, o < start) → tangent < start → operands.mapM value = some vs →
    (rule.contribute op operands tangent).valueFrom interpret value start =
      (value tangent).bind (contribution interpret op position vs)

/-! ## Values of small recipes -/

namespace Fragment

variable {V : Type} {interpret : Op → List V → Except RunError V} {value : Nat → Option V}

theorem callValue_eq {op : Op} {args : List Nat} {vs : List V} (h : args.mapM value = some vs) :
    callValue interpret value op args = perform interpret op vs := by
  rw [callValue, h]
  rfl

theorem valueFrom_record {op : Op} {args : List Nat} {start : Nat} :
    (record op args).valueFrom interpret value start = callValue interpret value op args :=
  Function.update_self ..

/-- A last call after a fragment, whose operands are the result of the fragment and nodes that were
there before. -/
theorem valueFrom_bind_record {f : Fragment Nat} {start : Nat} {op : Op} {args : Nat → List Nat}
    {g : V → Option (List V)}
    (h : ∀ (value' : Nat → Option V) (node : Nat), (∀ m < start, value' m = value m) →
      (args node).mapM value' = (value' node).bind g) :
    (f >>= fun node => record op (args node)).valueFrom interpret value start =
      (f.valueFrom interpret value start).bind fun v => (g v).bind (perform interpret op) := by
  have hgeneral : ∀ (f : Fragment Nat) (value' : Nat → Option V) (place : Nat), start ≤ place →
      (∀ m < start, value' m = value m) →
      (f >>= fun node => record op (args node)).valueFrom interpret value' place =
        (f.valueFrom interpret value' place).bind fun v => (g v).bind (perform interpret op) := by
    intro f
    induction f with
    | done result =>
      intro value' place _ hvalue
      change (record op (args result)).valueFrom interpret value' place = _
      rw [valueFrom_record, callValue, h value' result hvalue, Option.bind_assoc]
      rfl
    | call op' args' next ih =>
      intro value' place hplace hvalue
      refine ih place _ (place + 1) (by omega) fun m hm => ?_
      rw [Function.update_of_ne (by omega), hvalue m hm]
  exact hgeneral f value start (Nat.le_refl _) fun _ _ => rfl

/-- A last call on the result of a fragment. -/
theorem valueFrom_bind_unary {f : Fragment Nat} {start : Nat} {op : Op} :
    (f >>= fun node => record op [node]).valueFrom interpret value start =
      (f.valueFrom interpret value start).bind fun v => perform interpret op [v] :=
  valueFrom_bind_record (g := fun v => some [v]) fun value' node _ => by simp

/-- A last call on the result of a fragment, twice. -/
theorem valueFrom_bind_twice {f : Fragment Nat} {start : Nat} {op : Op} :
    (f >>= fun node => record op [node, node]).valueFrom interpret value start =
      (f.valueFrom interpret value start).bind fun v => perform interpret op [v, v] :=
  valueFrom_bind_record (g := fun v => some [v, v]) fun value' node _ => by
    cases h : value' node <;> simp [h]

/-- A last call on the result of a fragment and a node that was there before. -/
theorem valueFrom_bind_first {f : Fragment Nat} {start : Nat} {op : Op} {b : Nat} {vb : V}
    (hb : b < start) (hvb : value b = some vb) :
    (f >>= fun node => record op [node, b]).valueFrom interpret value start =
      (f.valueFrom interpret value start).bind fun v => perform interpret op [v, vb] :=
  valueFrom_bind_record (g := fun v => some [v, vb]) fun value' node hvalue => by
    simp [hvalue b hb, hvb]

/-- A last call on a node that was there before and the result of a fragment. -/
theorem valueFrom_bind_second {f : Fragment Nat} {start : Nat} {op : Op} {t : Nat}
    (ht : t < start) :
    (f >>= fun node => record op [t, node]).valueFrom interpret value start =
      (value t).bind fun x =>
        (f.valueFrom interpret value start).bind fun y => perform interpret op [x, y] := by
  rw [valueFrom_bind_record (g := fun y => (value t).bind fun x => some [x, y])]
  · cases value t with
    | none => simp
    | some x => simp
  · intro value' node hvalue
    rw [← hvalue t ht]
    cases ht : value' t <;> cases hn : value' node <;> simp [ht, hn]

end Fragment

/-! ## The rules -/

namespace RuleCall

variable {operands : List Nat} {tangent start place : Nat} {op : Op}

/-- A call of an operation of one operand. -/
theorem unary {arg : Nat} (hcount : op.arity = 1) (hsmooth : op ≠ .abs) (hlt : arg < place)
    (hsource : arg ∈ operands ∨ arg = tangent ∨ start ≤ arg) :
    RuleCall operands tangent start place op [arg] := by
  refine ⟨hcount.symm, fun o ho => ?_, fun o ho => ?_, hsmooth⟩
  · rwa [List.mem_singleton.1 ho]
  · rwa [List.mem_singleton.1 ho]

/-- A call of an operation of two operands. -/
theorem binary {arg arg' : Nat} (hcount : op.arity = 2) (hlt : arg < place) (hlt' : arg' < place)
    (hsource : arg ∈ operands ∨ arg = tangent ∨ start ≤ arg)
    (hsource' : arg' ∈ operands ∨ arg' = tangent ∨ start ≤ arg') :
    RuleCall operands tangent start place op [arg, arg'] := by
  refine ⟨hcount.symm, fun o ho => ?_, fun o ho => ?_, ?_⟩
  · rcases List.mem_pair.1 ho with rfl | rfl
    · exact hlt
    · exact hlt'
  · rcases List.mem_pair.1 ho with rfl | rfl
    · exact hsource
    · exact hsource'
  · rintro rfl
    cases hcount

end RuleCall

namespace Rule

variable {op op' : Op} {position : Nat}

@[simp] theorem first_singleton (a : Nat) : first [a] = a := rfl
@[simp] theorem first_pair (a b : Nat) : first [a, b] = a := rfl
@[simp] theorem second_pair (a b : Nat) : second [a, b] = b := rfl

/-- A map that is no more than an operation on the tangent. -/
private theorem contributes_applying {rule : Rule} (hcount : op'.arity = 1) (hsmooth : op' ≠ .abs)
    (hrule : ∀ operands, rule op operands = pure (.applying op'))
    (h : ∀ {V : Type} (interpret : Op → List V → Except RunError V) (vs : List V),
      contribution interpret op position vs = fun t => perform interpret op' [t]) :
    rule.Contributes op position := by
  constructor
  · intro operands t start _ _ ht
    rw [contribute, hrule]
    exact ⟨.unary hcount hsmooth ht (.inr (.inl rfl)), Nat.lt_succ_self _, .inr (Nat.le_refl _)⟩
  · intro V interpret value operands t start vs _ _ _ _
    rw [contribute, hrule, h]
    change (Fragment.record op' [t]).valueFrom interpret value start = _
    rw [Fragment.valueFrom_record, Fragment.callValue]
    cases ht : value t <;> simp [ht, perform]

/-- A tangent that is passed on. -/
theorem pass_contributes
    (h : ∀ {V : Type} (interpret : Op → List V → Except RunError V) (vs : List V),
      contribution interpret op position vs = some) : pass.Contributes op position := by
  constructor
  · intro operands t start _ _ ht
    exact ⟨ht, .inl rfl⟩
  · intro V interpret value operands t start vs _ _ _ _
    rw [h, Option.bind_fun_some]
    rfl

theorem opposite_contributes : opposite.Contributes .sub 1 :=
  contributes_applying rfl (by decide) (fun _ => rfl) fun _ _ => rfl

theorem again_contributes (hcount : op.arity = 1) (hsmooth : op ≠ .abs)
    (h : ∀ {V : Type} (interpret : Op → List V → Except RunError V) (vs : List V),
      contribution interpret op position vs = fun t => perform interpret op [t]) :
    again.Contributes op position :=
  contributes_applying hcount hsmooth (fun _ => rfl) h

theorem flat_contributes
    (h : ∀ {V : Type} (interpret : Op → List V → Except RunError V) (vs : List V),
      contribution interpret op position vs = fun t => perform interpret .zeroLike [t]) :
    flat.Contributes op position :=
  contributes_applying rfl (by decide) (fun _ => rfl) h

theorem replaceFirst_contributes (hop : op.arity = 2)
    (h : ∀ {V : Type} (interpret : Op → List V → Except RunError V) (a b : V),
      contribution interpret op 0 [a, b] = fun t => perform interpret op [t, b]) :
    (replaceFirst op).Contributes op 0 := by
  constructor
  · intro operands t start hcount hlt ht
    obtain ⟨a, b, rfl⟩ := List.length_eq_two.1 (hcount.trans hop)
    have hb : b < start := hlt b (by simp)
    exact ⟨.binary hop ht hb (.inr (.inl rfl)) (.inl (by simp)),
      Nat.lt_succ_self _, .inr (Nat.le_refl _)⟩
  · intro V interpret value operands t start vs hcount _ _ hvs
    obtain ⟨a, b, rfl⟩ := List.length_eq_two.1 (hcount.trans hop)
    obtain ⟨va, vb, rfl, -, hvb⟩ := mapM_pair_eq_some.1 hvs
    change (Fragment.record op [t, b]).valueFrom interpret value start = _
    rw [Fragment.valueFrom_record, Fragment.callValue, h]
    cases ht : value t <;> simp [ht, hvb, perform]

theorem replaceSecond_contributes (hop : op.arity = 2)
    (h : ∀ {V : Type} (interpret : Op → List V → Except RunError V) (a b : V),
      contribution interpret op 1 [a, b] = fun t => perform interpret op [a, t]) :
    (replaceSecond op).Contributes op 1 := by
  constructor
  · intro operands t start hcount hlt ht
    obtain ⟨a, b, rfl⟩ := List.length_eq_two.1 (hcount.trans hop)
    have ha : a < start := hlt a (by simp)
    exact ⟨.binary hop ha ht (.inl (by simp)) (.inr (.inl rfl)),
      Nat.lt_succ_self _, .inr (Nat.le_refl _)⟩
  · intro V interpret value operands t start vs hcount _ _ hvs
    obtain ⟨a, b, rfl⟩ := List.length_eq_two.1 (hcount.trans hop)
    obtain ⟨va, vb, rfl, hva, -⟩ := mapM_pair_eq_some.1 hvs
    change (Fragment.record op [a, t]).valueFrom interpret value start = _
    rw [Fragment.valueFrom_record, Fragment.callValue, h]
    cases ht : value t <;> simp [ht, hva, perform]

theorem logarithm_contributes : logarithm.Contributes .log 0 := by
  constructor
  · intro operands t start hcount hlt ht
    obtain ⟨a, rfl⟩ := List.length_eq_one_iff.1 hcount
    have ha : a < start := hlt a (by simp)
    exact ⟨.binary rfl ht ha (.inr (.inl rfl)) (.inl (by simp)),
      Nat.lt_succ_self _, .inr (Nat.le_refl _)⟩
  · intro V interpret value operands t start vs hcount _ _ hvs
    obtain ⟨a, rfl⟩ := List.length_eq_one_iff.1 hcount
    obtain ⟨va, rfl, hva⟩ := mapM_singleton_eq_some.1 hvs
    change (Fragment.record .div [t, a]).valueFrom interpret value start = _
    rw [Fragment.valueFrom_record, Fragment.callValue]
    cases ht : value t <;> simp [ht, hva, perform, contribution]

/-! ### Rules with a factor -/

/-- A rule that records a factor and then an operation on the tangent and the factor. -/
private theorem contributes_factor {rule : Rule} (factor : List Nat → Fragment Nat)
    (hcount : op'.arity = 2)
    (hrule : ∀ operands t, rule.contribute op operands t =
      factor operands >>= fun node => .record op' [t, node])
    (hensures : ∀ {operands : List Nat} {t start : Nat}, operands.length = op.arity →
      (∀ o ∈ operands, o < start) → (factor operands).Ensures (RuleCall operands t start)
        (fun final node => start ≤ node ∧ node < final) start)
    (hvalue : ∀ {V : Type} {interpret : Op → List V → Except RunError V} {value : Nat → Option V}
      {operands : List Nat} {start : Nat} {vs : List V} (t : V), operands.length = op.arity →
      (∀ o ∈ operands, o < start) → operands.mapM value = some vs →
      ((factor operands).valueFrom interpret value start).bind
        (fun y => perform interpret op' [t, y]) = contribution interpret op position vs t) :
    rule.Contributes op position := by
  constructor
  · intro operands t start hlength hlt ht
    rw [hrule]
    refine Fragment.Ensures.bind (hensures hlength hlt) fun final node hnode hfinal => ?_
    exact ⟨.binary hcount (by omega) hnode.2 (.inr (.inl rfl)) (.inr (.inr hnode.1)),
      Nat.lt_succ_self _, .inr (by omega)⟩
  · intro V interpret value operands t start vs hlength hlt ht hvs
    rw [hrule, Fragment.valueFrom_bind_second ht]
    exact Option.bind_congr fun x _ => hvalue x hlength hlt hvs

/-- A factor that is an operation on the operand. -/
private theorem contributes_operation {rule : Rule} (inner : Op) (harity : op.arity = 1)
    (hinner : inner.arity = 1) (hsmooth : inner ≠ .abs) (hcount : op'.arity = 2)
    (hrule : ∀ operands t, rule.contribute op operands t =
      Fragment.record inner [first operands] >>= fun node => .record op' [t, node])
    (h : ∀ {V : Type} (interpret : Op → List V → Except RunError V) (a t : V),
      contribution interpret op position [a] t =
        (perform interpret inner [a]).bind fun y => perform interpret op' [t, y]) :
    rule.Contributes op position := by
  refine contributes_factor (fun operands => .record inner [first operands]) hcount hrule
    (fun {operands t start} hlength hlt => ?_)
    fun {V interpret value operands start vs} t hlength _ hvs => ?_
  · obtain ⟨a, rfl⟩ := List.length_eq_one_iff.1 (hlength.trans harity)
    exact ⟨.unary hinner hsmooth (hlt a (by simp)) (.inl (by simp)),
      Nat.le_refl _, Nat.lt_succ_self _⟩
  · obtain ⟨a, rfl⟩ := List.length_eq_one_iff.1 (hlength.trans harity)
    obtain ⟨va, rfl, -⟩ := mapM_singleton_eq_some.1 hvs
    rw [Fragment.valueFrom_record, first_singleton, Fragment.callValue_eq hvs, h]

theorem sine_contributes : sine.Contributes .sin 0 :=
  contributes_operation .cos rfl rfl (by simp) rfl (fun _ _ => rfl) fun _ _ _ => rfl

theorem exponential_contributes : exponential.Contributes .exp 0 :=
  contributes_operation .exp rfl rfl (by simp) rfl (fun _ _ => rfl) fun _ _ _ => rfl

theorem cosine_contributes : cosine.Contributes .cos 0 := by
  refine contributes_factor
    (fun operands => do
      let sine ← .record .sin [first operands]
      .record .neg [sine]) rfl
    (fun _ _ => rfl) (fun {operands t start} hlength hlt => ?_)
    fun {V interpret value operands start vs} t hlength _ hvs => ?_
  · obtain ⟨a, rfl⟩ := List.length_eq_one_iff.1 hlength
    exact ⟨.unary rfl (by decide) (hlt a (by simp)) (.inl (by simp)),
      .unary rfl (by decide) (by omega) (.inr (.inr (by omega))), by omega, by omega⟩
  · obtain ⟨a, rfl⟩ := List.length_eq_one_iff.1 hlength
    obtain ⟨va, rfl, -⟩ := mapM_singleton_eq_some.1 hvs
    rw [Fragment.valueFrom_bind_unary, Fragment.valueFrom_record, first_singleton,
      Fragment.callValue_eq hvs, Option.bind_assoc]
    rfl

theorem squareRoot_contributes : squareRoot.Contributes .sqrt 0 := by
  refine contributes_factor
    (fun operands => do
      let root ← .record .sqrt [first operands]
      .record .add [root, root]) rfl
    (fun _ _ => rfl) (fun {operands t start} hlength hlt => ?_)
    fun {V interpret value operands start vs} t hlength _ hvs => ?_
  · obtain ⟨a, rfl⟩ := List.length_eq_one_iff.1 hlength
    exact ⟨.unary rfl (by decide) (hlt a (by simp)) (.inl (by simp)),
      .binary rfl (by omega) (by omega) (.inr (.inr (by omega))) (.inr (.inr (by omega))),
      by omega, by omega⟩
  · obtain ⟨a, rfl⟩ := List.length_eq_one_iff.1 hlength
    obtain ⟨va, rfl, -⟩ := mapM_singleton_eq_some.1 hvs
    rw [Fragment.valueFrom_bind_twice, Fragment.valueFrom_record, first_singleton,
      Fragment.callValue_eq hvs, Option.bind_assoc]
    rfl

theorem divisor_contributes : divisor.Contributes .div 1 := by
  refine contributes_factor
    (fun operands =>
      (Fragment.record .div [first operands, second operands] >>= fun quotient =>
        .record .div [quotient, second operands]) >>= fun scaled => .record .neg [scaled]) rfl
    (fun _ _ => rfl) (fun {operands t start} hlength hlt => ?_)
    fun {V interpret value operands start vs} t hlength hlt hvs => ?_
  · obtain ⟨a, b, rfl⟩ := List.length_eq_two.1 hlength
    have ha : a < start := hlt a (by simp)
    have hb : b < start := hlt b (by simp)
    exact ⟨.binary rfl ha hb (.inl (by simp)) (.inl (by simp)),
      .binary rfl (by omega) (by simp only [second_pair]; omega) (.inr (.inr (by omega)))
        (.inl (by simp)),
      .unary rfl (by decide) (by omega) (.inr (.inr (by omega))), by omega, by omega⟩
  · obtain ⟨a, b, rfl⟩ := List.length_eq_two.1 hlength
    obtain ⟨va, vb, rfl, -, hvb⟩ := mapM_pair_eq_some.1 hvs
    rw [Fragment.valueFrom_bind_unary, first_pair, second_pair,
      Fragment.valueFrom_bind_first (hlt b (by simp)) hvb, Fragment.valueFrom_record,
      Fragment.callValue_eq hvs, Option.bind_assoc, Option.bind_assoc]
    rfl

end Rule

/-! ## The standard table -/

/-- Every operation but `abs` has a rule at each operand, and the rule does what `contribution`
says. -/
theorem standard_contributes {op : Op} {position : Nat} (hposition : position < op.arity)
    (hsmooth : op ≠ .abs) :
    ∃ rule, RuleTable.standard.get op.opcode (position + 1) = .ok rule ∧
      rule.Contributes op position := by
  match op, position, hposition, hsmooth with
  | .add, 0, _, _ | .add, 1, _, _ | .sub, 0, _, _ =>
    exact ⟨_, rfl, Rule.pass_contributes fun _ _ => rfl⟩
  | .sub, 1, _, _ => exact ⟨_, rfl, Rule.opposite_contributes⟩
  | .mul, 0, _, _ | .div, 0, _, _ | .dot, 0, _, _ =>
    exact ⟨_, rfl, Rule.replaceFirst_contributes rfl fun _ _ _ => rfl⟩
  | .mul, 1, _, _ | .dot, 1, _, _ =>
    exact ⟨_, rfl, Rule.replaceSecond_contributes rfl fun _ _ _ => rfl⟩
  | .div, 1, _, _ => exact ⟨_, rfl, Rule.divisor_contributes⟩
  | .sin, 0, _, _ => exact ⟨_, rfl, Rule.sine_contributes⟩
  | .cos, 0, _, _ => exact ⟨_, rfl, Rule.cosine_contributes⟩
  | .exp, 0, _, _ => exact ⟨_, rfl, Rule.exponential_contributes⟩
  | .log, 0, _, _ => exact ⟨_, rfl, Rule.logarithm_contributes⟩
  | .sqrt, 0, _, _ => exact ⟨_, rfl, Rule.squareRoot_contributes⟩
  | .neg, 0, _, _ | .sum, 0, _, _ | .index _, 0, _, _ | .circshift _, 0, _, _ =>
    exact ⟨_, rfl, Rule.again_contributes rfl (by simp) fun _ _ => rfl⟩
  | .zeroLike, 0, _, _ | .sign, 0, _, _ =>
    exact ⟨_, rfl, Rule.flat_contributes fun _ _ => rfl⟩
  | .abs, 0, _, hsmooth => exact absurd rfl hsmooth

/-- There is no rule for `abs`. -/
theorem standard_abs (position : Nat) :
    RuleTable.standard.get .abs position = .error (.missingRule .abs position) := rfl

end StagedTangent
