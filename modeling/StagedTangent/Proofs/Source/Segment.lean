import StagedTangent.Proofs.Derivative.Recording
import StagedTangent.Proofs.Source.Evaluation

/-!
# Segments of a tape

Recording an expression appends calls and nothing else, and these calls fill a segment of the tape.
A `Program.Segment` states what carries over to running code: the node of the expression needs all
of its segment, and evaluating the segment in order comes to what the expression means, the error
included. Segments are put together as expressions are, and `realizes_record` finds the one of every
recorded expression.
-/

namespace StagedTangent

open Source

variable {α : Type}

/-! ## What recording appends -/

namespace Source

namespace Recording

variable {β γ : Type}

theorem bind_eq_ok {x : Recording β} {f : β → Recording γ} {r r'' : Recorder} {c : γ} :
    (x >>= f) r = .ok (c, r'') ↔ ∃ b r', x r = .ok (b, r') ∧ f b r' = .ok (c, r'') := by
  change (x r >>= fun entry => f entry.1 entry.2) = _ ↔ _
  rw [StagedTangent.bind_eq_ok, Prod.exists]

theorem lift_eq_ok {x : Except RecordError β} {r r' : Recorder} {b : β} :
    (liftM x : Recording β) r = .ok (b, r') ↔ x = .ok b ∧ r = r' := by
  change (x >>= fun b => .ok (b, r)) = _ ↔ _
  rw [StagedTangent.bind_eq_ok]
  constructor
  · rintro ⟨b', rfl, h⟩
    obtain ⟨rfl, rfl⟩ := Prod.mk.inj (Except.ok.inj h)
    exact ⟨rfl, rfl⟩
  · rintro ⟨rfl, rfl⟩
    exact ⟨b, rfl, rfl⟩

/-- A step that appends calls and does nothing else. -/
def Appends (x : Recording β) : Prop :=
  ∀ r b r', x r = .ok (b, r') → r.Extends (fun _ _ _ => True) r'

theorem Appends.pure (b : β) : Appends (pure b : Recording β) := by
  rintro r _ _ ⟨⟩
  exact .refl r

theorem Appends.fail (e : RecordError) : Appends (fail e : Recording β) := nofun

theorem Appends.lift (x : Except RecordError β) : Appends (liftM x : Recording β) := by
  intro r b r' h
  obtain ⟨-, rfl⟩ := lift_eq_ok.1 h
  exact .refl r

theorem Appends.call (op : Op) (operands : List Nat) : Appends (call op operands) := by
  rintro r _ _ ⟨⟩
  exact .call trivial

theorem Appends.bind {x : Recording β} {f : β → Recording γ} (hx : Appends x)
    (hf : ∀ b, Appends (f b)) : Appends (x >>= f) := by
  intro r c r'' h
  obtain ⟨b, r', hb, hc⟩ := bind_eq_ok.1 h
  exact (hx r b r' hb).trans (hf b r' c r'' hc)

end Recording

/-- Induction on the parts of an expression, the arguments of a call among them. -/
@[elab_as_elim]
theorem Expr.induction {motive : Expr → Prop}
    (numeral : ∀ value span, motive (.numeral value span))
    (ident : ∀ name span, motive (.ident name span))
    (negation : ∀ inner span, motive inner → motive (.negation inner span))
    (binary : ∀ op left right span, motive left → motive right →
      motive (.binary op left right span))
    (element : ∀ base place span, motive base → motive (.element base place span))
    (call : ∀ callee args span, (∀ arg ∈ args, motive arg) → motive (.call callee args span))
    (e : Expr) : motive e :=
  @Expr.rec motive (fun args => ∀ arg ∈ args, motive arg) numeral ident negation binary element call
    (fun _ h => absurd h List.not_mem_nil)
    (fun _ _ hhead htail => List.forall_mem_cons.2 ⟨hhead, htail⟩) e

/-- Why a call is refused before its arguments are looked at. -/
inductive CallError (callee : String) (args : List Expr) (span : Span) : RecordError → Prop
  | notAFunction (hcallee : Builtin.ofName? callee = none) :
    CallError callee args span (.notAFunction callee span)
  | argumentCount {builtin : Builtin} (hcallee : Builtin.ofName? callee = some builtin)
      (hcount : args.length ≠ builtin.arity) :
    CallError callee args span (.argumentCount callee builtin.arity args.length span)

/-- What is recorded for a call. -/
theorem record_call_cases (names : Names) (callee : String) (args : List Expr) (span : Span) :
    (∃ op arg, Builtin.ofName? callee = some (.unary op) ∧ args = [arg] ∧
      (Expr.call callee args span).record names = (do
        let operand ← arg.record names
        .call op [operand])) ∨
    (∃ left right, Builtin.ofName? callee = some .dot ∧ args = [left, right] ∧
      (Expr.call callee args span).record names = (do
        let lhs ← left.record names
        let rhs ← right.record names
        .call .dot [lhs, rhs])) ∨
    (∃ arg shift, Builtin.ofName? callee = some .circshift ∧ args = [arg, shift] ∧
      (Expr.call callee args span).record names = (do
        let vector ← arg.record names
        let amount ← shiftOf shift
        .call (.circshift amount) [vector])) ∨
    ∃ e, CallError callee args span e ∧ (Expr.call callee args span).record names = .fail e := by
  rw [Expr.record.eq_def]
  dsimp only
  split
  · next op arg hcallee => exact .inl ⟨op, arg, hcallee, rfl, rfl⟩
  · next left right hcallee => exact .inr (.inl ⟨left, right, hcallee, rfl, rfl⟩)
  · next arg shift hcallee => exact .inr (.inr (.inl ⟨arg, shift, hcallee, rfl, rfl⟩))
  · next builtin hcallee hunary hdot hcircshift =>
    refine .inr (.inr (.inr ⟨_, .argumentCount hcallee fun hcount => ?_, rfl⟩))
    cases builtin with
    | circshift =>
      obtain ⟨arg, shift, rfl⟩ := List.length_eq_two.1 hcount
      exact hcircshift arg shift rfl rfl
    | dot =>
      obtain ⟨left, right, rfl⟩ := List.length_eq_two.1 hcount
      exact hdot left right rfl rfl
    | unary op =>
      obtain ⟨arg, rfl⟩ := List.length_eq_one_iff.1 hcount
      exact hunary op arg rfl rfl
  · next hcallee => exact .inr (.inr (.inr ⟨_, .notAFunction hcallee, rfl⟩))

open Recording in
/-- Recording an expression appends calls. -/
theorem appends_record (names : Names) (e : Expr) : Appends (e.record names) := by
  induction e using Expr.induction with
  | numeral value span => exact .call _ _
  | ident name span =>
    rw [Expr.record.eq_def]
    dsimp only
    split
    · exact .pure _
    · exact .fail _
  | negation inner span ih => exact ih.bind fun _ => .call _ _
  | binary op left right span ihl ihr => exact ihl.bind fun _ => ihr.bind fun _ => .call _ _
  | element base place span ih => exact ih.bind fun _ => .call _ _
  | call callee args span ih =>
    rcases record_call_cases names callee args span with
      ⟨op, arg, -, rfl, heq⟩ | ⟨left, right, -, rfl, heq⟩ | ⟨arg, shift, -, rfl, heq⟩ |
        ⟨error, -, heq⟩ <;> rw [heq]
    · exact (ih arg (by simp)).bind fun _ => .call _ _
    · exact (ih left (by simp)).bind fun _ => (ih right (by simp)).bind fun _ => .call _ _
    · exact (ih arg (by simp)).bind fun _ => (Appends.lift _).bind fun _ => .call _ _
    · exact .fail _

end Source

/-! ## Segments of a tape -/

namespace Program

variable {p : Program} {interpret : Interpretation α} {inputs : List (Value α)}

/-- Evaluating the nodes from `start` up to `stop` in order comes to a result: either what is asked
of them, or the error of the first of them that fails. -/
def Computes {β : Type} (p : Program) (interpret : Interpretation α) (inputs : List (Value α))
    (start stop : Nat) (post : β → Prop) : Except RunError β → Prop
  | .ok b => post b
  | .error e => ∃ n, start ≤ n ∧ n < stop ∧ p.outcome interpret inputs n = .failure e ∧
      ∀ m, start ≤ m → m < n → ∃ v, p.value? interpret inputs m = some v

/-- The nodes from `start` up to `stop` compute some nodes and have a meaning: each of them is
needed, and evaluating them in order comes to what they mean. -/
structure Segment (p : Program) (interpret : Interpretation α) (inputs : List (Value α))
    (start stop : Nat) (nodes : List Nat) (meaning : Meaning (List (Value α))) : Prop where
  le : start ≤ stop
  needed : ∀ n, start ≤ n → n < stop → ∃ node ∈ nodes, p.Path node n
  computes : ∃ result, meaning.run = some result ∧
    p.Computes interpret inputs start stop
      (fun vs => nodes.mapM (p.value? interpret inputs) = some vs) result

namespace Segment

/-- Whatever computed a node with a value has a value. -/
theorem exists_value? (hp : p.Regular) {start stop : Nat} {nodes : List Nat}
    {meaning : Meaning (List (Value α))}
    (h : p.Segment interpret inputs start stop nodes meaning) {vs : List (Value α)}
    (hvs : nodes.mapM (p.value? interpret inputs) = some vs) {n : Nat} (hstart : start ≤ n)
    (hstop : n < stop) : ∃ v, p.value? interpret inputs n = some v := by
  obtain ⟨node, hnode, hpath⟩ := h.needed n hstart hstop
  exact exists_value?_of_path hp hpath (exists_of_mapM_eq_some hvs node hnode)

theorem nil (start : Nat) : p.Segment interpret inputs start start [] (pure []) := by
  refine ⟨Nat.le_refl _, fun n hstart hstop => ?_, .ok [], rfl, rfl⟩
  omega

/-- A node that has a value already takes no segment. -/
theorem known {node start : Nat} {v : Value α} (h : p.value? interpret inputs node = some v) :
    p.Segment interpret inputs start start [node] (Meaning.single (pure v)) := by
  refine ⟨Nat.le_refl _, fun n hstart hstop => ?_, .ok [v], rfl, ?_⟩
  · omega
  · exact mapM_singleton_eq_some.2 ⟨v, rfl, h⟩

/-- Two segments, one behind the other. -/
theorem append (hp : p.Regular) {start middle stop : Nat} {nodes nodes' : List Nat}
    {meaning meaning' : Meaning (List (Value α))}
    (h : p.Segment interpret inputs start middle nodes meaning)
    (h' : p.Segment interpret inputs middle stop nodes' meaning') :
    p.Segment interpret inputs start stop (nodes ++ nodes') (do
      let vs ← meaning
      let ws ← meaning'
      pure (vs ++ ws)) := by
  refine ⟨Nat.le_trans h.le h'.le, fun n hstart hstop => ?_, ?_⟩
  · rcases Nat.lt_or_ge n middle with hlt | hge
    · obtain ⟨node, hnode, hpath⟩ := h.needed n hstart hlt
      exact ⟨node, List.mem_append_left _ hnode, hpath⟩
    · obtain ⟨node, hnode, hpath⟩ := h'.needed n hge hstop
      exact ⟨node, List.mem_append_right _ hnode, hpath⟩
  · obtain ⟨result, hresult, hcomputes⟩ := h.computes
    cases result with
    | error e =>
      obtain ⟨n, hstart, hlt, hfails, hbefore⟩ := hcomputes
      exact ⟨.error e, Meaning.bind_of_error hresult, n, hstart, Nat.lt_of_lt_of_le hlt h'.le,
        hfails, hbefore⟩
    | ok vs =>
      obtain ⟨result', hresult', hcomputes'⟩ := h'.computes
      cases result' with
      | error e =>
        obtain ⟨n, hmiddle, hlt, hfails, hbefore⟩ := hcomputes'
        refine ⟨.error e, ?_, n, Nat.le_trans h.le hmiddle, hlt, hfails, fun m hstart hm => ?_⟩
        · rw [Meaning.bind_of_ok hresult, Meaning.bind_of_error hresult']
        · rcases Nat.lt_or_ge m middle with hm' | hm'
          · exact h.exists_value? hp hcomputes hstart hm'
          · exact hbefore m hm' hm
      | ok ws =>
        refine ⟨.ok (vs ++ ws), ?_, ?_⟩
        · rw [Meaning.bind_of_ok hresult, Meaning.bind_of_ok hresult']
          rfl
        · exact mapM_append_eq_some hcomputes hcomputes'

/-- A call behind the segment of its operands. -/
theorem call (hp : p.Regular) {start stop : Nat} {operands : List Nat}
    {meaning : Meaning (List (Value α))}
    (h : p.Segment interpret inputs start stop operands meaning) {op : Op}
    (hnode : p.nodes[stop]? = some (.call op operands)) :
    p.Segment interpret inputs start (stop + 1) [stop]
      (meaning >>= Meaning.apply interpret op).single := by
  refine ⟨Nat.le_succ_of_le h.le, fun n hstart hstop => ⟨stop, List.mem_singleton_self _, ?_⟩, ?_⟩
  · rcases Nat.lt_succ_iff_lt_or_eq.1 hstop with hlt | rfl
    · obtain ⟨operand, ho, hpath⟩ := h.needed n hstart hlt
      exact .head (uses_of_call hnode ho) hpath
    · exact .refl
  · obtain ⟨result, hresult, hcomputes⟩ := h.computes
    cases result with
    | error e =>
      obtain ⟨n, hstart, hlt, hfails, hbefore⟩ := hcomputes
      exact ⟨.error e, Meaning.bind_of_error (Meaning.bind_of_error hresult), n, hstart,
        Nat.lt_succ_of_lt hlt, hfails, hbefore⟩
    | ok vs =>
      cases hv : interpret op vs with
      | error e =>
        refine ⟨.error e, ?_, stop, h.le, Nat.lt_succ_self _, ?_, fun m hstart hlt => ?_⟩
        · refine Meaning.bind_of_error ?_
          rw [Meaning.bind_of_ok hresult, Meaning.apply, hv]
          rfl
        · rw [outcome_call hp hnode]
          exact Outcome.ofCall_eq_failure.2 ⟨vs, hcomputes, hv⟩
        · exact h.exists_value? hp hcomputes hstart hlt
      | ok v =>
        refine ⟨.ok [v], ?_, ?_⟩
        · have hrun : (meaning >>= Meaning.apply interpret op).run = some (.ok v) := by
            rw [Meaning.bind_of_ok hresult, Meaning.apply, hv]
            rfl
          rw [Meaning.single, Meaning.bind_of_ok hrun]
          rfl
        · exact mapM_singleton_eq_some.2
            ⟨v, rfl, (value?_call_eq_some hp hnode).2 ⟨vs, hcomputes, hv⟩⟩

/-- A call of an operation of one value. -/
theorem unary (hp : p.Regular) {start stop operand : Nat} {meaning : Meaning (Value α)}
    (h : p.Segment interpret inputs start stop [operand] meaning.single) {op : Op}
    (hnode : p.nodes[stop]? = some (.call op [operand])) :
    p.Segment interpret inputs start (stop + 1) [stop]
      (meaning >>= fun x => Meaning.apply interpret op [x]).single := by
  have hcall := h.call hp hnode
  simp only [Meaning.single, bind_assoc, pure_bind] at hcall ⊢
  exact hcall

/-- A call of an operation of two values, the first of which is computed first. -/
theorem binary (hp : p.Regular) {start middle stop left right : Nat}
    {meaning meaning' : Meaning (Value α)}
    (h : p.Segment interpret inputs start middle [left] meaning.single)
    (h' : p.Segment interpret inputs middle stop [right] meaning'.single) {op : Op}
    (hnode : p.nodes[stop]? = some (.call op [left, right])) :
    p.Segment interpret inputs start (stop + 1) [stop] (Meaning.single do
      let x ← meaning
      let y ← meaning'
      Meaning.apply interpret op [x, y]) := by
  have hcall := (h.append hp h').call hp hnode
  simp only [Meaning.single, bind_assoc, pure_bind, List.cons_append, List.nil_append] at hcall ⊢
  exact hcall

end Segment

/-! ## Recording an expression -/

/-- Where a step has been recorded that appends one call. -/
theorem getElem?_of_call {op : Op} {operands : List Nat} {r r' : Recorder} {node : Nat}
    (h : Recording.call op operands r = .ok (node, r')) (hpre : r'.nodes <+: p.nodes) :
    node = r.size ∧ r'.size = r.size + 1 ∧ p.nodes[r.size]? = some (.call op operands) := by
  obtain ⟨rfl, rfl⟩ := Prod.mk.inj (Except.ok.inj h)
  refine ⟨rfl, Recorder.size_call r op operands, ?_⟩
  obtain ⟨more, hmore⟩ := hpre
  rw [← hmore, Recorder.nodes_push, List.append_assoc, Recorder.size_eq_length]
  simp

/-- Wherever on the tape it stands, what a step has recorded computes a meaning. -/
def Realizes (p : Program) (interpret : Interpretation α) (inputs : List (Value α))
    (x : Recording Nat) (meaning : Meaning (Value α)) : Prop :=
  ∀ r r' node, x r = .ok (node, r') → r'.nodes <+: p.nodes →
    p.Segment interpret inputs r.size r'.size [node] meaning.single

namespace Realizes

variable {x y : Recording Nat} {meaning meaning' : Meaning (Value α)}

theorem fail (e : RecordError) : p.Realizes interpret inputs (Recording.fail e) meaning := nofun

/-- A constant. -/
theorem nullary (hp : p.Regular) (op : Op) :
    p.Realizes interpret inputs (Recording.call op []) (Meaning.apply interpret op []) := by
  intro r r' node h hpre
  obtain ⟨rfl, hsize, hnode⟩ := getElem?_of_call h hpre
  rw [hsize]
  exact (Segment.nil r.size).call hp hnode

/-- A call of an operation of one value. -/
theorem unary (hp : p.Regular) (hx : p.Realizes interpret inputs x meaning) (op : Op) :
    p.Realizes interpret inputs (x >>= fun operand => Recording.call op [operand])
      (meaning >>= fun v => Meaning.apply interpret op [v]) := by
  intro r r' node h hpre
  obtain ⟨operand, r₁, hoperand, hcall⟩ := Recording.bind_eq_ok.1 h
  have hext := Recording.Appends.call _ _ _ _ _ hcall
  obtain ⟨rfl, hsize, hnode⟩ := getElem?_of_call hcall hpre
  rw [hsize]
  exact (hx _ _ _ hoperand (hext.nodes.trans hpre)).unary hp hnode

/-- A call of an operation of two values. -/
theorem binary (hp : p.Regular) (hx : p.Realizes interpret inputs x meaning)
    (hy : p.Realizes interpret inputs y meaning') (happends : y.Appends) (op : Op) :
    p.Realizes interpret inputs
      (x >>= fun lhs => y >>= fun rhs => Recording.call op [lhs, rhs])
      (meaning >>= fun v => meaning' >>= fun w => Meaning.apply interpret op [v, w]) := by
  intro r r' node h hpre
  obtain ⟨lhs, r₁, hlhs, h⟩ := Recording.bind_eq_ok.1 h
  obtain ⟨rhs, r₂, hrhs, hcall⟩ := Recording.bind_eq_ok.1 h
  have hpre₂ := (Recording.Appends.call _ _ _ _ _ hcall).nodes.trans hpre
  have hpre₁ := (happends _ _ _ hrhs).nodes.trans hpre₂
  obtain ⟨rfl, hsize, hnode⟩ := getElem?_of_call hcall hpre
  rw [hsize]
  exact (hx _ _ _ hlhs hpre₁).binary hp (hy _ _ _ hrhs hpre₂) hnode

/-- A call of an operation of one value with a static parameter that may be missing. -/
theorem parameter (hp : p.Regular) (hx : p.Realizes interpret inputs x meaning) {β : Type}
    {a : Except RecordError β} (op : β → Op)
    (h : ∀ b, a = .ok b → meaning' = meaning >>= fun v => Meaning.apply interpret (op b) [v]) :
    p.Realizes interpret inputs
      (x >>= fun operand => liftM a >>= fun b => Recording.call (op b) [operand]) meaning' := by
  intro r r' node hrecorded hpre
  obtain ⟨operand, r₁, hoperand, hrest⟩ := Recording.bind_eq_ok.1 hrecorded
  obtain ⟨b, r₂, hb, hcall⟩ := Recording.bind_eq_ok.1 hrest
  obtain ⟨hok, rfl⟩ := Recording.lift_eq_ok.1 hb
  rw [h b hok]
  exact hx.unary hp (op b) r r' node (Recording.bind_eq_ok.2 ⟨operand, r₁, hoperand, hcall⟩) hpre

end Realizes

/-- What has been recorded for an expression computes what the expression means. -/
theorem realizes_record (hp : p.Regular) {names : Names} {values : List (String × Value α)}
    (hnames : ∀ name node, names.lookup name = some node →
      ∃ v, values.lookup name = some v ∧ p.value? interpret inputs node = some v) (e : Expr) :
    p.Realizes interpret inputs (e.record names) (e.evaluate interpret values) := by
  induction e using Expr.induction with
  | numeral value span => exact .nullary hp _
  | ident name span =>
    rw [Expr.record.eq_def]
    cases hname : names.lookup name with
    | none =>
      simp only [hname]
      exact .fail _
    | some node =>
      obtain ⟨v, hlookup, hv⟩ := hnames name node hname
      simp only [hname, Expr.evaluate, hlookup]
      intro r r' node' h _
      obtain ⟨rfl, rfl⟩ := Prod.mk.inj (Except.ok.inj h)
      exact Segment.known hv
  | negation inner span ih => exact ih.unary hp _
  | binary op left right span ihl ihr => exact ihl.binary hp ihr (appends_record names right) _
  | element base place span ih => exact ih.unary hp _
  | call callee args span ih =>
    rcases record_call_cases names callee args span with
      ⟨op, arg, hcallee, rfl, heq⟩ | ⟨left, right, hcallee, rfl, heq⟩ |
        ⟨arg, shift, hcallee, rfl, heq⟩ | ⟨error, -, heq⟩ <;> rw [heq]
    · obtain ⟨opcode, hname, hop⟩ := ofName?_of_unary hcallee
      rw [Expr.evaluate.eq_def]
      simp only [hname, hop]
      exact (ih arg (by simp)).unary hp op
    · simp only [Expr.evaluate, ofName?_of_dot hcallee]
      exact (ih left (by simp)).binary hp (ih right (by simp)) (appends_record names right) .dot
    · refine (ih arg (by simp)).parameter hp .circshift fun amount hamount => ?_
      simp only [Expr.evaluate, ofName?_of_circshift hcallee, shift?_of_shiftOf hamount]
    · exact .fail error

end Program

end StagedTangent
