import StagedTangent.Proofs.Program.Path
import StagedTangent.Proofs.Source.Segment

/-!
# Occurrences in expressions

Which names an expression mentions, and of which it takes an absolute value, shows on the tape that
it is recorded on: a path of uses leads from its node to the argument of a name exactly if the name
occurs in it. `Program.Mirrors` states this for a node and an expression, a call mirrors what its
operands mirror, and `mirrors_record` finds it of every recorded expression.
-/

namespace StagedTangent

open Source

/-! ## Parts of an expression -/

namespace Source.Expr

/-- The expressions that one is made of, the arguments of a call among them. -/
def children : Expr → List Expr
  | .numeral _ _ | .ident _ _ => []
  | .negation inner _ => [inner]
  | .binary _ left right _ => [left, right]
  | .element base _ _ => [base]
  | .call _ args _ => args

/-- An expression stands in another, at any depth. -/
inductive Within : Expr → Expr → Prop
  | self (e : Expr) : Within e e
  | child {part c e : Expr} : c ∈ e.children → Within part c → Within part e

/-- A name occurs in an expression. -/
def Mentions (name : String) (e : Expr) : Prop := ∃ span, (Expr.ident name span).Within e

/-- An expression calls `abs` of something in which a name occurs. -/
def TakesAbsoluteOf (name : String) (e : Expr) : Prop :=
  ∃ arg span, (Expr.call "abs" [arg] span).Within e ∧ arg.Mentions name

variable {name : String} {e : Expr}

theorem within_iff {part : Expr} : part.Within e ↔ part = e ∨ ∃ c ∈ e.children, part.Within c := by
  constructor
  · rintro (_ | ⟨hc, hpart⟩)
    · exact .inl rfl
    · exact .inr ⟨_, hc, hpart⟩
  · rintro (rfl | ⟨c, hc, hpart⟩)
    · exact .self _
    · exact .child hc hpart

theorem mentions_iff : e.Mentions name ↔
    (∃ span, .ident name span = e) ∨ ∃ c ∈ e.children, c.Mentions name := by
  constructor
  · rintro ⟨span, hwithin⟩
    rcases within_iff.1 hwithin with heq | ⟨c, hc, hpart⟩
    · exact .inl ⟨span, heq⟩
    · exact .inr ⟨c, hc, span, hpart⟩
  · rintro (⟨span, rfl⟩ | ⟨c, hc, span, hpart⟩)
    · exact ⟨span, .self _⟩
    · exact ⟨span, .child hc hpart⟩

theorem takesAbsoluteOf_iff : e.TakesAbsoluteOf name ↔
    (∃ arg span, .call "abs" [arg] span = e ∧ arg.Mentions name) ∨
      ∃ c ∈ e.children, c.TakesAbsoluteOf name := by
  constructor
  · rintro ⟨arg, span, hwithin, hmentions⟩
    rcases within_iff.1 hwithin with heq | ⟨c, hc, hpart⟩
    · exact .inl ⟨arg, span, heq, hmentions⟩
    · exact .inr ⟨c, hc, arg, span, hpart, hmentions⟩
  · rintro (⟨arg, span, rfl, hmentions⟩ | ⟨c, hc, arg, span, hpart, hmentions⟩)
    · exact ⟨arg, span, .self _, hmentions⟩
    · exact ⟨arg, span, .child hc hpart, hmentions⟩

end Source.Expr

/-! ## What a node mirrors -/

namespace Program

variable {p : Program} {x position : Nat} {name : String}

/-- Paths from a call go on from its operands. -/
theorem path_call_iff {node n : Nat} {op : Op} {operands : List Nat}
    (hnode : p.nodes[node]? = some (.call op operands)) :
    p.Path node n ↔ node = n ∨ ∃ operand ∈ operands, p.Path operand n := by
  constructor
  · intro h
    rcases Relation.ReflTransGen.cases_head h with rfl | ⟨operand, ⟨_, heq, ho⟩, hpath⟩
    · exact .inl rfl
    · cases hnode.symm.trans heq
      exact .inr ⟨operand, ho, hpath⟩
  · rintro (rfl | ⟨operand, ho, hpath⟩)
    · exact .refl
    · exact .head (uses_of_call hnode ho) hpath

/-- Paths from an argument go nowhere. -/
theorem path_argument_iff {node n : Nat} (hnode : p.nodes[node]? = some (.argument position)) :
    p.Path node n ↔ node = n := by
  constructor
  · intro h
    rcases Relation.ReflTransGen.cases_head h with rfl | ⟨operand, ⟨_, heq, ho⟩, -⟩
    · rfl
    · cases hnode.symm.trans heq
      cases ho
  · rintro rfl
    exact .refl

/-- A node is computed from an `abs` that is computed from another node. -/
def TakesAbsoluteOf (p : Program) (x node : Nat) : Prop :=
  ∃ n operands, p.Path node n ∧ p.nodes[n]? = some (.call .abs operands) ∧ p.Path n x

/-- A node depends on an argument as an expression depends on the name of the argument. -/
structure Mirrors (p : Program) (x : Nat) (name : String) (node : Nat) (e : Expr) : Prop where
  depends : p.Path node x ↔ e.Mentions name
  absolute : p.TakesAbsoluteOf x node ↔ e.TakesAbsoluteOf name

theorem takesAbsoluteOf_call_iff {node : Nat} {op : Op} {operands : List Nat}
    (hnode : p.nodes[node]? = some (.call op operands)) :
    p.TakesAbsoluteOf x node ↔
      op = .abs ∧ p.Path node x ∨ ∃ operand ∈ operands, p.TakesAbsoluteOf x operand := by
  constructor
  · rintro ⟨n, operands', hpath, habs, hx⟩
    rcases (path_call_iff hnode).1 hpath with rfl | ⟨operand, ho, hpath⟩
    · cases hnode.symm.trans habs
      exact .inl ⟨rfl, hx⟩
    · exact .inr ⟨operand, ho, n, operands', hpath, habs, hx⟩
  · rintro (⟨rfl, hx⟩ | ⟨operand, ho, n, operands', hpath, habs, hx⟩)
    · exact ⟨node, operands, .refl, hnode, hx⟩
    · exact ⟨n, operands', (path_call_iff hnode).2 (.inr ⟨operand, ho, hpath⟩), habs, hx⟩

theorem exists_iff_of_forall₂ {β γ : Type} {xs : List β} {ys : List γ} {a : β → Prop} {b : γ → Prop}
    (h : List.Forall₂ (fun x y => a x ↔ b y) xs ys) : (∃ x ∈ xs, a x) ↔ ∃ y ∈ ys, b y := by
  induction h with
  | nil => simp
  | cons hhead _ ih => rw [List.exists_mem_cons_iff, List.exists_mem_cons_iff, hhead, ih]

/-- A call mirrors an expression if its operands mirror the parts that count, and if it is an `abs`
exactly where the expression calls `abs`. -/
theorem Mirrors.call (hx : p.nodes[x]? = some (.argument position)) {node : Nat} {op : Op}
    {operands : List Nat} (hnode : p.nodes[node]? = some (.call op operands)) {e : Expr}
    {parts : List Expr} (hparts : List.Forall₂ (p.Mirrors x name) operands parts)
    (hmentions : e.Mentions name ↔ ∃ c ∈ parts, c.Mentions name)
    (habsolute : e.TakesAbsoluteOf name ↔
      op = .abs ∧ e.Mentions name ∨ ∃ c ∈ parts, c.TakesAbsoluteOf name) :
    p.Mirrors x name node e := by
  have hne : node ≠ x := by
    rintro rfl
    cases hnode.symm.trans hx
  have hdepends : p.Path node x ↔ e.Mentions name := by
    rw [path_call_iff hnode, or_iff_right hne, hmentions]
    exact exists_iff_of_forall₂ (hparts.imp fun _ _ h => h.depends)
  refine ⟨hdepends, ?_⟩
  rw [takesAbsoluteOf_call_iff hnode, habsolute, hdepends]
  exact or_congr_right (exists_iff_of_forall₂ (hparts.imp fun _ _ h => h.absolute))

/-- A call that is no `abs` for an expression that calls nothing. -/
theorem Mirrors.operation (hx : p.nodes[x]? = some (.argument position)) {node : Nat} {op : Op}
    {operands : List Nat} (hnode : p.nodes[node]? = some (.call op operands)) {e : Expr}
    (hparts : List.Forall₂ (p.Mirrors x name) operands e.children)
    (hident : ∀ span, e ≠ .ident name span) (hop : op ≠ .abs)
    (hcall : ∀ arg span, e ≠ .call "abs" [arg] span) : p.Mirrors x name node e := by
  refine .call hx hnode hparts ?_ ?_
  · rw [Expr.mentions_iff, or_iff_right]
    rintro ⟨span, heq⟩
    exact hident span heq.symm
  · rw [Expr.takesAbsoluteOf_iff, or_iff_right, or_iff_right]
    · exact fun h => hop h.1
    · rintro ⟨arg, span, heq, -⟩
      exact hcall arg span heq.symm

/-! ## Recording an expression -/

/-- Where a step has been recorded that ends in a call of one operand. -/
theorem exists_operand {y : Recording Nat} {op : Op} {r r' : Recorder} {node : Nat}
    (h : (y >>= fun operand => Recording.call op [operand]) r = .ok (node, r'))
    (hpre : r'.nodes <+: p.nodes) :
    ∃ operand r₁, y r = .ok (operand, r₁) ∧ r₁.nodes <+: p.nodes ∧
      p.nodes[node]? = some (.call op [operand]) := by
  obtain ⟨operand, r₁, hoperand, hcall⟩ := Recording.bind_eq_ok.1 h
  obtain ⟨rfl, -, hnode⟩ := getElem?_of_call hcall hpre
  exact ⟨operand, r₁, hoperand, (Recording.Appends.call _ _ _ _ _ hcall).nodes.trans hpre, hnode⟩

/-- Where a step has been recorded that ends in a call of two operands. -/
theorem exists_operands {y z : Recording Nat} (happends : z.Appends) {op : Op} {r r' : Recorder}
    {node : Nat}
    (h : (y >>= fun lhs => z >>= fun rhs => Recording.call op [lhs, rhs]) r = .ok (node, r'))
    (hpre : r'.nodes <+: p.nodes) :
    ∃ lhs rhs r₁ r₂, y r = .ok (lhs, r₁) ∧ r₁.nodes <+: p.nodes ∧ z r₁ = .ok (rhs, r₂) ∧
      r₂.nodes <+: p.nodes ∧ p.nodes[node]? = some (.call op [lhs, rhs]) := by
  obtain ⟨lhs, r₁, hlhs, hrest⟩ := Recording.bind_eq_ok.1 h
  obtain ⟨rhs, r₂, hrhs, hcall⟩ := Recording.bind_eq_ok.1 hrest
  obtain ⟨rfl, -, hnode⟩ := getElem?_of_call hcall hpre
  have hpre₂ := (Recording.Appends.call _ _ _ _ _ hcall).nodes.trans hpre
  exact ⟨lhs, rhs, r₁, r₂, hlhs, (happends _ _ _ hrhs).nodes.trans hpre₂, hrhs, hpre₂, hnode⟩

/-- No name occurs in the shift of a `circshift`. -/
theorem not_mentions_of_shiftOf {shift : Expr} {amount : Int} (h : shiftOf shift = .ok amount) :
    ¬ shift.Mentions name ∧ ¬ shift.TakesAbsoluteOf name := by
  have hnumeral : ∀ value span, ¬ (Expr.numeral value span).Mentions name ∧
      ¬ (Expr.numeral value span).TakesAbsoluteOf name := by
    intro value span
    rw [Expr.mentions_iff, Expr.takesAbsoluteOf_iff]
    simp [Expr.children]
  unfold shiftOf at h
  split at h
  · exact hnumeral _ _
  · next value span _ =>
    rw [Expr.mentions_iff, Expr.takesAbsoluteOf_iff]
    simp [Expr.children, hnumeral value span]
  · cases h
  · cases h

/-- A function of one value is `abs` exactly if it is called so. -/
theorem eq_abs_iff_of_ofName? {callee : String} {op : Op}
    (h : Builtin.ofName? callee = some (.unary op)) : op = .abs ↔ callee = "abs" := by
  unfold Builtin.ofName? at h
  split at h <;> cases h <;> decide

/-- The argument for a name mirrors the name. -/
theorem mirrors_argument {node place : Nat} {other : String}
    (hplace : p.nodes[node]? = some (.argument place)) (hiff : node = x ↔ other = name)
    (span : Span) : p.Mirrors x name node (.ident other span) := by
  refine ⟨?_, ?_⟩
  · rw [path_argument_iff hplace, hiff, Expr.mentions_iff]
    simp [Expr.children, eq_comm]
  · rw [Expr.takesAbsoluteOf_iff]
    refine iff_of_false ?_ (by simp [Expr.children])
    rintro ⟨n, operands, hpath, habs, -⟩
    obtain rfl := (path_argument_iff hplace).1 hpath
    cases hplace.symm.trans habs

/-- A recorded call mirrors the call if its arguments, recorded by themselves, are mirrored. -/
theorem mirrors_call (hx : p.nodes[x]? = some (.argument position)) {names : Names}
    {callee : String} {args : List Expr} {span : Span}
    (ih : ∀ arg ∈ args, ∀ r r' node, arg.record names r = .ok (node, r') →
      r'.nodes <+: p.nodes → p.Mirrors x name node arg)
    {r r' : Recorder} {node : Nat} (h : (Expr.call callee args span).record names r = .ok (node, r'))
    (hpre : r'.nodes <+: p.nodes) : p.Mirrors x name node (.call callee args span) := by
  rcases record_call_cases names callee args span with
    ⟨op, arg, hcallee, rfl, heq⟩ | ⟨left, right, -, rfl, heq⟩ | ⟨arg, shift, -, rfl, heq⟩ |
      ⟨error, -, heq⟩ <;> rw [heq] at h
  · obtain ⟨operand, r₁, hoperand, hpre₁, hnode⟩ := exists_operand h hpre
    have habs := eq_abs_iff_of_ofName? hcallee
    refine .call hx hnode (.cons (ih arg (by simp) _ _ _ hoperand hpre₁) .nil) ?_ ?_
    · rw [Expr.mentions_iff]
      simp [Expr.children]
    · rw [Expr.takesAbsoluteOf_iff, Expr.mentions_iff, habs]
      simp [Expr.children, eq_comm]
  · obtain ⟨lhs, rhs, r₁, r₂, hlhs, hpre₁, hrhs, hpre₂, hnode⟩ :=
      exists_operands (appends_record names right) h hpre
    exact .operation hx hnode (.cons (ih left (by simp) _ _ _ hlhs hpre₁)
      (.cons (ih right (by simp) _ _ _ hrhs hpre₂) .nil)) (by simp) (by simp) (by simp)
  · obtain ⟨vector, r₁, hvector, hrest⟩ := Recording.bind_eq_ok.1 h
    obtain ⟨amount, r₂, hlift, hcall⟩ := Recording.bind_eq_ok.1 hrest
    obtain ⟨hshift, rfl⟩ := Recording.lift_eq_ok.1 hlift
    obtain ⟨rfl, -, hnode⟩ := getElem?_of_call hcall hpre
    have hpre₁ := (Recording.Appends.call _ _ _ _ _ hcall).nodes.trans hpre
    obtain ⟨hmentions, habsolute⟩ :
        ¬ shift.Mentions name ∧ ¬ shift.TakesAbsoluteOf name := not_mentions_of_shiftOf hshift
    refine .call hx hnode (.cons (ih arg (by simp) _ _ _ hvector hpre₁) .nil) ?_ ?_
    · rw [Expr.mentions_iff]
      simp [Expr.children, hmentions]
    · rw [Expr.takesAbsoluteOf_iff]
      simp [Expr.children, habsolute]
  · cases h

/-- The node of a recorded expression mirrors the expression, if each name has an argument for its
node and the one that is asked about has the argument that is asked about. -/
theorem mirrors_record (hx : p.nodes[x]? = some (.argument position)) {names : Names}
    (hnames : ∀ other node, names.lookup other = some node →
      (∃ place, p.nodes[node]? = some (.argument place)) ∧ (node = x ↔ other = name)) (e : Expr) :
    ∀ r r' node, e.record names r = .ok (node, r') → r'.nodes <+: p.nodes →
      p.Mirrors x name node e := by
  induction e using Expr.induction with
  | numeral value span =>
    intro r r' node h hpre
    obtain ⟨rfl, -, hnode⟩ := getElem?_of_call h hpre
    exact .operation hx hnode .nil (by simp) (by simp) (by simp)
  | ident other span =>
    intro r r' node h _
    rw [Expr.record.eq_def] at h
    cases hlookup : names.lookup other with
    | none =>
      simp only [hlookup] at h
      cases h
    | some found =>
      simp only [hlookup] at h
      obtain ⟨rfl, rfl⟩ := Prod.mk.inj (Except.ok.inj h)
      obtain ⟨⟨place, hplace⟩, hiff⟩ := hnames other found hlookup
      exact mirrors_argument hplace hiff span
  | negation inner span ih =>
    intro r r' node h hpre
    obtain ⟨operand, r₁, hoperand, hpre₁, hnode⟩ := exists_operand h hpre
    exact .operation hx hnode (.cons (ih _ _ _ hoperand hpre₁) .nil) (by simp) (by simp) (by simp)
  | binary op left right span ihl ihr =>
    intro r r' node h hpre
    obtain ⟨lhs, rhs, r₁, r₂, hlhs, hpre₁, hrhs, hpre₂, hnode⟩ :=
      exists_operands (appends_record names right) h hpre
    have hop : op.op ≠ .abs := by cases op <;> decide
    exact .operation hx hnode (.cons (ihl _ _ _ hlhs hpre₁) (.cons (ihr _ _ _ hrhs hpre₂) .nil))
      (by simp) hop (by simp)
  | element base place span ih =>
    intro r r' node h hpre
    obtain ⟨operand, r₁, hoperand, hpre₁, hnode⟩ := exists_operand h hpre
    exact .operation hx hnode (.cons (ih _ _ _ hoperand hpre₁) .nil) (by simp) (by simp) (by simp)
  | call callee args span ih =>
    intro r r' node h hpre
    exact mirrors_call hx ih h hpre

end Program

end StagedTangent
