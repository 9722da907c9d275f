import StagedTangent.Proofs.Earliest
import StagedTangent.Proofs.Number.Whole
import StagedTangent.Proofs.Source.Occurrence
import StagedTangent.Proofs.Source.WellFormed

/-!
# Which functions have a program

`Function.Admissible` states when a function makes sense, and `Function.ErrorAt` lists everything
that is wrong with a function, each thing at a spot of its own: the function, its parameters, the
parts of its body. `toProgram_reports_earliest` shows that a function has a program exactly if it
makes sense and that it is refused exactly for what comes first of all that is wrong with it.
-/

namespace StagedTangent.Source

/-! ## What makes sense -/

/-- The functions of one argument. -/
def unaryFunctions : List String :=
  ["sin", "cos", "exp", "log", "sqrt", "abs", "sign", "sum", "zero_like"]

/-- The number of arguments that a function takes. -/
def arityOf? (callee : String) : Option Nat :=
  if callee ∈ unaryFunctions then some 1
  else if callee = "dot" ∨ callee = "circshift" then some 2
  else none

namespace Expr

/-- A shift is a numeral, or a numeral behind one minus sign, for an amount that a shift can have. -/
def IsShift : Expr → Prop
  | .numeral value _ => value.IsShift
  | .negation (.numeral value _) _ => value.IsShift
  | _ => False

/-- The characters that are wrong if an expression is no shift. -/
def shiftSpan : Expr → Span
  | .negation inner _ => inner.span
  | e => e.span

/-- The parts of an expression that have a value: all but the shift of a `circshift`. -/
def operands : Expr → List Expr
  | .call callee args _ => if callee = "circshift" then args.take 1 else args
  | e => e.children

/-- An expression makes sense where some names have a meaning. -/
inductive Admissible (names : List String) : Expr → Prop
  | numeral (value : Binary64) (span : Span) : Admissible names (.numeral value span)
  | ident {name : String} (h : name ∈ names) (span : Span) : Admissible names (.ident name span)
  | negation {inner : Expr} (h : inner.Admissible names) (span : Span) :
    Admissible names (.negation inner span)
  | binary (op : Operator) {left right : Expr} (hleft : left.Admissible names)
      (hright : right.Admissible names) (span : Span) : Admissible names (.binary op left right span)
  | element {base : Expr} (h : base.Admissible names) (place : Nat) (span : Span) :
    Admissible names (.element base place span)
  | unary {callee : String} (hcallee : callee ∈ unaryFunctions) {arg : Expr}
      (harg : arg.Admissible names) (span : Span) : Admissible names (.call callee [arg] span)
  | dot {left right : Expr} (hleft : left.Admissible names) (hright : right.Admissible names)
      (span : Span) : Admissible names (.call "dot" [left, right] span)
  | circshift {arg shift : Expr} (harg : arg.Admissible names) (hshift : shift.IsShift)
      (span : Span) : Admissible names (.call "circshift" [arg, shift] span)

/-- What is wrong with an expression whatever its parts are. -/
inductive OwnError (names : List String) : Expr → RecordError → Prop
  | unknownName {name : String} {span : Span} (h : name ∉ names) :
    OwnError names (.ident name span) (.unknownName name span)
  | notAFunction {callee : String} {args : List Expr} {span : Span} (h : arityOf? callee = none) :
    OwnError names (.call callee args span) (.notAFunction callee span)
  | argumentCount {callee : String} {args : List Expr} {span : Span} {n : Nat}
      (h : arityOf? callee = some n) (hcount : args.length ≠ n) :
    OwnError names (.call callee args span) (.argumentCount callee n args.length span)

/-- What is wrong with an expression: itself, then its parts from left to right. -/
inductive ErrorAt (names : List String) : Expr → Spot → RecordError → Prop
  | own {e : Expr} {error : RecordError} (h : OwnError names e error) : ErrorAt names e [] error
  | operand {e c : Expr} {i : Nat} {spot : Spot} {error : RecordError}
      (hc : e.operands[i]? = some c) (h : ErrorAt names c spot error) :
    ErrorAt names e (i :: spot) error
  | shift {arg shift : Expr} {span : Span} (h : ¬ shift.IsShift) :
    ErrorAt names (.call "circshift" [arg, shift] span) [1] (.notAShift shift.shiftSpan)

end Expr

namespace Function

/-- A function makes sense. -/
structure Admissible (f : Function) : Prop where
  params : f.params ≠ []
  nodup : (f.params.map Param.name).Nodup
  body : f.body.Admissible (f.params.map Param.name)

/-- What is wrong with a function: that it has no parameters, then its parameters, then its body. -/
inductive ErrorAt (f : Function) : Spot → RecordError → Prop
  | parameterless (h : f.params = []) : f.ErrorAt [] (.parameterless f.name f.span)
  | repeatedParameter {i : Nat} {param : Param} (hparam : f.params[i]? = some param)
      (h : param.name ∈ (f.params.take i).map Param.name) :
    f.ErrorAt [0, i] (.repeatedParameter param.name param.span)
  | body {spot : Spot} {error : RecordError}
      (h : f.body.ErrorAt (f.params.map Param.name) spot error) : f.ErrorAt (1 :: spot) error

end Function

/-! ## No spot has two things wrong with it -/

namespace Expr

variable {names : List String} {e : Expr} {spot : Spot} {error error' : RecordError}

theorem OwnError.unique (h : OwnError names e error) (h' : OwnError names e error') :
    error = error' := by
  cases h with
  | unknownName => cases h'; rfl
  | notAFunction h =>
    cases h' with
    | notAFunction => rfl
    | argumentCount h' => cases h.symm.trans h'
  | argumentCount h =>
    cases h' with
    | notAFunction h' => cases h.symm.trans h'
    | argumentCount h' => rw [Option.some.inj (h.symm.trans h')]

theorem ErrorAt.unique (h : ErrorAt names e spot error) (h' : ErrorAt names e spot error') :
    error = error' := by
  induction h with
  | own h =>
    cases h' with
    | own h' => exact h.unique h'
  | operand hc _ ih =>
    cases h' with
    | operand hc' h' =>
      obtain rfl := Option.some.inj (hc.symm.trans hc')
      exact ih h'
    | shift => cases hc
  | shift =>
    cases h' with
    | operand hc' => cases hc'
    | shift => rfl

end Expr

theorem Function.ErrorAt.unique {f : Function} {spot : Spot} {error error' : RecordError}
    (h : f.ErrorAt spot error) (h' : f.ErrorAt spot error') : error = error' := by
  cases h with
  | parameterless => cases h'; rfl
  | repeatedParameter hparam =>
    cases h' with
    | repeatedParameter hparam' => rw [Option.some.inj (hparam.symm.trans hparam')]
  | body h =>
    cases h' with
    | body h' => exact h.unique h'

/-! ## What makes sense is what has nothing wrong with it -/

theorem arityOf?_cases {callee : String} {n : Nat} (h : arityOf? callee = some n) :
    n = 1 ∧ callee ∈ unaryFunctions ∨ n = 2 ∧ (callee = "dot" ∨ callee = "circshift") := by
  unfold arityOf? at h
  split at h
  · next hunary => exact .inl ⟨(Option.some.inj h).symm, hunary⟩
  · split at h
    · next hbinary => exact .inr ⟨(Option.some.inj h).symm, hbinary⟩
    · cases h

theorem arityOf?_unary {callee : String} (h : callee ∈ unaryFunctions) :
    arityOf? callee = some 1 := if_pos h

theorem arityOf?_dot : arityOf? "dot" = some 2 := by decide

theorem arityOf?_circshift : arityOf? "circshift" = some 2 := by decide

namespace Expr

variable {names : List String} {e : Expr} {spot : Spot} {error : RecordError}

/-- Nothing but the names and the numbers of arguments is checked of an expression itself. -/
theorem not_ownError_call {callee : String} {args : List Expr} {span : Span}
    (h : arityOf? callee = some args.length) : ¬ OwnError names (.call callee args span) error := by
  rintro (_ | h' | ⟨h', hcount⟩)
  · cases h.symm.trans h'
  · exact hcount (Option.some.inj (h.symm.trans h'))

theorem not_errorAt_of_operands (hown : ∀ error, ¬ OwnError names e error)
    (hoperands : ∀ c ∈ e.operands, ∀ spot error, ¬ ErrorAt names c spot error)
    (hshift : ∀ arg shift span, e = .call "circshift" [arg, shift] span → shift.IsShift) :
    ¬ ErrorAt names e spot error := by
  rintro (h | ⟨hc, h⟩ | h)
  · exact hown _ h
  · exact hoperands _ (List.mem_of_getElem? hc) _ _ h
  · exact h (hshift _ _ _ rfl)

theorem Admissible.not_errorAt (h : e.Admissible names) :
    ∀ spot error, ¬ ErrorAt names e spot error := by
  induction h with
  | numeral => exact fun _ _ => not_errorAt_of_operands nofun nofun nofun
  | ident h =>
    refine fun _ _ => not_errorAt_of_operands (fun error hown => ?_) nofun nofun
    cases hown with
    | unknownName hname => exact hname h
  | negation _ _ ih =>
    exact fun _ _ => not_errorAt_of_operands nofun (List.forall_mem_singleton.2 ih) nofun
  | binary _ _ _ _ ihl ihr =>
    refine fun _ _ => not_errorAt_of_operands nofun ?_ nofun
    exact List.forall_mem_cons.2 ⟨ihl, List.forall_mem_singleton.2 ihr⟩
  | element _ _ _ ih =>
    exact fun _ _ => not_errorAt_of_operands nofun (List.forall_mem_singleton.2 ih) nofun
  | @unary callee hcallee arg _ span ih =>
    have hoperands : (Expr.call callee [arg] span).operands = [arg] := ite_self _
    refine fun _ _ => not_errorAt_of_operands
      (fun _ => not_ownError_call (arityOf?_unary hcallee)) ?_ nofun
    rw [hoperands]
    exact List.forall_mem_singleton.2 ih
  | dot _ _ _ ihl ihr =>
    refine fun _ _ => not_errorAt_of_operands (fun _ => not_ownError_call arityOf?_dot) ?_
      fun _ _ _ heq => absurd (Expr.call.inj heq).1 (by decide)
    exact List.forall_mem_cons.2 ⟨ihl, List.forall_mem_singleton.2 ihr⟩
  | circshift _ hshift _ ih =>
    refine fun _ _ => not_errorAt_of_operands (fun _ => not_ownError_call arityOf?_circshift)
      (List.forall_mem_singleton.2 ih) ?_
    rintro _ _ _ ⟨⟩
    exact hshift

theorem admissible_of_forall_not_errorAt (e : Expr)
    (h : ∀ spot error, ¬ ErrorAt names e spot error) : e.Admissible names := by
  have hoperand : ∀ {e : Expr}, (∀ spot error, ¬ ErrorAt names e spot error) →
      ∀ {i : Nat} {c : Expr}, e.operands[i]? = some c → ∀ spot error, ¬ ErrorAt names c spot error :=
    fun h _ _ hc _ _ hcerror => h _ _ (.operand hc hcerror)
  induction e using Expr.induction with
  | numeral value span => exact .numeral value span
  | ident name span => exact .ident (by_contra fun hname => h _ _ (.own (.unknownName hname))) span
  | negation inner span ih => exact .negation (ih (hoperand h (i := 0) rfl)) span
  | binary op left right span ihl ihr =>
    exact .binary op (ihl (hoperand h (i := 0) rfl)) (ihr (hoperand h (i := 1) rfl)) span
  | element base place span ih => exact .element (ih (hoperand h (i := 0) rfl)) place span
  | call callee args span ih =>
    cases harity : arityOf? callee with
    | none => exact absurd (.own (.notAFunction harity)) (h _ _)
    | some n =>
      have hcount : args.length = n :=
        by_contra fun hcount => h _ _ (.own (.argumentCount harity hcount))
      rcases arityOf?_cases harity with ⟨rfl, hcallee⟩ | ⟨rfl, rfl | rfl⟩
      · obtain ⟨arg, rfl⟩ := List.length_eq_one_iff.1 hcount
        have hoperands : (Expr.call callee [arg] span).operands = [arg] := ite_self _
        exact .unary hcallee (ih arg (by simp) (hoperand h (i := 0) (by rw [hoperands]; rfl))) span
      · obtain ⟨left, right, rfl⟩ := List.length_eq_two.1 hcount
        exact .dot (ih left (by simp) (hoperand h (i := 0) rfl))
          (ih right (by simp) (hoperand h (i := 1) rfl)) span
      · obtain ⟨arg, shift, rfl⟩ := List.length_eq_two.1 hcount
        exact .circshift (ih arg (by simp) (hoperand h (i := 0) rfl))
          (by_contra fun hshift => h _ _ (.shift hshift)) span

/-- An expression makes sense exactly if nothing is wrong with it. -/
theorem admissible_iff : e.Admissible names ↔ ∀ spot error, ¬ ErrorAt names e spot error :=
  ⟨Admissible.not_errorAt, admissible_of_forall_not_errorAt e⟩

/-- What is wrong with one of several expressions. -/
def ErrorIn (names : List String) (parts : List Expr) (spot : Spot) (error : RecordError) : Prop :=
  ∃ i c rest, parts[i]? = some c ∧ spot = i :: rest ∧ ErrorAt names c rest error

theorem errorIn_singleton {c : Expr} : ErrorIn names [c] spot error ↔
    ∃ rest, spot = 0 :: rest ∧ ErrorAt names c rest error := by
  constructor
  · rintro ⟨i, c', rest, hc, rfl, h⟩
    rw [List.getElem?_singleton, Option.ite_none_right_eq_some, Option.some.injEq] at hc
    obtain ⟨rfl, rfl⟩ := hc
    exact ⟨rest, rfl, h⟩
  · rintro ⟨rest, rfl, h⟩
    exact ⟨0, c, rest, rfl, rfl, h⟩

theorem errorIn_pair {c c' : Expr} : ErrorIn names [c, c'] spot error ↔
    (∃ rest, spot = 0 :: rest ∧ ErrorAt names c rest error) ∨
      ∃ rest, spot = 1 :: rest ∧ ErrorAt names c' rest error := by
  constructor
  · rintro ⟨_ | _ | i, _, rest, hc, rfl, h⟩ <;> cases hc
    · exact .inl ⟨rest, rfl, h⟩
    · exact .inr ⟨rest, rfl, h⟩
  · rintro (⟨rest, rfl, h⟩ | ⟨rest, rfl, h⟩)
    · exact ⟨0, c, rest, rfl, rfl, h⟩
    · exact ⟨1, c', rest, rfl, rfl, h⟩

/-- If nothing is wrong with an expression itself, something is wrong with its parts. -/
theorem errorIn_iff_errorAt {parts : List Expr} (hparts : e.operands = parts)
    (hown : ∀ error, ¬ OwnError names e error)
    (hshift : ∀ arg shift span, e ≠ .call "circshift" [arg, shift] span) :
    ErrorIn names parts spot error ↔ ErrorAt names e spot error := by
  subst hparts
  constructor
  · rintro ⟨i, c, rest, hc, rfl, h⟩
    exact .operand hc h
  · rintro (h | ⟨hc, h⟩ | _)
    · exact absurd h (hown _)
    · exact ⟨_, _, _, hc, rfl, h⟩
    · exact absurd rfl (hshift _ _ _)

end Expr

/-! ## Shifts -/

theorem failureOf?_map {ε β γ : Type} (f : β → γ) (x : Except ε β) :
    failureOf? (x.map f) = failureOf? x := by
  cases x <;> rfl

theorem finds_shiftOfNumeral (value : Binary64) (span : Span) :
    Finds (fun spot error => spot = [] ∧ ¬ value.IsShift ∧ error = .notAShift span)
      (failureOf? (shiftOfNumeral value span)) := by
  have hshift := Binary64.isShift_iff (x := value)
  unfold shiftOfNumeral
  split
  · next n hn =>
    split
    · next hlt => exact fun _ _ h => h.2.1 (hshift.2 ⟨n, hn, hlt⟩)
    · next hge =>
      refine .of_nil ⟨rfl, fun h => ?_, rfl⟩
      obtain ⟨m, hm, hlt⟩ := hshift.1 h
      obtain rfl := Option.some.inj (hn.symm.trans hm)
      exact hge hlt
  · next hnone =>
    refine .of_nil ⟨rfl, fun h => ?_, rfl⟩
    obtain ⟨m, hm, -⟩ := hshift.1 h
    cases hnone.symm.trans hm

theorem finds_shiftOf (shift : Expr) :
    Finds (fun spot error => spot = [] ∧ ¬ shift.IsShift ∧ error = .notAShift shift.shiftSpan)
      (failureOf? (shiftOf shift)) := by
  cases shift with
  | numeral value span => exact finds_shiftOfNumeral value span
  | negation inner span =>
    cases inner with
    | numeral value span =>
      rw [shiftOf, failureOf?_map]
      exact finds_shiftOfNumeral value span
    | _ => exact .of_nil ⟨rfl, id, rfl⟩
  | _ => exact .of_nil ⟨rfl, id, rfl⟩

/-! ## Recording finds what is wrong first -/

namespace Recording

/-- Whatever has been recorded, a step fails with what is wrong first. -/
def Finds {β : Type} (wrong : Spot → RecordError → Prop) (x : Recording β) : Prop :=
  ∀ r, StagedTangent.Finds wrong (failureOf? (x r))

variable {β γ : Type} {wrong wrong' : Spot → RecordError → Prop} {x : Recording β}

theorem Finds.call (op : Op) (operands : List Nat) : (call op operands).Finds fun _ _ => False :=
  fun _ => StagedTangent.Finds.nothing

theorem Finds.lift {x : Except RecordError β} (h : StagedTangent.Finds wrong (failureOf? x)) :
    Finds wrong (liftM x : Recording β) := by
  intro r
  cases x with
  | error e => exact h
  | ok b => exact h

theorem Finds.congr (h : x.Finds wrong) (hiff : ∀ spot e, wrong spot e ↔ wrong' spot e) :
    x.Finds wrong' := fun r => (h r).congr hiff

theorem Finds.within (h : x.Finds wrong) (n : Nat) :
    x.Finds fun spot e => ∃ rest, spot = n :: rest ∧ wrong rest e := fun r => (h r).within n

theorem Finds.bind {f : β → Recording γ} (h : x.Finds wrong) (h' : ∀ b, (f b).Finds wrong')
    (hbefore : ∀ spot e spot' e', wrong spot e → wrong' spot' e' → spot < spot') :
    (x >>= f).Finds fun spot e => wrong spot e ∨ wrong' spot e :=
  fun r => (h r).bind (fun entry _ => h' entry.1 entry.2) hbefore

/-- A step behind which nothing can fail. -/
theorem Finds.last {f : β → Recording γ} (h : x.Finds wrong)
    (h' : ∀ b, (f b).Finds fun _ _ => False) : (x >>= f).Finds wrong :=
  (h.bind h' fun _ _ _ _ _ hfalse => hfalse.elim).congr fun _ _ => or_iff_left id

end Recording

section Parts

variable {names : Names} {c c' : Expr}

open Recording in
/-- A call of one operand fails as the operand does. -/
theorem finds_unary (h : (c.record names).Finds (c.ErrorAt (names.map Prod.fst))) (op : Op) :
    (c.record names >>= fun operand => call op [operand]).Finds
      (Expr.ErrorIn (names.map Prod.fst) [c]) :=
  ((h.within 0).last fun _ => .call _ _).congr fun _ _ => Expr.errorIn_singleton.symm

open Recording in
/-- A call of two operands fails as the first operand does, or else as the second. -/
theorem finds_binary (h : (c.record names).Finds (c.ErrorAt (names.map Prod.fst)))
    (h' : (c'.record names).Finds (c'.ErrorAt (names.map Prod.fst))) (op : Op) :
    (c.record names >>= fun lhs => c'.record names >>= fun rhs => call op [lhs, rhs]).Finds
      (Expr.ErrorIn (names.map Prod.fst) [c, c']) := by
  refine ((h.within 0).bind (fun _ => (h'.within 1).last fun _ => .call _ _) ?_).congr
    fun _ _ => Expr.errorIn_pair.symm
  rintro _ _ _ _ ⟨rest, rfl, -⟩ ⟨rest', rfl, -⟩
  exact section_lt Nat.one_pos rest rest'

open Recording in
/-- A `circshift` fails as its vector does, or else as its shift. -/
theorem finds_circshift (h : (c.record names).Finds (c.ErrorAt (names.map Prod.fst))) (shift : Expr)
    (span : Span) :
    (c.record names >>= fun vector => shiftOf shift >>= fun amount =>
        call (.circshift amount) [vector]).Finds
      ((Expr.call "circshift" [c, shift] span).ErrorAt (names.map Prod.fst)) := by
  refine ((h.within 0).bind
    (fun _ => ((Finds.lift (finds_shiftOf shift)).within 1).last fun _ => .call _ _) ?_).congr
      fun spot error => ?_
  · rintro _ _ _ _ ⟨rest, rfl, -⟩ ⟨rest', rfl, -⟩
    exact section_lt Nat.one_pos rest rest'
  · constructor
    · rintro (⟨rest, rfl, h⟩ | ⟨_, rfl, rfl, hshift, rfl⟩)
      · exact .operand (i := 0) rfl h
      · exact .shift hshift
    · rintro (h | ⟨hc, h⟩ | hshift)
      · exact absurd h (Expr.not_ownError_call arityOf?_circshift)
      · obtain ⟨rest, heq, h⟩ := Expr.errorIn_singleton.1 ⟨_, _, _, hc, rfl, h⟩
        exact .inl ⟨rest, heq, h⟩
      · exact .inr ⟨[], rfl, rfl, hshift, rfl⟩

end Parts

theorem map_arity_ofName? (callee : String) :
    (Builtin.ofName? callee).map Builtin.arity = arityOf? callee := by
  unfold Builtin.ofName?
  split
  case h_12 => simp_all [arityOf?, unaryFunctions]
  all_goals rfl

theorem CallError.ownError {names : List String} {callee : String} {args : List Expr} {span : Span}
    {error : RecordError} (h : CallError callee args span error) :
    (Expr.call callee args span).OwnError names error := by
  have harity := map_arity_ofName? callee
  cases h with
  | notAFunction hcallee =>
    rw [hcallee] at harity
    exact .notAFunction harity.symm
  | argumentCount hcallee hcount =>
    rw [hcallee] at harity
    exact .argumentCount harity.symm hcount

open Recording in
/-- Recording an expression fails with what is wrong with it first. -/
theorem finds_record (names : Names) (e : Expr) :
    (e.record names).Finds (e.ErrorAt (names.map Prod.fst)) := by
  induction e using Expr.induction with
  | numeral value span =>
    exact (Finds.call _ _).congr fun spot error =>
      iff_of_false id ((Expr.Admissible.numeral value span).not_errorAt spot error)
  | ident name span =>
    -- The names with a meaning are the keys of the list that is looked up.
    intro r
    have hname : name ∈ names.map Prod.fst ↔ (names.lookup name).isSome := by
      rw [List.lookup_isSome_iff, List.mem_map]
      simp only [beq_iff_eq, @eq_comm _ name]
    rw [Expr.record.eq_def]
    cases hlookup : names.lookup name with
    | some node =>
      simp only [hlookup]
      exact (Expr.Admissible.ident (hname.2 (hlookup ▸ rfl)) span).not_errorAt
    | none =>
      simp only [hlookup]
      refine .of_nil (.own (.unknownName fun hmem => ?_))
      rw [hname, hlookup] at hmem
      cases hmem
  | negation inner span ih =>
    exact (finds_unary ih .neg).congr fun _ _ =>
      Expr.errorIn_iff_errorAt rfl (fun _ hown => by cases hown) (by simp)
  | binary op left right span ihl ihr =>
    exact (finds_binary ihl ihr op.op).congr fun _ _ =>
      Expr.errorIn_iff_errorAt rfl (fun _ hown => by cases hown) (by simp)
  | element base place span ih =>
    exact (finds_unary ih (.index place)).congr fun _ _ =>
      Expr.errorIn_iff_errorAt rfl (fun _ hown => by cases hown) (by simp)
  | call callee args span ih =>
    have harity := map_arity_ofName? callee
    rcases record_call_cases names callee args span with
      ⟨op, arg, hcallee, rfl, heq⟩ | ⟨left, right, hcallee, rfl, heq⟩ |
        ⟨arg, shift, hcallee, rfl, heq⟩ | ⟨error, herror, heq⟩ <;> rw [heq]
    · rw [hcallee] at harity
      exact (finds_unary (ih arg (by simp)) op).congr fun _ _ =>
        Expr.errorIn_iff_errorAt (ite_self _) (fun _ => Expr.not_ownError_call harity.symm) (by simp)
    · obtain rfl := eq_dot_of_ofName? hcallee
      exact (finds_binary (ih left (by simp)) (ih right (by simp)) .dot).congr fun _ _ =>
        Expr.errorIn_iff_errorAt rfl (fun _ => Expr.not_ownError_call arityOf?_dot) (by simp)
    · obtain rfl := eq_circshift_of_ofName? hcallee
      exact finds_circshift (ih arg (by simp)) shift span
    · exact fun r => .of_nil (.own herror.ownError)

/-! ## The program of a function -/

namespace Function

variable {f : Function}

/-- Names are different if none of them is repeated. -/
theorem nodup_iff {names : List String} : names.Nodup ↔
    ∀ (i : Nat) (name : String), names[i]? = some name → name ∉ names.take i := by
  rw [List.Nodup, List.pairwise_iff_getElem]
  constructor
  · intro h i name hname hmem
    obtain ⟨hi, rfl⟩ := List.getElem?_eq_some_iff.1 hname
    obtain ⟨j, hj, heq⟩ := List.mem_take_iff_getElem.1 hmem
    exact h j i (by omega) hi (by omega) heq
  · intro h i j hi hj hlt heq
    refine h j _ (List.getElem?_eq_getElem hj) ?_
    exact List.mem_take_iff_getElem.2 ⟨i, by omega, heq⟩

/-- The first repeated parameter is found. -/
theorem finds_repeated? (params : List Param) :
    Finds (fun spot error => ∃ i param rest, params[i]? = some param ∧ spot = i :: rest ∧ rest = [] ∧
        param.name ∈ (params.take i).map Param.name ∧
          error = RecordError.repeatedParameter param.name param.span)
      ((repeated? params).map fun param => .repeatedParameter param.name param.span) := by
  have hsearch : ((repeated? params).map fun param =>
        RecordError.repeatedParameter param.name param.span) =
      params.zipIdx.findSome? fun entry =>
        if entry.1.name ∈ (params.take entry.2).map Param.name then
          some (.repeatedParameter entry.1.name entry.1.span)
        else none := by
    rw [repeated?, List.find?_eq_findSome?_guard, Option.map_map, List.map_findSome?]
    congr 1
    funext entry
    by_cases h : ∃ earlier ∈ params.take entry.2, earlier.name = entry.1.name
    · rw [if_pos (List.mem_map.2 h)]
      simp [Option.guard, h]
    · rw [if_neg fun hmem => h (List.mem_map.1 hmem)]
      simp [Option.guard, h]
  rw [hsearch]
  exact .findSome?_zipIdx fun i param _ => .ite _

/-- What the program of a function fails with. -/
theorem failureOf?_toProgram (f : Function) :
    failureOf? f.toProgram =
      if f.params = [] then some (.parameterless f.name f.span)
      else ((repeated? f.params).map fun param => .repeatedParameter param.name param.span).or
        (failureOf? (f.body.record (f.names (.start f.params.length)) (.start f.params.length))) := by
  have hdefect := f.toProgram_ne_illFormed
  unfold toProgram at hdefect ⊢
  by_cases hparams : f.params = []
  · rw [if_pos hparams, if_pos (List.isEmpty_iff.2 hparams)]
    rfl
  · rw [if_neg fun h => hparams (List.isEmpty_iff.1 h)] at hdefect ⊢
    rw [if_neg hparams]
    cases hrepeated : repeated? f.params with
    | some param => rfl
    | none =>
      cases hrecord : f.body.record (f.names (.start f.params.length)) (.start f.params.length) with
      | error e =>
        dsimp only
        rw [hrecord]
        rfl
      | ok entry =>
        -- Only an ill-formed program could keep the recorder from closing.
        simp only [hrepeated, hrecord, ok_bind] at hdefect ⊢
        cases hclose : entry.2.close entry.1 with
        | error defect => exact absurd (by rw [hclose]; rfl) (hdefect defect)
        | ok p => rfl

/-- A function is refused for what is wrong with it first. -/
theorem finds_toProgram (f : Function) : Finds f.ErrorAt (failureOf? f.toProgram) := by
  have hnames : (f.names (.start f.params.length)).map Prod.fst = f.params.map Param.name := by
    rw [names, Recorder.arguments_start, List.map_fst_zip]
    rw [List.length_map, List.length_range]
  have hbody := finds_record (f.names (.start f.params.length)) f.body (.start f.params.length)
  rw [hnames] at hbody
  rw [failureOf?_toProgram]
  refine (Finds.guard fun _ => ((finds_repeated? f.params).within 0).or (hbody.within 1) ?_).congr
    fun spot error => ?_
  · rintro _ _ _ _ ⟨rest, rfl, -⟩ ⟨rest', rfl, -⟩
    exact section_lt Nat.one_pos rest rest'
  · constructor
    · rintro (⟨rfl, h, rfl⟩ | ⟨_, rfl, i, param, _, hparam, rfl, rfl, h, rfl⟩ | ⟨rest, rfl, h⟩)
      · exact .parameterless h
      · exact .repeatedParameter hparam h
      · exact .body h
    · rintro (h | ⟨hparam, h⟩ | h)
      · exact .inl ⟨rfl, h, rfl⟩
      · exact .inr (.inl ⟨_, rfl, _, _, _, hparam, rfl, rfl, h, rfl⟩)
      · exact .inr (.inr ⟨_, rfl, h⟩)

/-- A function makes sense exactly if nothing is wrong with it. -/
theorem admissible_iff : f.Admissible ↔ ∀ spot error, ¬ f.ErrorAt spot error := by
  constructor
  · rintro ⟨hparams, hnodup, hbody⟩ spot error (h | ⟨hparam, h⟩ | h)
    · exact hparams h
    · refine nodup_iff.1 hnodup _ _ ?_ (by rwa [List.map_take] at h)
      rw [List.getElem?_map, hparam]
      rfl
    · exact hbody.not_errorAt _ _ h
  · intro h
    refine ⟨fun hparams => h _ _ (.parameterless hparams), nodup_iff.2 ?_,
      Expr.admissible_iff.2 fun spot error hbody => h _ _ (.body hbody)⟩
    intro i name hname hmem
    rw [List.getElem?_map, Option.map_eq_some_iff] at hname
    obtain ⟨param, hparam, rfl⟩ := hname
    exact h _ _ (.repeatedParameter hparam (by rwa [List.map_take]))

/-- A function has a program exactly if it makes sense. -/
theorem exists_toProgram_iff : (∃ p, f.toProgram = .ok p) ↔ f.Admissible := by
  rw [admissible_iff, ← failureOf?_eq_none_iff]
  exact (finds_toProgram f).eq_none_iff

/-- A function has a program exactly if it makes sense. It is refused exactly for what comes first of
all that is wrong with it, and never for a defect of the program. -/
theorem toProgram_reports_earliest (f : Function) :
    ((∃ p, f.toProgram = .ok p) ↔ f.Admissible) ∧
      (∀ error, f.toProgram = .error error ↔ ∃ spot, Earliest f.ErrorAt spot error) ∧
        ∀ defect, f.toProgram ≠ .error (.illFormed defect) := by
  refine ⟨exists_toProgram_iff, fun error => ?_, f.toProgram_ne_illFormed⟩
  rw [← failureOf?_eq_some_iff]
  exact (finds_toProgram f).eq_some_iff fun _ _ _ => ErrorAt.unique

end Function

end StagedTangent.Source
