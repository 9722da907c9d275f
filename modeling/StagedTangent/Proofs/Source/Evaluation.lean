import StagedTangent.Evaluation.Run
import StagedTangent.Source.Recording

/-!
# Evaluating a body

The body of a function can be evaluated as it stands, from the inside out and from left to right,
with no program in between: `Expr.evaluate`. It knows nothing of how functions are recorded; the
operation that a call applies is found by the name that the operation has everywhere else, and a
shift is whatever whole number is written. The lemmas at the end show that recording reads both in
the same way.
-/

namespace StagedTangent.Source

variable {α : Type}

/-- What evaluating comes to: nothing for an expression without a meaning, and otherwise a value or
the first error. -/
abbrev Meaning (β : Type) := ExceptT RunError Option β

namespace Meaning

/-- There is no meaning. -/
def none {β : Type} : Meaning β := ExceptT.mk .none

/-- The meaning of an operation applied to values. -/
def apply (interpret : Interpretation α) (op : Op) (operands : List (Value α)) :
    Meaning (Value α) :=
  ExceptT.mk (.some (interpret op operands))

variable {β γ : Type} {x : Meaning β} {f : β → Meaning γ}

/-- A value as a list of one. -/
def single (x : Meaning β) : Meaning (List β) := x >>= fun b => pure [b]

theorem run_single {result : Except RunError (List β)} (h : x.single.run = some result) :
    ∃ r, x.run = some r ∧ result = r.map fun b => [b] := by
  rw [single, ExceptT.run_bind] at h
  cases hx : x.run with
  | none =>
    rw [hx] at h
    cases h
  | some r =>
    rw [hx] at h
    refine ⟨r, rfl, ?_⟩
    cases r with
    | error e => exact (Option.some.inj h).symm
    | ok b => exact (Option.some.inj h).symm

/-- What follows a value. -/
theorem bind_of_ok {b : β} (h : x.run = some (.ok b)) : (x >>= f).run = (f b).run := by
  rw [ExceptT.run_bind, h]
  rfl

/-- An error ends the evaluation. -/
theorem bind_of_error {e : RunError} (h : x.run = some (.error e)) :
    (x >>= f).run = some (.error e) := by
  rw [ExceptT.run_bind, h]
  rfl

end Meaning

/-- The operation of one value that a body calls by its name. -/
def unaryOp? : Opcode → Option Op
  | .sin => some .sin
  | .cos => some .cos
  | .exp => some .exp
  | .log => some .log
  | .sqrt => some .sqrt
  | .abs => some .abs
  | .sign => some .sign
  | .sum => some .sum
  | .zeroLike => some .zeroLike
  | _ => none

/-- The amount of a shift: a whole number, or one behind a minus sign. -/
def shift? : Expr → Option Int
  | .numeral value _ => value.toInt?
  | .negation (.numeral value _) _ => value.toInt?.map (fun n => -n)
  | _ => none

/-- Evaluate an expression where its names have values: operands and arguments from left to right,
then the operation on what they come to. -/
def Expr.evaluate (interpret : Interpretation α) (values : List (String × Value α)) :
    Expr → Meaning (Value α)
  | .numeral value _ => .apply interpret (.constant value) []
  | .ident name _ =>
    match values.lookup name with
    | some v => pure v
    | none => .none
  | .negation inner _ => do
    let x ← inner.evaluate interpret values
    .apply interpret .neg [x]
  | .binary op left right _ => do
    let x ← left.evaluate interpret values
    let y ← right.evaluate interpret values
    .apply interpret op.op [x, y]
  | .element base place _ => do
    let x ← base.evaluate interpret values
    .apply interpret (.index place) [x]
  | .call callee args _ =>
    match Opcode.ofName? callee, args with
    | some .circshift, [arg, shift] => do
      let x ← arg.evaluate interpret values
      match shift? shift with
      | some n => .apply interpret (.circshift n) [x]
      | none => .none
    | some .dot, [left, right] => do
      let x ← left.evaluate interpret values
      let y ← right.evaluate interpret values
      .apply interpret .dot [x, y]
    | some opcode, [arg] => do
      let x ← arg.evaluate interpret values
      match unaryOp? opcode with
      | some op => .apply interpret op [x]
      | none => .none
    | _, _ => .none

/-- The functions of one value are called by the names of their operations. -/
theorem ofName?_of_unary {callee : String} {op : Op}
    (h : Builtin.ofName? callee = some (.unary op)) :
    ∃ opcode, Opcode.ofName? callee = some opcode ∧ unaryOp? opcode = some op := by
  unfold Builtin.ofName? at h
  split at h <;> cases h
  · exact ⟨.sin, by decide, rfl⟩
  · exact ⟨.cos, by decide, rfl⟩
  · exact ⟨.exp, by decide, rfl⟩
  · exact ⟨.log, by decide, rfl⟩
  · exact ⟨.sqrt, by decide, rfl⟩
  · exact ⟨.abs, by decide, rfl⟩
  · exact ⟨.sign, by decide, rfl⟩
  · exact ⟨.sum, by decide, rfl⟩
  · exact ⟨.zeroLike, by decide, rfl⟩

theorem eq_dot_of_ofName? {callee : String} (h : Builtin.ofName? callee = some .dot) :
    callee = "dot" := by
  unfold Builtin.ofName? at h
  split at h <;> cases h
  rfl

theorem ofName?_of_dot {callee : String} (h : Builtin.ofName? callee = some .dot) :
    Opcode.ofName? callee = some .dot := by
  rw [eq_dot_of_ofName? h]
  decide

theorem eq_circshift_of_ofName? {callee : String} (h : Builtin.ofName? callee = some .circshift) :
    callee = "circshift" := by
  unfold Builtin.ofName? at h
  split at h <;> cases h
  rfl

theorem ofName?_of_circshift {callee : String} (h : Builtin.ofName? callee = some .circshift) :
    Opcode.ofName? callee = some .circshift := by
  rw [eq_circshift_of_ofName? h]
  decide

theorem toInt?_of_shiftOfNumeral {value : Binary64} {span : Span} {n : Int}
    (h : shiftOfNumeral value span = .ok n) : value.toInt? = some n := by
  unfold shiftOfNumeral at h
  split at h
  · next m hm =>
    split at h
    · cases h
      exact hm
    · cases h
  · cases h

/-- A shift that can be recorded is the whole number that is written. -/
theorem shift?_of_shiftOf {e : Expr} {n : Int} (h : shiftOf e = .ok n) : shift? e = some n := by
  unfold shiftOf at h
  split at h
  · exact toInt?_of_shiftOfNumeral h
  · next value span _ =>
    cases hn : shiftOfNumeral value span with
    | error e =>
      rw [hn] at h
      cases h
    | ok m =>
      rw [hn] at h
      cases h
      rw [shift?, toInt?_of_shiftOfNumeral hn]
      rfl
  · cases h
  · cases h

end StagedTangent.Source
