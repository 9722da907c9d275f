import StagedTangent.Evaluation.Apply

/-!
# The errors of operations

On as many operands as it takes, an operation fails only because of the kinds and lengths of these
operands. So a run that fails in an operation has not missed a name, called what is no closure or
been given a wrong number of values.
-/

namespace StagedTangent

variable {α : Type}

/-- The errors of the operations themselves: not those of names, calls and counts. -/
def RunError.OfOperation : RunError → Prop
  | .unequalLengths .. | .pastEnd .. | .wrongKind .. => True
  | .valueCount .. | .notAClosure _ | .unboundName _ => False

namespace Value

theorem mapElements_error {op : Opcode} {f : α → α} {a : Value α} {e : RunError}
    (h : mapElements op f a = .error e) : e.OfOperation := by
  cases a with
  | scalar x => cases h
  | vector xs => cases h
  | closure c =>
    cases h
    trivial

theorem zipElements_error {op : Opcode} {f : α → α → α} {a b : Value α} {e : RunError}
    (h : zipElements op f a b = .error e) : e.OfOperation := by
  cases a with
  | closure c =>
    cases b <;> (cases h; trivial)
  | scalar x =>
    cases b with
    | closure c =>
      cases h
      trivial
    | scalar y => cases h
    | vector ys => cases h
  | vector xs =>
    cases b with
    | closure c =>
      cases h
      trivial
    | scalar y => cases h
    | vector ys =>
      simp only [zipElements] at h
      split at h
      · cases h
      · cases h
        trivial

theorem element_error {place : Nat} {a : Value α} {e : RunError}
    (h : element place a = .error e) : e.OfOperation := by
  cases a with
  | scalar x =>
    cases h
    trivial
  | closure c =>
    cases h
    trivial
  | vector xs =>
    simp only [element] at h
    split at h
    · cases h
    · cases h
      trivial

theorem circshift_error {shift : Int} {a : Value α} {e : RunError}
    (h : circshift shift a = .error e) : e.OfOperation := by
  cases a with
  | scalar x => cases h
  | vector xs => cases h
  | closure c =>
    cases h
    trivial

variable [Scalar α]

theorem dotProduct_error {a b : Value α} {e : RunError} (h : dotProduct a b = .error e) :
    e.OfOperation := by
  cases a with
  | closure c =>
    cases b <;> (cases h; trivial)
  | scalar x =>
    cases b with
    | scalar y => cases h
    | vector ys =>
      cases h
      trivial
    | closure c =>
      cases h
      trivial
  | vector xs =>
    cases b with
    | scalar y =>
      cases h
      trivial
    | closure c =>
      cases h
      trivial
    | vector ys =>
      simp only [dotProduct] at h
      split at h
      · cases h
      · cases h
        trivial

theorem sumElements_error {a : Value α} {e : RunError} (h : sumElements a = .error e) :
    e.OfOperation := by
  cases a with
  | scalar x => cases h
  | vector xs => cases h
  | closure c =>
    cases h
    trivial

/-- On as many operands as it takes, an operation fails only with an error of its own. -/
theorem apply_error {op : Op} {vs : List (Value α)} {e : RunError} (hcount : vs.length = op.arity)
    (h : apply op vs = .error e) : e.OfOperation := by
  match op, vs, hcount with
  | .constant c, [], _ => cases h
  | .add, [a, b], _ | .sub, [a, b], _ | .mul, [a, b], _ | .div, [a, b], _ =>
    exact zipElements_error h
  | .neg, [a], _ | .sin, [a], _ | .cos, [a], _ | .exp, [a], _ | .log, [a], _ | .sqrt, [a], _
  | .abs, [a], _ | .sign, [a], _ | .zeroLike, [a], _ => exact mapElements_error h
  | .dot, [a, b], _ => exact dotProduct_error h
  | .sum, [a], _ => exact sumElements_error h
  | .index place, [a], _ => exact element_error h
  | .circshift shift, [a], _ => exact circshift_error h

end Value

end StagedTangent
