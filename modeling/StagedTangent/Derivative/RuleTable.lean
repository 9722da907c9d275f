import StagedTangent.Derivative.Rule

/-!
# Tables of derivative rules

A table gives the rule of an opcode at an operand position, counted from one. The standard table has
no rule for `abs`, which has no derivative at zero.
-/

namespace StagedTangent

/-- Why a program has no derivative. -/
inductive DerivativeError where
  /-- An operation without a rule at an operand, counted from one, that carries a tangent. -/
  | missingRule (op : Opcode) (position : Nat)
  /-- An argument that the program does not have. -/
  | noArgument (position arity : Nat)
  /-- A program, given or recorded, that is not well formed. -/
  | illFormed (defect : Defect)
deriving DecidableEq, Repr

def DerivativeError.message : DerivativeError → String
  | .missingRule op position => s!"no derivative rule for '{op.name}' at operand {position}"
  | .noArgument position arity =>
    s!"cannot differentiate with respect to argument {position}: program has {arity} arguments"
  | .illFormed defect => "malformed program: " ++ defect.message

/-- Rules by opcode and operand position, each such pair at most once. -/
structure RuleTable where
  entries : List ((Opcode × Nat) × Rule)

namespace RuleTable

def empty : RuleTable := ⟨[]⟩

/-- Whether there is a rule. -/
def has (rules : RuleTable) (op : Opcode) (position : Nat) : Bool :=
  rules.entries.any (fun entry => decide (entry.1 = (op, position)))

/-- Set the rule of a pair, in place of the one it had if it had one. -/
def set (rules : RuleTable) (op : Opcode) (position : Nat) (rule : Rule) : RuleTable :=
  if rules.has op position then
    ⟨rules.entries.map fun entry =>
      if entry.1 = (op, position) then ((op, position), rule) else entry⟩
  else ⟨rules.entries ++ [((op, position), rule)]⟩

/-- The rule of a pair. -/
def get? (rules : RuleTable) (op : Opcode) (position : Nat) : Option Rule :=
  rules.entries.lookup (op, position)

/-- The rule of a pair, or the error that it is missing. -/
def get (rules : RuleTable) (op : Opcode) (position : Nat) : Except DerivativeError Rule :=
  match rules.get? op position with
  | some rule => .ok rule
  | none => .error (.missingRule op position)

def size (rules : RuleTable) : Nat := rules.entries.length

/-- The pairs that have a rule, by opcode and then by position. -/
def keys (rules : RuleTable) : List (Opcode × Nat) :=
  (rules.entries.map (fun entry => entry.1)).mergeSort fun a b =>
    decide (a.1.rank < b.1.rank) || (decide (a.1.rank = b.1.rank) && decide (a.2 ≤ b.2))

/-- The listing of a table: its keys in order. -/
def listing (rules : RuleTable) : String :=
  let keys := rules.keys.map fun key => "(" ++ key.1.label ++ ", " ++ toString key.2 ++ ")"
  "RuleRegistry \x7b rules: [" ++ ", ".intercalate keys ++ "] \x7d"

/-- The rules of every operation that is differentiable wherever it is defined. -/
def standard : RuleTable := ⟨[
  ((.add, 1), Rule.pass),
  ((.add, 2), Rule.pass),
  ((.sub, 1), Rule.pass),
  ((.sub, 2), Rule.opposite),
  ((.mul, 1), Rule.replaceFirst .mul),
  ((.mul, 2), Rule.replaceSecond .mul),
  ((.div, 1), Rule.replaceFirst .div),
  ((.div, 2), Rule.divisor),
  ((.neg, 1), Rule.again),
  ((.sin, 1), Rule.sine),
  ((.cos, 1), Rule.cosine),
  ((.exp, 1), Rule.exponential),
  ((.log, 1), Rule.logarithm),
  ((.sqrt, 1), Rule.squareRoot),
  ((.dot, 1), Rule.replaceFirst .dot),
  ((.dot, 2), Rule.replaceSecond .dot),
  ((.sum, 1), Rule.again),
  ((.index, 1), Rule.again),
  ((.circshift, 1), Rule.again),
  ((.zeroLike, 1), Rule.flat),
  ((.sign, 1), Rule.flat)]⟩

end RuleTable

end StagedTangent
