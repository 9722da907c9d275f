import StagedTangent.Number.Binary64

/-!
# Operations

A node of a program applies one operation. Static parameters, a constant, an index or a shift,
belong to the operation; only values computed by the program are operands. Derivative rules are
keyed by the operation without its parameters, its opcode.
-/

namespace StagedTangent

/-- An operation without its static parameter. -/
inductive Opcode where
  | constant
  | add
  | sub
  | mul
  | div
  | neg
  | sin
  | cos
  | exp
  | log
  | sqrt
  | abs
  | sign
  | dot
  | sum
  | index
  | circshift
  | zeroLike
deriving DecidableEq, Repr

/-- An operation that a node applies to its operands. -/
inductive Op where
  | constant (value : Binary64)
  | add
  | sub
  | mul
  | div
  | neg
  | sin
  | cos
  | exp
  | log
  | sqrt
  | abs
  | sign
  | dot
  | sum
  /-- The element at a place of a vector, counted from zero. -/
  | index (place : Nat)
  /-- The vector rotated toward its end. -/
  | circshift (shift : Int)
  | zeroLike
deriving DecidableEq, Repr

namespace Opcode

/-- Every opcode, in the order in which rules are listed. -/
def all : List Opcode :=
  [.constant, .add, .sub, .mul, .div, .neg, .sin, .cos, .exp, .log, .sqrt, .abs, .sign, .dot, .sum,
    .index, .circshift, .zeroLike]

/-- The place of an opcode in that order. -/
def rank (c : Opcode) : Nat := all.idxOf c

/-- The name of an operation in programs, code and messages. -/
def name : Opcode → String
  | .constant => "constant"
  | .add => "add"
  | .sub => "sub"
  | .mul => "mul"
  | .div => "div"
  | .neg => "neg"
  | .sin => "sin"
  | .cos => "cos"
  | .exp => "exp"
  | .log => "log"
  | .sqrt => "sqrt"
  | .abs => "abs"
  | .sign => "sign"
  | .dot => "dot"
  | .sum => "sum"
  | .index => "index"
  | .circshift => "circshift"
  | .zeroLike => "zero_like"

/-- The name of an operation in a structural listing. -/
def label : Opcode → String
  | .constant => "Constant"
  | .add => "Add"
  | .sub => "Sub"
  | .mul => "Mul"
  | .div => "Div"
  | .neg => "Neg"
  | .sin => "Sin"
  | .cos => "Cos"
  | .exp => "Exp"
  | .log => "Log"
  | .sqrt => "Sqrt"
  | .abs => "Abs"
  | .sign => "Sign"
  | .dot => "Dot"
  | .sum => "Sum"
  | .index => "Index"
  | .circshift => "CircShift"
  | .zeroLike => "ZeroLike"

/-- The opcode of a name. -/
def ofName? (s : String) : Option Opcode := all.find? (fun c => decide (c.name = s))

end Opcode

namespace Op

/-- The operation without its static parameter. -/
def opcode : Op → Opcode
  | .constant _ => .constant
  | .add => .add
  | .sub => .sub
  | .mul => .mul
  | .div => .div
  | .neg => .neg
  | .sin => .sin
  | .cos => .cos
  | .exp => .exp
  | .log => .log
  | .sqrt => .sqrt
  | .abs => .abs
  | .sign => .sign
  | .dot => .dot
  | .sum => .sum
  | .index _ => .index
  | .circshift _ => .circshift
  | .zeroLike => .zeroLike

/-- How many operands an operation takes. -/
def arity : Op → Nat
  | .constant _ => 0
  | .add | .sub | .mul | .div | .dot => 2
  | .neg | .sin | .cos | .exp | .log | .sqrt | .abs | .sign | .sum | .index _ | .circshift _
  | .zeroLike => 1

end Op

/-- The arithmetic operations that are written between their two operands. -/
inductive Operator where
  | add
  | sub
  | mul
  | div
deriving DecidableEq, Repr

namespace Operator

/-- The operation that an operator stands for. -/
def op : Operator → Op
  | .add => .add
  | .sub => .sub
  | .mul => .mul
  | .div => .div

/-- The character that an operator is written with. -/
def symbol : Operator → Char
  | .add => '+'
  | .sub => '-'
  | .mul => '*'
  | .div => '/'

theorem arity_op (o : Operator) : o.op.arity = 2 := by
  cases o <;> rfl

end Operator

end StagedTangent
