import ConstraintEval.Typing.Ty

/-!
# Operators

The operators of expressions, sorted by the kinds of values that they take and give.
-/

namespace ConstraintEval

/-- Operators from two integers to an integer. -/
inductive ArithOp where
  | add
  | sub
  | mul
  | div
  | mod
  deriving DecidableEq

/-- Operators that compare two values. -/
inductive CompareOp where
  | eq
  | ne
  | lt
  | le
  | gt
  | ge
  deriving DecidableEq

/-- Operators from two booleans to a boolean, which the left operand may decide. -/
inductive LogicOp where
  | and
  | or
  deriving DecidableEq

/-- Operators from two sets to a set. -/
inductive SetOp where
  | union
  | inter
  | diff
  deriving DecidableEq

/-- Operators with two operands. -/
inductive BinaryOp where
  | arith (op : ArithOp)
  | compare (op : CompareOp)
  | logic (op : LogicOp)
  | set (op : SetOp)
  /-- Membership of an integer in a set. -/
  | mem
  deriving DecidableEq

/-- Operators with one operand. -/
inductive UnaryOp where
  | neg
  | not
  deriving DecidableEq

namespace BinaryOp

/-- How a model writes the operator. -/
def symbol : BinaryOp → String
  | .arith .add => "+"
  | .arith .sub => "-"
  | .arith .mul => "*"
  | .arith .div => "div"
  | .arith .mod => "mod"
  | .compare .eq => "="
  | .compare .ne => "!="
  | .compare .lt => "<"
  | .compare .le => "<="
  | .compare .gt => ">"
  | .compare .ge => ">="
  | .logic .and => "/\\"
  | .logic .or => "\\/"
  | .set .union => "union"
  | .set .inter => "intersect"
  | .set .diff => "diff"
  | .mem => "in"

/-- Every operator with two operands. -/
def all : List BinaryOp :=
  [ArithOp.add, .sub, .mul, .div, .mod].map .arith ++
    [CompareOp.eq, .ne, .lt, .le, .gt, .ge].map .compare ++
    [LogicOp.and, .or].map .logic ++ [SetOp.union, .inter, .diff].map .set ++ [.mem]

/-- The operator that a symbol writes. -/
def ofSymbol? (symbol : String) : Option BinaryOp := all.find? (·.symbol == symbol)

/-- Whether the operator gives an integer from integers. -/
def givesInt : BinaryOp → Bool
  | .arith _ => true
  | _ => false

/-- Whether the operator gives a set from sets. -/
def givesSet : BinaryOp → Bool
  | .set _ => true
  | _ => false

/-- The type of the result, by who decides it. -/
def resultTy (op : BinaryOp) (mode : Mode) : Ty :=
  match op with
  | .arith _ => .int mode
  | .set _ => .intSet mode
  | .compare _ | .logic _ | .mem => .bool mode

/-- Reading the symbol of an operator gives the operator back. -/
theorem ofSymbol?_symbol (op : BinaryOp) : ofSymbol? op.symbol = some op := by
  cases op with
  | arith op => cases op <;> decide
  | compare op => cases op <;> decide
  | logic op => cases op <;> decide
  | set op => cases op <;> decide
  | mem => decide

end BinaryOp

/-- How a model writes the operator. -/
def UnaryOp.symbol : UnaryOp → String
  | .neg => "-"
  | .not => "not"

end ConstraintEval
