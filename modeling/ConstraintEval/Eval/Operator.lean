import ConstraintEval.Eval.Value

/-!
# Applying operators

What an operator gives for operands that have been evaluated. Each operator takes operands
of certain kinds; arithmetic is exact or fails.
-/

namespace ConstraintEval

/-- The integer that arithmetic gives, unless it leaves the range of values. -/
def orOverflow (operation : String) : Option Integer → Except Failure Value
  | some v => .ok (.int v)
  | none => .error (.of (.overflow operation))

/-- The operands that an operator takes, in words. -/
def BinaryOp.expects : BinaryOp → String
  | .logic _ => "bool operands"
  | .set _ => "set operands"
  | .mem => "int and set operands"
  | .compare .eq | .compare .ne => "operands of one kind"
  | .compare _ | .arith _ => "int operands"

/-- The failure of giving an operator operands that it does not take. -/
def BinaryOp.kindFailure (op : BinaryOp) (left right : Value) : Failure :=
  .of (.wrongArguments op.symbol op.expects s!"{left.kind} and {right.kind}")

/-- Arithmetic on two integers. -/
def ArithOp.apply (op : ArithOp) (a b : Integer) : Except Failure Value :=
  let symbol := (BinaryOp.arith op).symbol
  match op with
  | .add => orOverflow symbol (a.add? b)
  | .sub => orOverflow symbol (a.sub? b)
  | .mul => orOverflow symbol (a.mul? b)
  | .div => if b.isZero then .error (.of .zeroDivisor) else orOverflow symbol (a.div? b)
  | .mod => if b.isZero then .error (.of .zeroDivisor) else orOverflow symbol (a.rem? b)

/-- Whether two integers compare as the operator says. -/
def CompareOp.holds (op : CompareOp) (a b : Integer) : Bool :=
  match op with
  | .eq => a = b
  | .ne => a ≠ b
  | .lt => a < b
  | .le => a ≤ b
  | .gt => b < a
  | .ge => b ≤ a

/-- Whether two values of one kind are equal, where an operator asks just that. -/
def CompareOp.equality? {α : Type} [DecidableEq α] (a b : α) : CompareOp → Option Bool
  | .eq => some (a = b)
  | .ne => some (a ≠ b)
  | .lt | .le | .gt | .ge => none

/-- An operation on two sets. -/
def SetOp.apply : SetOp → IntegerSet → IntegerSet → IntegerSet
  | .union => IntegerSet.union
  | .inter => IntegerSet.inter
  | .diff => IntegerSet.diff

/-- What the left operand decides alone. -/
def BinaryOp.decided? : BinaryOp → Value → Option Value
  | .logic .and, .bool false => some (.bool false)
  | .logic .or, .bool true => some (.bool true)
  | _, _ => none

/-- What an operator gives for two operands, the first of which does not decide it alone. -/
def BinaryOp.apply (op : BinaryOp) (left right : Value) : Except Failure Value :=
  let refuse := .error (op.kindFailure left right)
  match op, left, right with
  | .arith op, .int a, .int b => op.apply a b
  | .compare op, .int a, .int b => .ok (.bool (op.holds a b))
  | .compare op, .bool a, .bool b => ((op.equality? a b).map fun r ↦ .ok (.bool r)).getD refuse
  | .compare op, .set a, .set b => ((op.equality? a b).map fun r ↦ .ok (.bool r)).getD refuse
  | .logic _, .bool _, .bool b => .ok (.bool b)
  | .set op, .set a, .set b => .ok (.set (op.apply a b))
  | .mem, .int v, .set s => .ok (.bool (s.contains v))
  | _, _, _ => refuse

/-- What an operator gives for its operand. -/
def UnaryOp.apply (op : UnaryOp) (operand : Value) : Except Failure Value :=
  match op, operand with
  | .neg, .int v => orOverflow "negation" v.neg?
  | .not, .bool b => .ok (.bool !b)
  | .neg, v => .error (.of (.wrongArguments op.symbol "int" v.kind.text))
  | .not, v => .error (.of (.wrongArguments op.symbol "bool" v.kind.text))

end ConstraintEval
