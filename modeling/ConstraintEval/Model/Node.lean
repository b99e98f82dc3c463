import ConstraintEval.Model.Operator
import ConstraintEval.Number.Interval
import ConstraintEval.Source.Key
import ConstraintEval.Source.Span

/-!
# Expressions

An expression is a node that names its operands by key. Names and calls also carry the key of
the declaration that they were resolved to, if any.
-/

namespace ConstraintEval

/-- An array literal: its elements in row-major order and the index range of each dimension. -/
structure ArrayLiteral where
  /-- Arrays that come from the same literal share its elements. -/
  key : LiteralKey
  elements : List ExprKey
  ranges : List Interval
  deriving DecidableEq

/-- The form of an expression. -/
inductive Form where
  | int (value : Integer)
  | bool (value : Bool)
  /-- The set of some integers. -/
  | set (members : List ExprKey)
  /-- The set of the integers between two ends. -/
  | between (lo hi : ExprKey)
  /-- A name, with the variable that it was resolved to. -/
  | name (name : String) (resolved : Option VarKey)
  | array (literal : ArrayLiteral)
  /-- The element of an array under some indices. -/
  | element (source : ExprKey) (indices : List ExprKey)
  /-- A call, with the overload that it was resolved to. -/
  | call (name : String) (resolved : Option FnKey) (args : List ExprKey)
  | binary (op : BinaryOp) (left right : ExprKey)
  | unary (op : UnaryOp) (operand : ExprKey)
  /-- One of two expressions, by whether a condition holds. -/
  | choice (cond yes no : ExprKey)
  deriving DecidableEq

namespace Form

/-- What messages call the form. -/
def description : Form → String
  | .int _ => "integer literal"
  | .bool _ => "boolean literal"
  | .set _ => "set literal"
  | .between .. => "range"
  | .name .. => "identifier"
  | .array _ => "array literal"
  | .element .. => "array access"
  | .call .. => "call"
  | .binary .. => "binary operation"
  | .unary .. => "unary operation"
  | .choice .. => "if-then-else"

/-- The keys of the operands, from left to right. -/
def operands : Form → List ExprKey
  | .int _ | .bool _ | .name .. => []
  | .set members => members
  | .between lo hi => [lo, hi]
  | .array literal => literal.elements
  | .element source indices => source :: indices
  | .call _ _ args => args
  | .binary _ left right => [left, right]
  | .unary _ operand => [operand]
  | .choice cond yes no => [cond, yes, no]

end Form

/-- An expression: its form, its place in the source text, and its type. -/
structure Node where
  form : Form
  span : Span
  ty : Ty
  deriving DecidableEq

/-- The node that stands for a key without an expression: a name that nothing declares. -/
instance : Inhabited Node := ⟨⟨.name "" none, .nowhere, .unknown⟩⟩

end ConstraintEval
