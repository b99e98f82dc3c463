import ConstraintEval.Eval.LazyArray
import ConstraintEval.Typing.Kind

/-!
# Values

What an expression stands for: an integer, a boolean, a set of integers, or an array.
-/

namespace ConstraintEval

/-- The value of an expression. -/
inductive Value where
  | int (value : Integer)
  | bool (value : Bool)
  | set (value : IntegerSet)
  | array (value : LazyArray)
  deriving DecidableEq

namespace Value

/-- What the value is. -/
def kind : Value → ValueKind
  | .int _ => .int
  | .bool _ => .bool
  | .set _ => .set
  | .array _ => .array

/-- The text of a value. -/
def text : Value → String
  | .int v => toString v
  | .bool b => toString b
  | .set s => s.text
  | .array a => a.text

/-- Whether an open scope keeps the value. -/
def isKept : Value → Bool
  | .set _ | .array _ => true
  | .int _ | .bool _ => false

/-- The failure of asking a value for another kind. -/
def kindFailure (operation : String) (expected : ValueKind) (v : Value) : Failure :=
  .of (.wrongArguments operation expected.text v.kind.text)

/-- The integer that a value is. -/
def asInt : Value → Except Failure Integer
  | .int v => .ok v
  | v => .error (v.kindFailure "integer evaluation" .int)

/-- The boolean that a value is. -/
def asBool : Value → Except Failure Bool
  | .bool b => .ok b
  | v => .error (v.kindFailure "boolean evaluation" .bool)

/-- The set that a value is. -/
def asSet : Value → Except Failure IntegerSet
  | .set s => .ok s
  | v => .error (v.kindFailure "set evaluation" .set)

/-- The array that a value is. -/
def asArray : Value → Except Failure LazyArray
  | .array a => .ok a
  | v => .error (v.kindFailure "array evaluation" .array)

end Value

end ConstraintEval
