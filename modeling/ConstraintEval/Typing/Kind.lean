/-!
# Kinds of values

Evaluation tells values apart by kind only: a model's types are finer, but a value does not
carry one.
-/

namespace ConstraintEval

/-- What a value is. -/
inductive ValueKind where
  | int
  | bool
  | set
  | array
  deriving DecidableEq, Inhabited

/-- What messages call a kind. -/
def ValueKind.text : ValueKind → String
  | .int => "int"
  | .bool => "bool"
  | .set => "set of int"
  | .array => "array"

instance : ToString ValueKind := ⟨ValueKind.text⟩

end ConstraintEval
