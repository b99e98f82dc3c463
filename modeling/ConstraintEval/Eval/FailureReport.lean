import ConstraintEval.Eval.Failure
import ConstraintEval.Report.Diagnostic

/-!
# Failures as diagnostics

Every cause of a failure has a code of its own, a label for the place of the expression that
failed, and, where the author of the model can mend it directly, a suggestion.
-/

namespace ConstraintEval

namespace Cause

/-- The code of a cause. -/
def code : Cause → Code
  | .refusedOperand .. => .refusedOperand
  | .emptyReduction _ => .emptyReduction
  | .wrongArguments .. => .wrongArguments
  | .undeclaredName _ => .undeclaredName
  | .refusedForm .. => .refusedForm
  | .missingDimension .. => .missingDimension
  | .gappedIndexSet .. => .gappedIndexSet
  | .wrongCellCount .. => .wrongCellCount
  | .unknownBounds _ => .unknownBounds
  | .selfDependence _ => .selfDependence
  | .missingValue _ => .missingValue
  | .overflow _ => .overflow
  | .zeroDivisor => .zeroDivisor
  | .indexOutside .. => .indexOutside
  | .excessDepth _ => .excessDepth

/-- What the place of the failed expression is labelled with. -/
def label : Cause → String
  | .refusedOperand .. => "operand not supported here"
  | .emptyReduction _ => "array is empty"
  | .wrongArguments .. => "unexpected argument"
  | .undeclaredName _ => "not declared"
  | .refusedForm .. => "cannot be interpreted here"
  | .missingDimension .. => "dimension out of range"
  | .gappedIndexSet .. => "not a contiguous range"
  | .wrongCellCount .. => "wrong number of elements"
  | .unknownBounds _ => "bounds unknown"
  | .selfDependence _ => "defined in terms of itself"
  | .missingValue _ => "no constant value"
  | .overflow _ => "overflow occurred here"
  | .zeroDivisor => "division by zero here"
  | .indexOutside .. => "index out of bounds"
  | .excessDepth _ => "evaluation nested too deeply"

/-- What the author of the model can do. -/
def suggestion? : Cause → Option String
  | .gappedIndexSet .. => some "use a contiguous range such as `1..n` as the index set"
  | .unknownBounds _ => some "declare the variable with a finite domain, e.g. `var 0..9: x`"
  | .missingValue name => some s!"give `{name}` an initialiser or a data value"
  | .zeroDivisor => some "add a zero check before dividing"
  | _ => none

end Cause

namespace Failure

/-- Report a remark: as a label where it is about a place, as a note otherwise. -/
def reportRemark (d : Diagnostic) (remark : Remark) : Diagnostic :=
  match remark.span with
  | some span => d.labelledAside span remark.message
  | none => d.noted remark.message

/-- Report a trail, unless there is nothing on it. -/
def reportTrail (d : Diagnostic) : Option Trail → Diagnostic
  | none | some [] => d
  | some trail => d.noted ("while resolving:\n" ++ Trail.text trail)

/-- The report of a failure. -/
def report (f : Failure) : Diagnostic :=
  let head := Diagnostic.error f.cause.code f.message
  let labelled := match f.span with
    | some span => head.labelled span f.cause.label
    | none => head
  let noted := reportTrail (f.remarks.foldl reportRemark labelled) f.trail
  match f.cause.suggestion? with
  | some suggestion => noted.suggesting suggestion
  | none => noted

end Failure

end ConstraintEval
