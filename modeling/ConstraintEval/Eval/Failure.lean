import ConstraintEval.Number.IntegerSet
import ConstraintEval.Source.Span

/-!
# Failed evaluations

A failure is a cause, the place of the expression that failed, the trail of declarations that
led there, and remarks. The wording of every message is in `Cause.message`.
-/

namespace ConstraintEval

/-- Why an expression has no value. -/
inductive Cause where
  /-- A builtin does not take an operand of this kind. -/
  | refusedOperand (builtin operand : String)
  /-- A reduction needs at least one element. -/
  | emptyReduction (operation : String)
  /-- An operation was given arguments of the wrong number or kind. -/
  | wrongArguments (operation expected found : String)
  /-- Nothing declares the name. -/
  | undeclaredName (name : String)
  /-- An operation cannot interpret an expression of this form. -/
  | refusedForm (operation form : String)
  /-- The array has fewer dimensions. -/
  | missingDimension (operation : String) (dimension rank : Nat)
  /-- An index set is not an interval. -/
  | gappedIndexSet (operation : String) (set : IntegerSet)
  /-- Index sets describe another number of elements than there are. That number is missing
  where it is not in the range of values. -/
  | wrongCellCount (expected : Option Integer) (found : Nat)
  /-- No bounds can be found. -/
  | unknownBounds (operation : String)
  /-- A declaration needs its own value. -/
  | selfDependence (name : String)
  /-- A declaration has no value. -/
  | missingValue (name : String)
  /-- The exact result is outside the range of values. -/
  | overflow (operation : String)
  /-- A divisor is 0. -/
  | zeroDivisor
  /-- An index is outside the index range of its dimension, which is counted from 1. -/
  | indexOutside (index : Integer) (dimension : Nat) (range : Interval)
  /-- As many declarations as allowed are nested already. -/
  | excessDepth (limit : Nat)
  deriving DecidableEq

namespace Cause

/-- How many arguments there are, in words. -/
def countText (n : Nat) : String := if n = 1 then s!"{n} argument" else s!"{n} arguments"

/-- The wrong number of arguments. -/
def wrongCount (operation : String) (expected found : Nat) : Cause :=
  .wrongArguments operation (countText expected) (countText found)

/-- The number of elements that index sets describe, in words. -/
def cellCountText : Option Integer → String
  | some n => toString n
  | none => "more than 2^63"

/-- What is wrong, in words. -/
def message : Cause → String
  | .refusedOperand builtin operand => s!"{builtin}: {operand} not supported"
  | .emptyReduction operation => s!"{operation} on empty array undefined"
  | .wrongArguments operation expected found =>
    s!"`{operation}` expects {expected}, found {found}"
  | .undeclaredName name => s!"undefined identifier `{name}`"
  | .refusedForm operation form => s!"invalid argument to {operation}: {form}"
  | .missingDimension operation dimension rank =>
    s!"{operation}: wrong dimension {dimension} (array has {rank})"
  | .gappedIndexSet operation set => s!"{operation} only defined for ranges, found {set}"
  | .wrongCellCount expected found =>
    "mismatch in array dimensions: index sets describe " ++ cellCountText expected ++
      s!" elements, array has {found}"
  | .unknownBounds operation => s!"{operation}: cannot determine bounds"
  | .selfDependence name => s!"cyclic definition of `{name}`"
  | .missingValue name => s!"`{name}` has no initialiser and no constant value"
  | .overflow operation => s!"integer overflow in {operation}"
  | .zeroDivisor => "division by zero"
  | .indexOutside index dimension range =>
    s!"index {index} out of bounds {range.lo}..{range.hi} in dimension {dimension}"
  | .excessDepth limit => s!"maximum evaluation depth exceeded (limit: {limit})"

end Cause

/-- Something else to be said about a failure, with the place that it is about, if any. -/
structure Remark where
  message : String
  span : Option Span
  deriving DecidableEq

/-- A declaration on the way to a failure, with the place that referred to it. -/
structure TrailStep where
  name : String
  span : Option Span
  deriving DecidableEq

/-- The declarations on the way to a failure, the innermost first. -/
abbrev Trail := List TrailStep

/-- One numbered line of a trail. -/
def TrailStep.line (step : TrailStep) (i : Nat) : String :=
  s!"  {i}: {step.name}" ++ (match step.span with
    | some span => s!" at {span}"
    | none => "") ++ "\n"

/-- A trail as numbered lines. -/
def Trail.text (trail : Trail) : String :=
  String.join (trail.zipIdx.map fun (step, i) ↦ step.line i)

/-- A failed evaluation. -/
structure Failure where
  cause : Cause
  /-- The place of the expression that failed. -/
  span : Option Span
  trail : Option Trail
  remarks : List Remark
  deriving DecidableEq

namespace Failure

/-- A failure of which the cause alone is known. -/
def of (cause : Cause) : Failure := ⟨cause, none, none, []⟩

/-- The message of the cause. -/
def message (f : Failure) : String := f.cause.message

/-- Set the place. -/
def placed (f : Failure) (span : Span) : Failure := { f with span := some span }

/-- Set the place, unless one is known: failures pass outward through enclosing expressions,
and the innermost place is the most precise one. -/
def orPlaced (f : Failure) (span : Span) : Failure := { f with span := f.span.or (some span) }

/-- Set the trail. -/
def trailing (f : Failure) (trail : Trail) : Failure := { f with trail := some trail }

/-- Add a remark. -/
def remarked (f : Failure) (remark : Remark) : Failure :=
  { f with remarks := f.remarks ++ [remark] }

end Failure

end ConstraintEval
