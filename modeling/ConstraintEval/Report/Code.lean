/-!
# Codes of diagnostics

Each kind of problem has a code under which it can be looked up: `E4…` for problems of a
model that evaluation finds, `E9…` for faults of the evaluator itself.
-/

namespace ConstraintEval

/-- A kind of problem. -/
inductive Code where
  /-- A builtin does not take an operand of this kind. -/
  | refusedOperand
  /-- A reduction has nothing to reduce. -/
  | emptyReduction
  /-- Arguments are of the wrong number or kind. -/
  | wrongArguments
  /-- Nothing declares a name. -/
  | undeclaredName
  /-- An expression of this form cannot be interpreted. -/
  | refusedForm
  /-- An array does not have a dimension. -/
  | missingDimension
  /-- An index set is not one interval. -/
  | gappedIndexSet
  /-- Index sets do not describe as many elements as there are. -/
  | wrongCellCount
  /-- Bounds cannot be found. -/
  | unknownBounds
  /-- A declaration needs its own value. -/
  | selfDependence
  /-- A declaration has no value. -/
  | missingValue
  /-- A result is outside the range of integers. -/
  | overflow
  /-- A divisor is 0. -/
  | zeroDivisor
  /-- An index is outside its range. -/
  | indexOutside
  /-- Declarations are nested too deeply. -/
  | excessDepth
  /-- Builtins and declarations do not agree. -/
  | disagreement
  deriving DecidableEq

namespace Code

/-- Every code, in the order of their texts. -/
def all : List Code :=
  [.refusedOperand, .emptyReduction, .wrongArguments, .undeclaredName, .refusedForm,
    .missingDimension, .gappedIndexSet, .wrongCellCount, .unknownBounds, .selfDependence,
    .missingValue, .overflow, .zeroDivisor, .indexOutside, .excessDepth, .disagreement]

/-- The text of a code. -/
def text : Code → String
  | .refusedOperand => "E4001"
  | .emptyReduction => "E4002"
  | .wrongArguments => "E4003"
  | .undeclaredName => "E4004"
  | .refusedForm => "E4005"
  | .missingDimension => "E4006"
  | .gappedIndexSet => "E4007"
  | .wrongCellCount => "E4008"
  | .unknownBounds => "E4009"
  | .selfDependence => "E4010"
  | .missingValue => "E4011"
  | .overflow => "E4012"
  | .zeroDivisor => "E4013"
  | .indexOutside => "E4014"
  | .excessDepth => "E4015"
  | .disagreement => "E9001"

/-- The code with a text. -/
def ofText? (text : String) : Option Code := all.find? (·.text == text)

/-- Whether the code is for a fault of the evaluator itself. -/
def isInternal (c : Code) : Bool := c == .disagreement

/-- Whether the code is for a problem of a model. -/
def isEvaluation (c : Code) : Bool := !c.isInternal

instance : ToString Code := ⟨text⟩

/-- Reading the text of a code gives the code back. -/
theorem ofText?_text (c : Code) : ofText? c.text = some c := by
  cases c <;> decide

end Code

end ConstraintEval
