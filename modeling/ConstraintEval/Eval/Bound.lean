import ConstraintEval.Eval.Evaluator

/-!
# Rules of bound analysis

How to find bounds of an integer expression, given an evaluator for what it is made of. A
known integer is evaluated exactly where that is possible. Elsewhere an operation's bounds
are worked out from its operands' bounds, a variable lies in its domain or within the bounds
of its definition, and an element lies within the hull of all elements. Failures on the way
mean that no bounds are found.
-/

namespace ConstraintEval

/-- Bounds of arithmetic on bounded operands. -/
def ArithOp.bounds? : ArithOp → Interval → Interval → Option Interval
  | .add => Interval.add?
  | .sub => Interval.sub?
  | .mul => Interval.mul?
  | .div => Interval.div?
  | .mod => Interval.rem?

namespace Evaluator

variable (ev : Evaluator)

/-- The hull of a set that can be evaluated. -/
def boundsOfSet (set : ExprKey) : BoundM Interval := do
  let s ← (ev.setOf set).bounds
  BoundM.ofOption s.hull?

/-- The hull of an optional set, if there is one and it can be evaluated. -/
def boundsOfDomain : Option ExprKey → BoundM Interval
  | some domain => ev.boundsOfSet domain
  | none => failure

/-- Bounds of a variable that a name at some place leads to: its domain or else its
definition's bounds. The enclosing scope ends the visit. -/
def boundsOfEntered (v : VarKey) (span : Span) : BoundM Interval := do
  (ev.enter v span).bounds
  let declared := ev.model.variableAt v
  ev.boundsOfDomain declared.domain <|>
    match declared.definition with
    | some definition => ev.bounds definition
    | none => failure

/-- Bounds of every element of an array that can be evaluated. -/
def boundsOfElements (array : ExprKey) : BoundM (List Interval) := do
  let a ← (ev.arrayOf array).bounds
  a.elements.mapM ev.bounds

/-- The domain that is declared for the elements of a named array. -/
def namedDomain (array : ExprKey) : Option ExprKey :=
  match ev.model.form array with
  | .name _ (some v) => (ev.model.variableAt v).domain
  | _ => none

/-- Bounds of any element of an array. -/
def hullOfElements (array : ExprKey) : BoundM Interval :=
  ev.boundsOfDomain (ev.namedDomain array) <|> do
    BoundM.ofOption (Interval.reduce? Interval.hull (← ev.boundsOfElements array))

/-- Bounds of a call of a builtin, where its name has a rule. -/
def boundsOfCall (name : String) (args : List ExprKey) : BoundM Interval :=
  match name, args with
  | "bool2int", _ => pure ⟨.zero, .one⟩
  | "min", [a, b] => return Interval.minOf (← ev.bounds a) (← ev.bounds b)
  | "max", [a, b] => return Interval.maxOf (← ev.bounds a) (← ev.bounds b)
  | "min", [array] => do
    BoundM.ofOption (Interval.reduce? Interval.minOf (← ev.boundsOfElements array))
  | "max", [array] => do
    BoundM.ofOption (Interval.reduce? Interval.maxOf (← ev.boundsOfElements array))
  | "lb", [a] => return .point (← ev.bounds a).lo
  | "ub", [a] => return .point (← ev.bounds a).hi
  | "sum", [array] => do
    let parts ← ev.boundsOfElements array
    BoundM.ofOption (parts.foldlM Interval.add? (.point .zero))
  | _, _ => failure

/-- Bounds of an expression from the bounds of what it is made of. -/
def boundsByForm (e : ExprKey) : BoundM Interval :=
  match ev.model.form e with
  | .name _ (some v) => ev.boundsOfEntered v (ev.model.span e)
  | .binary (.arith op) left right => do
    let a ← ev.bounds left
    let b ← ev.bounds right
    BoundM.ofOption (op.bounds? a b)
  | .unary .neg operand => do
    let a ← ev.bounds operand
    BoundM.ofOption a.neg?
  | .choice _ yes no => return Interval.hull (← ev.bounds yes) (← ev.bounds no)
  | .element array _ => ev.hullOfElements array
  | .call name (some f) args =>
    -- A function of the model that shares its name with a builtin has no rule.
    if ev.registry.binds f then ev.boundsOfCall name args else failure
  | _ => failure

/-- The value of a known integer as bounds. -/
def boundsOfKnown (e : ExprKey) : BoundM Interval := do
  let ty := ev.model.ty e
  if ty.isScalarInt && !ty.isDecided then
    return .point (← (ev.intOf e).bounds)
  else
    failure

/-- Bounds of an expression. -/
def boundsStep (e : ExprKey) : BoundM Interval := BoundM.inScope <|
  match ev.model.form e with
  | .int v => pure (.point v)
  | _ => ev.boundsOfKnown e <|> ev.boundsByForm e

/-- Bounds of a variable. -/
def boundsOfVariable (v : VarKey) : BoundM Interval :=
  BoundM.inScope (ev.boundsOfEntered v (ev.model.variableAt v).span)

end Evaluator

end ConstraintEval
