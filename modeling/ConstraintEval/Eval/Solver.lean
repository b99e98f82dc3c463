import ConstraintEval.Eval.Apply

/-!
# What a solver asks

Before it can start, a solver needs a domain for every variable and the index sets of every
array.
-/

namespace ConstraintEval

/-- The index set of every dimension of an array, and how many elements there are. -/
structure Shape where
  indexSets : List IntegerSet
  length : Nat
  deriving DecidableEq

/-- The numbers of elements that can be counted are below this one. -/
def Shape.lengthLimit : Nat := 18446744073709551616

/-- The number of elements that index sets describe, multiplied up from the first dimension
to the last as long as it can be counted. -/
def Shape.countCells (indexSets : List IntegerSet) : Option Nat :=
  indexSets.foldlM (fun n s ↦ do
    let size ← s.size?
    let next := n * size.val.toNat
    if next < lengthLimit then some next else none) 1

namespace Evaluator

variable (ev : Evaluator)

/-- The domain of a variable: the declared one, or else the interval of its bounds. -/
def domainOfVariable (v : VarKey) : EvalM IntegerSet :=
  let declared := ev.model.variableAt v
  match declared.domain with
  | some domain => ev.setOf domain
  | none => do
    let r ← (ev.boundsOfVariable v).orFail
      (pure ((Failure.of (.unknownBounds "domain")).orPlaced declared.span))
    return .range r.lo r.hi

/-- The number of dimensions of a named array that declares an index set for each. -/
def declaredRank? (e : ExprKey) : Option Nat :=
  match ev.model.form e with
  | .name _ (some v) =>
    let indexSets := (ev.model.variableAt v).indexSets
    if !indexSets.isEmpty && indexSets.all Option.isSome then some indexSets.length else none
  | _ => none

/-- The index sets of an array. One that declares them all needs no value. -/
def shapeOf (e : ExprKey) : EvalM Shape :=
  match ev.declaredRank? e with
  | some rank => do
    let sets ← (List.range rank).mapM fun i ↦ ev.indexSet e (i + 1)
    let length ← EvalM.ofOption (.overflow "array shape") (Shape.countCells sets)
    return ⟨sets, length⟩
  | none => do
    let a ← ev.arrayOf e
    return ⟨a.ranges.map fun r ↦ .range r.lo r.hi, a.length⟩

end Evaluator

end ConstraintEval
