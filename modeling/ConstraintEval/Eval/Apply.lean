import ConstraintEval.Eval.Bound
import ConstraintEval.Eval.Domain

/-!
# Applying builtins

What each builtin of the standard library computes from its argument expressions. Arrays are
read element by element, from the first to the last, and no further than the result needs.
-/

namespace ConstraintEval

/-- The only argument of a call. -/
def soleArg (name : String) : List ExprKey → EvalM ExprKey
  | [a] => pure a
  | args => EvalM.fail (.wrongCount name 1 args.length)

/-- The one of some integers that lies furthest to one side. -/
def Side.furthest (side : Side) (operation : String) : List Integer → EvalM Integer
  | [] => EvalM.fail (.emptyReduction operation)
  | v :: vs => return vs.foldl side.pick v

namespace Evaluator

variable (ev : Evaluator)

/-- The least or greatest of two integers, or of the elements of an array. -/
def extremum (side : Side) : List ExprKey → EvalM Integer
  | [arg] => do
    if (ev.model.ty arg).isSet then
      EvalM.fail (.refusedOperand side.extremumName "sets")
    else
      let a ← ev.arrayOf arg
      side.furthest side.extremumName (← a.elements.mapM ev.intOf)
  | [left, right] => return side.pick (← ev.intOf left) (← ev.intOf right)
  | args =>
    EvalM.fail
      (.wrongArguments side.extremumName "1 or 2 arguments" s!"{args.length} arguments")

/-- The least or greatest member of a set. -/
def extremumOfSet (side : Side) (args : List ExprKey) : EvalM Integer := do
  let s ← ev.setOf (← soleArg side.extremumName args)
  EvalM.ofOption (.emptyReduction side.extremumName) (side.memberOf? s)

/-- The sum of the elements of an array. -/
def sum (args : List ExprKey) : EvalM Integer := do
  let a ← ev.arrayOf (← soleArg "sum" args)
  a.elements.foldlM (fun total x ↦ do
    EvalM.ofOption (.overflow "sum") (total.add? (← ev.intOf x))) .zero

/-- The number of elements of an array. -/
def length (args : List ExprKey) : EvalM Integer := do
  let a ← ev.arrayOf (← soleArg "length" args)
  EvalM.ofOption (.overflow "length") (Integer.ofNat? a.length)

/-- 1 for true and 0 for false. -/
def boolToInt (args : List ExprKey) : EvalM Integer := do
  return if ← ev.boolOf (← soleArg "bool2int" args) then .one else .zero

/-- Whether all elements of an array are true. -/
def allOf (args : List ExprKey) : EvalM Bool := do
  let a ← ev.arrayOf (← soleArg "forall" args)
  a.elements.allM ev.boolOf

/-- Whether some element of an array is true. -/
def anyOf (args : List ExprKey) : EvalM Bool := do
  let a ← ev.arrayOf (← soleArg "exists" args)
  a.elements.anyM ev.boolOf

/-- The bounds of an expression, which an operation cannot do without. -/
def requiredBounds (operation : String) (e : ExprKey) : EvalM Interval :=
  (ev.bounds e).orFail (ev.failureAt e (.unknownBounds operation))

/-- A bound of an integer. -/
def bound (side : Side) (args : List ExprKey) : EvalM Integer := do
  return side.endOf (← ev.requiredBounds side.boundName (← soleArg side.boundName args))

/-- A bound of all elements of an array. -/
def boundOfElements (side : Side) (args : List ExprKey) : EvalM Integer := do
  let name := side.arrayBoundName
  let a ← ev.arrayOf (← soleArg name args)
  side.furthest name (← a.elements.mapM fun x ↦ return side.endOf (← ev.requiredBounds name x))

/-- Whether bounds of an integer can be found. -/
def isBounded (e : ExprKey) : EvalM Bool := (ev.bounds e).succeeds

/-- The interval that an index set is. -/
def indexRange (operation : String) (set : ExprKey) : EvalM Interval := do
  let s ← ev.setOf set
  match s.interval? with
  | some r => return r
  | none => ev.failAt set (.gappedIndexSet operation s)

/-- The elements of an array under index sets for some number of dimensions. -/
def rearrange (dimensions : Nat) (args : List ExprKey) : EvalM LazyArray :=
  let name := Library.rearrangeName dimensions
  match args.splitAt dimensions with
  | (sets, [flat]) => do
    let a ← ev.arrayOf flat
    let ranges ← sets.mapM (ev.indexRange name)
    match a.rearrange? ranges with
    | some rearranged => return rearranged
    | none => ev.failAt flat (LazyArray.wrongCellCount ranges a.length)
  | _ => EvalM.fail (.wrongCount name (dimensions + 1) args.length)

/-- What a builtin computes from its arguments. -/
def apply (args : List ExprKey) : Builtin → EvalM Value
  | .extremum side => Value.int <$> ev.extremum side args
  | .extremumOfSet side => Value.int <$> ev.extremumOfSet side args
  | .sum => Value.int <$> ev.sum args
  | .length => Value.int <$> ev.length args
  | .boolToInt => Value.int <$> ev.boolToInt args
  | .allOf => Value.bool <$> ev.allOf args
  | .anyOf => Value.bool <$> ev.anyOf args
  | .cardinality => do return .int (← ev.cardinality (← soleArg "card" args))
  | .isBounded => do return .bool (← ev.isBounded (← soleArg "has_bounds" args))
  | .bound side => Value.int <$> ev.bound side args
  | .boundOfElements side => Value.int <$> ev.boundOfElements side args
  | .upperSet => do return .set (← ev.upperSet (← soleArg "ub" args))
  | .domain => do return .set (← ev.domainOf (← soleArg "dom" args))
  | .domainOfElements => do return .set (← ev.domainOfElements (← soleArg "dom_array" args))
  | .indexSet k => do return .set (← ev.indexSet (← soleArg "index_set" args) k)
  | .rearrange n => Value.array <$> ev.rearrange n args

end Evaluator

end ConstraintEval
