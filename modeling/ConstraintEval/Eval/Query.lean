import ConstraintEval.Eval.Solver
import ConstraintEval.Eval.Step

/-!
# Queries

The questions that can be put to the evaluator of a model, one after another, and their
answers. A scope can be opened around some of them.
-/

namespace ConstraintEval

/-- A question to an evaluator. -/
inductive Query where
  /-- The value of an expression. -/
  | value (e : ExprKey)
  /-- The integer that an expression stands for. -/
  | int (e : ExprKey)
  /-- The boolean that an expression stands for. -/
  | bool (e : ExprKey)
  /-- The set that an expression stands for. -/
  | set (e : ExprKey)
  /-- The array that an expression stands for. -/
  | array (e : ExprKey)
  /-- The values of an array's elements, each on its own. -/
  | elements (e : ExprKey)
  /-- Bounds of an integer expression. -/
  | bounds (e : ExprKey)
  /-- Whether an integer expression has bounds. -/
  | isBounded (e : ExprKey)
  /-- Bounds of a variable. -/
  | boundsOfVariable (v : VarKey)
  /-- The domain of a variable. -/
  | domainOfVariable (v : VarKey)
  /-- The domain of an integer expression. -/
  | domain (e : ExprKey)
  /-- The union of the domains of an array's elements. -/
  | domainOfElements (e : ExprKey)
  /-- The number of members of a set. -/
  | cardinality (e : ExprKey)
  /-- The set that a set variable's value lies in. -/
  | upperSet (e : ExprKey)
  /-- The index set of a dimension of an array. -/
  | indexSet (e : ExprKey) (dimension : Nat)
  /-- All index sets of an array. -/
  | shape (e : ExprKey)
  /-- The row-major place of the element with given indices. -/
  | place (e : ExprKey) (indices : List Integer)
  /-- Whether two arrays share their elements, and whether they are the same. -/
  | sharing (a b : ExprKey)
  /-- Some questions in a scope of their own. -/
  | inScope (qs : List Query)
  /-- How many declarations are pending and how many values are kept. -/
  | state

/-- The answer to a query. -/
inductive Answer where
  | value (v : Value)
  | int (v : Integer)
  | bool (b : Bool)
  | isBounded (b : Bool)
  | set (s : IntegerSet)
  | array (a : LazyArray)
  | elements (outcomes : List (Except Failure Value))
  | bounds (r : Option Interval)
  | shape (s : Shape)
  | place (p : Nat)
  | sharing (shares same : Bool)
  | inScope (as : List Answer)
  | state (pending kept : Nat)
  /-- There is no answer, for a reason. -/
  | failed (f : Failure)

namespace Evaluator

variable (ev : Evaluator)

/-- The values of an array's elements, each on its own: an element without a value leaves the
others theirs. -/
def outcomesOfElements (e : ExprKey) : EvalM (List (Except Failure Value)) := do
  let a ← ev.arrayOf e
  a.elements.mapM fun x ↦ (ev.eval x).outcome

/-- The row-major place of the element of an array with given indices. -/
def placeOf (e : ExprKey) (indices : List Integer) : EvalM Nat := do
  let a ← ev.arrayOf e
  EvalM.ofExcept (a.place indices)

/-- Whether two arrays share their elements, and whether they are the same. -/
def sharing (a b : ExprKey) : EvalM (Bool × Bool) := do
  let x ← ev.arrayOf a
  let y ← ev.arrayOf b
  return (x.sharesWith y, x.same y)

/-- Answer with the result of an evaluation, or with its failure. -/
def reply {α : Type} (answer : α → Answer) (x : EvalM α) : StepM Answer := do
  match ← x.run with
  | .ok a => return answer a
  | .error f => return .failed f

mutual

/-- Answer a query. -/
def answer : Query → StepM Answer
  | .value e => reply .value (ev.eval e)
  | .int e => reply .int (ev.intOf e)
  | .bool e => reply .bool (ev.boolOf e)
  | .set e => reply .set (ev.setOf e)
  | .array e => reply .array (ev.arrayOf e)
  | .elements e => reply .elements (ev.outcomesOfElements e)
  | .bounds e => Answer.bounds <$> (ev.bounds e).run
  | .isBounded e => reply .isBounded (ev.isBounded e)
  | .boundsOfVariable v => Answer.bounds <$> (ev.boundsOfVariable v).run
  | .domainOfVariable v => reply .set (ev.domainOfVariable v)
  | .domain e => reply .set (ev.domainOf e)
  | .domainOfElements e => reply .set (ev.domainOfElements e)
  | .cardinality e => reply .int (ev.cardinality e)
  | .upperSet e => reply .set (ev.upperSet e)
  | .indexSet e k => reply .set (ev.indexSet e k)
  | .shape e => reply .shape (ev.shapeOf e)
  | .place e indices => reply .place (ev.placeOf e indices)
  | .sharing a b => reply (fun (shares, same) ↦ .sharing shares same) (ev.sharing a b)
  | .inScope qs => Answer.inScope <$> StepM.inScope (answerAll qs)
  | .state => do
    let s ← get
    return .state s.pending.size s.kept.length

/-- Answer queries one after another. -/
def answerAll : List Query → StepM (List Answer)
  | [] => return []
  | q :: qs => do
    let a ← answer q
    let as ← answerAll qs
    return a :: as

end

end Evaluator

/-- Put queries to a fresh evaluator of a model, with a limit on nested declarations. There
are no answers if one of them does not come to an end. -/
def Context.ask (ctx : Context) (limit : Option Nat) (qs : List Query) : Option (List Answer) :=
  (·.1) <$> (ctx.evaluator.answerAll qs).run (.fresh limit)

end ConstraintEval
