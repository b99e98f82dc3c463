import ConstraintEval.Eval.State
import ConstraintEval.Library.Registry

/-!
# Evaluators

An evaluator reads one model and one registry, and knows how to evaluate expressions and how
to find their bounds. The rules of evaluation, in the modules after this one, say how to
evaluate an expression given an evaluator for what it is made of; tying the two together
gives the evaluator of a model.

This module holds what the rules share: placing failures, visiting declarations, and
following chains of names.
-/

namespace ConstraintEval

/-- What evaluation reads and never changes. -/
structure Context where
  model : Model
  registry : Registry

/-- A way to evaluate the expressions of a model. -/
structure Evaluator extends Context where
  /-- The value of an expression. -/
  eval : ExprKey → EvalM Value
  /-- Bounds of an integer expression. -/
  bounds : ExprKey → BoundM Interval

/-- Where a chain of names ends. -/
inductive ChainEnd where
  /-- At an expression that is not a name. -/
  | expression (e : ExprKey)
  /-- At a variable without a definition. -/
  | undefined (v : VarKey)
  deriving DecidableEq

namespace Context

variable (ctx : Context)

/-- Place a failure at an expression, unless it has a place or the expression has none, and
give it the trail of pending declarations. -/
def locate (e : ExprKey) (f : Failure) (s : EvalState) : Failure :=
  let span := ctx.model.span e
  s.pending.addTrail (if span.isNowhere then f else f.orPlaced span)

/-- The failure of an expression, for a cause. -/
def failureAt (e : ExprKey) (cause : Cause) : StepM Failure :=
  return ctx.locate e (.of cause) (← get)

/-- Fail at an expression. -/
def failAt {α : Type} (e : ExprKey) (cause : Cause) : EvalM α := do
  throw (← ctx.failureAt e cause)

/-- Place the failures of a step at an expression. -/
def locating {α : Type} (e : ExprKey) (x : EvalM α) : EvalM α :=
  tryCatch x fun f ↦ do throw (ctx.locate e f (← get))

/-- The visit to a variable that a name at some place leads to. -/
def visitTo (v : VarKey) (span : Span) : Visit := ⟨v, (ctx.model.variableAt v).name, span⟩

/-- Begin a visit that counts against the depth limit. The enclosing scope ends it. -/
def enter (v : VarKey) (span : Span) : EvalM Unit := do
  let s ← get
  let pending ← EvalM.ofExcept (s.pending.enterNested (ctx.visitTo v span))
  set { s with pending }

/-- The failure of a variable without a value. -/
def missingValue (v : VarKey) : Failure :=
  let declared := ctx.model.variableAt v
  (Failure.of (.missingValue declared.name)).orPlaced declared.span

/-- Follow a chain of names from an expression and visit every declaration on the way, `steps`
of them at most. A chain of more declarations than there are comes back to one of them. -/
def followChain (nested : Bool) :
    (steps : Nat) → Pending → ExprKey → Except Failure ChainEnd × Pending
  | steps, p, e =>
    match ctx.model.form e with
    | .name name none => (.error (.of (.undeclaredName name)), p)
    | .name _ (some v) =>
      let visit := ctx.visitTo v (ctx.model.span e)
      match steps with
      | 0 => (.error (p.selfDependence visit), p)
      | rest + 1 =>
        match p.enter visit nested with
        | .error f => (.error f, p)
        | .ok entered =>
          match (ctx.model.variableAt v).definition with
          | none => (.ok (.undefined v), entered)
          | some definition => followChain false rest entered definition
    | _ => (.ok (.expression e), p)

/-- The end of the chain of names that starts at an expression. Only the first visit on the
way counts against the depth limit. The enclosing scope ends the visits. -/
def chainEnd (e : ExprKey) : EvalM ChainEnd := do
  let s ← get
  let (result, pending) := ctx.followChain true (ctx.model.declared.size + 1) s.pending e
  set { s with pending }
  EvalM.ofExcept result

end Context

namespace Evaluator

variable (ev : Evaluator)

/-- The integer that an expression stands for. -/
def intOf (e : ExprKey) : EvalM Integer := do
  let v ← ev.eval e
  ev.locating e (EvalM.ofExcept v.asInt)

/-- The boolean that an expression stands for. -/
def boolOf (e : ExprKey) : EvalM Bool := do
  let v ← ev.eval e
  ev.locating e (EvalM.ofExcept v.asBool)

/-- The set that an expression stands for. -/
def setOf (e : ExprKey) : EvalM IntegerSet := do
  let v ← ev.eval e
  ev.locating e (EvalM.ofExcept v.asSet)

/-- The array that an expression stands for. -/
def arrayOf (e : ExprKey) : EvalM LazyArray := do
  let v ← ev.eval e
  ev.locating e (EvalM.ofExcept v.asArray)

end Evaluator

end ConstraintEval
