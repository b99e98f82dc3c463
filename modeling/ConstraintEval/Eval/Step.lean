import ConstraintEval.Eval.Apply
import ConstraintEval.Eval.Operator

/-!
# Rules of evaluation

How to evaluate an expression, given an evaluator for what it is made of. Operands are
evaluated from the left to the right and no further than the result needs. A name stands for
the end of its chain, an array for its unevaluated elements.
-/

namespace ConstraintEval

namespace Evaluator

variable (ev : Evaluator)

/-- The value of an operation on two operands; the second is evaluated only if the first does
not decide. -/
def valueOfBinary (op : BinaryOp) (left right : ExprKey) : EvalM Value := do
  let a ← ev.eval left
  match op.decided? a with
  | some v => return v
  | none => EvalM.ofExcept (op.apply a (← ev.eval right))

/-- The value of an element of an array. -/
def valueOfElement (array : ExprKey) (indices : List ExprKey) : EvalM Value := do
  let a ← ev.arrayOf array
  let is ← indices.mapM ev.intOf
  ev.eval (← EvalM.ofExcept (a.select is))

/-- The value of a call: what the builtin of its overload computes. -/
def valueOfCall (name : String) (resolved : Option FnKey) (args : List ExprKey) : EvalM Value :=
  match resolved with
  | none => EvalM.fail (.undeclaredName name)
  | some f =>
    match ev.registry.builtin? f with
    | none =>
      EvalM.fail (.refusedForm "evaluation" s!"`{name}` has no builtin implementation")
    | some b => EvalM.inScope (ev.apply args b)

/-- The value of an expression by its form. -/
def valueByForm (e : ExprKey) : EvalM Value :=
  match ev.model.form e with
  | .int v => return .int v
  | .bool b => return .bool b
  | .set members => do return .set (.ofList (← members.mapM ev.intOf))
  | .between lo hi => return .set (.range (← ev.intOf lo) (← ev.intOf hi))
  -- A chain never ends at a name.
  | .name .. => ev.eval e
  | .array literal => EvalM.ofExcept (Value.array <$> LazyArray.ofLiteral literal (ev.model.ty e))
  | .element array indices => ev.valueOfElement array indices
  | .call name resolved args => ev.valueOfCall name resolved args
  | .binary op left right => ev.valueOfBinary op left right
  | .unary op operand => do EvalM.ofExcept (op.apply (← ev.eval operand))
  | .choice cond yes no => do
    if ← ev.boolOf cond then ev.eval yes else ev.eval no

/-- The value of the end of a chain of names. -/
def valueOfEnd : ChainEnd → EvalM Value
  | .expression e => ev.valueByForm e
  | .undefined v => throw (ev.missingValue v)

/-- The value of an expression, which outlives the scope of its evaluation. -/
def valueStep (e : ExprKey) : EvalM Value := do
  let v ← EvalM.inScope <| ev.locating e do
    ev.valueOfEnd (← ev.chainEnd e)
  modify (EvalState.keep v)
  return v

/-- The evaluator that has come to the end of its levels. -/
def stuck (ctx : Context) : Evaluator :=
  { ctx with eval := fun _ ↦ StepM.diverge, bounds := fun _ ↦ StepM.diverge }

/-- The evaluator whose evaluations nest `levels` deep at most. -/
def ofLevels (ctx : Context) : (levels : Nat) → Evaluator
  | 0 => stuck ctx
  | n + 1 =>
    { ctx with
      eval := fun e ↦ (ofLevels ctx n).valueStep e
      bounds := fun e ↦ (ofLevels ctx n).boundsStep e }

/-- Every level reads the same model and registry. -/
@[simp] theorem toContext_ofLevels (ctx : Context) (n : Nat) :
    (ofLevels ctx n).toContext = ctx := by
  cases n <;> rfl

/-- Without levels no evaluation comes to an end. -/
theorem eval_ofLevels_zero (ctx : Context) (e : ExprKey) :
    (ofLevels ctx 0).eval e = StepM.diverge := rfl

/-- With one more level an expression is evaluated by its rule. -/
theorem eval_ofLevels_succ (ctx : Context) (n : Nat) (e : ExprKey) :
    (ofLevels ctx (n + 1)).eval e = (ofLevels ctx n).valueStep e := rfl

/-- Without levels no search for bounds comes to an end. -/
theorem bounds_ofLevels_zero (ctx : Context) (e : ExprKey) :
    (ofLevels ctx 0).bounds e = StepM.diverge := rfl

/-- With one more level the bounds of an expression are found by its rule. -/
theorem bounds_ofLevels_succ (ctx : Context) (n : Nat) (e : ExprKey) :
    (ofLevels ctx (n + 1)).bounds e = (ofLevels ctx n).boundsStep e := rfl

end Evaluator

/-- How deeply evaluations can nest before one repeats itself. Along a line of nested
evaluations the pending declarations only become more, and each of them is named by some
expression. As long as they stay the same an expression can be evaluated and bounded once each;
doing it again would go on for ever. -/
def Context.levels (ctx : Context) : Nat :=
  2 * ctx.model.nodes.size * (ctx.model.nodes.size + 1) + 1

/-- The evaluator of a model. -/
def Context.evaluator (ctx : Context) : Evaluator := .ofLevels ctx ctx.levels

end ConstraintEval
