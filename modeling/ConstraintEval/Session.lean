import ConstraintEval.Eval.FailureReport
import ConstraintEval.Eval.Query
import ConstraintEval.Settings

/-!
# Sessions

A session holds the model of one compilation, which starts with the standard library, its
settings, and, once the builtins have been bound, the registry that every evaluation uses.
What goes wrong leaves a session as a diagnostic.
-/

namespace ConstraintEval

/-- One compilation. -/
structure Session where
  model : Model
  /-- The bound builtins, once there are any. -/
  registry : Option Registry
  settings : Settings

namespace Session

/-- A session whose model holds the standard library. -/
def new (settings : Settings) : Session := ⟨(Library.declareAll.run .empty).2, none, settings⟩

/-- Bind every builtin of the standard library. This happens once: a registry that is there is
used again, whatever has been declared since. -/
def bindLibrary (s : Session) : Except Diagnostic Session :=
  match s.registry with
  | some _ => .ok s
  | none =>
    match Registry.ofLibrary s.model with
    | .ok registry => .ok { s with registry }
    | .error err => .error err.report

/-- The report of evaluating before the builtins have been bound. -/
def unboundReport : Diagnostic :=
  (Diagnostic.error .disagreement "builtins have not been registered for this session")
    |>.noted "call `Session::register_builtins` before evaluating"

/-- What evaluations in this session read. -/
def context (s : Session) : Except Diagnostic Context :=
  match s.registry with
  | some registry => .ok ⟨s.model, registry⟩
  | none => .error unboundReport

/-- Put queries to a fresh evaluator of the session. There are no answers if one of them does
not come to an end. -/
def ask (s : Session) (qs : List Query) : Except Diagnostic (Option (List Answer)) := do
  let ctx ← s.context
  return ctx.ask s.settings.depthLimit qs

/-- The value of an expression. There is none if the evaluation does not come to an end. -/
def eval (s : Session) (e : ExprKey) : Except Diagnostic (Option (Except Diagnostic Value)) := do
  let ctx ← s.context
  let outcome := ((ctx.evaluator.eval e).run).run (.fresh s.settings.depthLimit)
  return outcome.map fun (r, _) ↦ r.mapError Failure.report

end Session

end ConstraintEval
