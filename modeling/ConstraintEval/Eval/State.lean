import ConstraintEval.Eval.Pending
import ConstraintEval.Eval.Value

/-!
# The state of an evaluation

An evaluation remembers which declarations are pending and which sets and arrays its open
scopes keep. A scope marks both when it opens and cuts both back to the marks when it closes,
whatever happened inside, so what runs in a scope leaves no trace.

A step may also fail to come to an end, when a model defines an array in terms of itself.
This is apart from failures, which are answers.
-/

namespace ConstraintEval

/-- What an evaluation remembers from step to step. -/
@[ext] structure EvalState where
  /-- The declarations whose values are being worked out. -/
  pending : Pending
  /-- The kept values, the latest first. -/
  kept : List Value
  /-- The number of open scopes. -/
  scopes : Nat
  deriving DecidableEq, Inhabited

namespace EvalState

/-- The state before any evaluation, with a limit on nested declarations. -/
def fresh (limit : Option Nat) : EvalState := ⟨.empty limit, [], 0⟩

/-- The state with one more scope open. -/
def openScope (s : EvalState) : EvalState := { s with scopes := s.scopes + 1 }

/-- The state after the scope is closed that was opened in the state `mark`. -/
def closeTo (mark s : EvalState) : EvalState where
  pending := s.pending.leaveTo mark.pending.size
  kept := s.kept.drop (s.kept.length - mark.kept.length)
  scopes := s.scopes - 1

/-- Keep a set or an array until the innermost open scope closes. -/
def keep (v : Value) (s : EvalState) : EvalState :=
  if 0 < s.scopes && v.isKept then { s with kept := v :: s.kept } else s

/-- A scope in which nothing happens leaves no trace. -/
theorem closeTo_openScope (s : EvalState) : closeTo s s.openScope = s := by
  ext1
  · exact s.pending.leaveTo_size
  · simp [closeTo, openScope]
  · simp [closeTo, openScope]

/-- A value that is kept in a scope goes when the scope closes. -/
theorem closeTo_keep (s : EvalState) (v : Value) : closeTo s (s.openScope.keep v) = s := by
  unfold keep
  split
  · ext1
    · exact s.pending.leaveTo_size
    · simp [closeTo, openScope]
    · simp [closeTo, openScope]
  · exact s.closeTo_openScope

end EvalState

/-- A step of an evaluation, which may fail to come to an end. -/
abbrev StepM := StateT EvalState Option

/-- A step that gives a result or fails. -/
abbrev EvalM := ExceptT Failure StepM

/-- A step that gives bounds, or none if there are none to be found. -/
abbrev BoundM := OptionT StepM

namespace StepM

/-- The step that does not come to an end. -/
def diverge {α : Type} : StepM α := fun _ ↦ none

/-- Run a step in a scope of its own. -/
def inScope {α : Type} (x : StepM α) : StepM α := do
  let mark ← get
  set mark.openScope
  let a ← x
  modify mark.closeTo
  return a

end StepM

namespace EvalM

/-- Run a step in a scope of its own. -/
def inScope {α : Type} (x : EvalM α) : EvalM α := ExceptT.mk (StepM.inScope x.run)

/-- A step that gives what has been worked out already. -/
def ofExcept {α : Type} (r : Except Failure α) : EvalM α := ExceptT.mk (pure r)

/-- A step that fails, for a cause alone. -/
def fail {α : Type} (cause : Cause) : EvalM α := throw (.of cause)

/-- A step that gives what there is, and fails where there is nothing. -/
def ofOption {α : Type} (cause : Cause) : Option α → EvalM α
  | some a => pure a
  | none => fail cause

/-- Answer with the outcome of a step, be it a result or a failure. -/
def outcome {α : Type} (x : EvalM α) : EvalM (Except Failure α) := ExceptT.lift x.run

/-- Look for bounds in an evaluation: where it fails there are none to be found. -/
def bounds {α : Type} (x : EvalM α) : BoundM α :=
  OptionT.mk ((fun r ↦ r.toOption) <$> x.run)

end EvalM

namespace BoundM

/-- Look for bounds in a scope of its own. -/
def inScope {α : Type} (x : BoundM α) : BoundM α := OptionT.mk (StepM.inScope x.run)

/-- A step that gives what has been found already. -/
def ofOption {α : Type} (r : Option α) : BoundM α := OptionT.mk (pure r)

/-- Whether bounds are found. -/
def succeeds {α : Type} (x : BoundM α) : EvalM Bool := ExceptT.lift (Option.isSome <$> x.run)

/-- Look for bounds in an evaluation that fails where there are none. -/
def orFail {α : Type} (x : BoundM α) (f : StepM Failure) : EvalM α :=
  ExceptT.mk do
    match ← x.run with
    | some a => return .ok a
    | none => return .error (← f)

end BoundM

end ConstraintEval
