/-!
# Keys

Expressions, declarations and array literals are referred to by their number in the model
that holds them. Each kind has a key type of its own, so that none is taken for another.
-/

namespace ConstraintEval

/-- The key of an expression. -/
structure ExprKey where
  index : Nat
  deriving DecidableEq, Inhabited

/-- The key of a variable or parameter declaration. -/
structure VarKey where
  index : Nat
  deriving DecidableEq, Inhabited

/-- The key of a function declaration. -/
structure FnKey where
  index : Nat
  deriving DecidableEq, Inhabited

/-- The key of an array literal: which element list an array value shares. -/
structure LiteralKey where
  index : Nat
  deriving DecidableEq, Inhabited

/-- A run of consecutively numbered expressions. -/
structure ExprRun where
  start : Nat
  length : Nat
  deriving DecidableEq, Inhabited

/-- The text of the key for a trace. -/
def ExprKey.debugText (e : ExprKey) : String := s!"ExprId({e.index})"

/-- The text of the key for a trace. -/
def VarKey.debugText (v : VarKey) : String := s!"VarId({v.index})"

/-- The text of the key for a trace. -/
def FnKey.debugText (f : FnKey) : String := s!"FnId({f.index})"

/-- The text of the key for a trace. -/
def LiteralKey.debugText (l : LiteralKey) : String := s!"ArrayLitId({l.index})"

namespace ExprRun

/-- The run of no expressions, at the start. -/
def empty : ExprRun := ⟨0, 0⟩

/-- Whether the run has no expressions. -/
def isEmpty (r : ExprRun) : Bool := r.length == 0

/-- The text of the run for a trace: its start and its length. -/
def debugText (r : ExprRun) : String := s!"ExprRange({r.start}+{r.length})"

end ExprRun

end ConstraintEval
