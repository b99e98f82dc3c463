import ConstraintEval.Library.Builtin
import ConstraintEval.Report.Diagnostic

/-!
# Binding builtins to declarations

A registry says which declared functions are computed, and by which builtin. A builtin is
bound to the overload that a call with its parameter types would mean. Binding all of the
standard library stops at the first function for which there is no such overload, more than
one, or one that is taken.
-/

namespace ConstraintEval

/-- Why a builtin could not be bound. -/
inductive BindingFault where
  /-- No overload accepts the signature. -/
  | noOverload
  /-- Several overloads accept the signature equally well. -/
  | severalOverloads (candidates : Nat)
  /-- The overload has a builtin already. -/
  | taken
  deriving DecidableEq

/-- A builtin that could not be bound. -/
structure BindingError where
  fault : BindingFault
  name : String
  /-- The text of the parameter list. -/
  params : String
  deriving DecidableEq

namespace BindingError

/-- What is wrong, in words. -/
def message (err : BindingError) : String :=
  let callee := err.name ++ err.params
  match err.fault with
  | .noOverload => s!"no declaration matches builtin `{callee}`"
  | .severalOverloads candidates =>
    s!"builtin `{callee}` matches {candidates} declarations ambiguously"
  | .taken => s!"declaration `{callee}` is already bound to a builtin"

/-- The report of a failed binding, which is never the fault of the model. -/
def report (err : BindingError) : Diagnostic :=
  (Diagnostic.error .disagreement err.message)
    |>.noted "the standard-library declarations and the builtin registrar disagree"
    |>.noted "this is a bug in the compiler, not in the model"

end BindingError

/-- Which declared functions are computed, and how. -/
structure Registry where
  bindings : List (FnKey × Builtin)
  deriving DecidableEq, Inhabited

namespace Registry

/-- The registry that binds nothing. -/
def empty : Registry := ⟨[]⟩

/-- The builtin of an overload. -/
def builtin? (r : Registry) (f : FnKey) : Option Builtin := r.bindings.lookup f

/-- Whether an overload has a builtin. -/
def binds (r : Registry) (f : FnKey) : Bool := (r.builtin? f).isSome

/-- The number of bound overloads. -/
def size (r : Registry) : Nat := r.bindings.length

/-- Whether no overload is bound. -/
def isEmpty (r : Registry) : Bool := r.bindings.isEmpty

/-- Bind a builtin to the overload that a call with some parameter types means. -/
def bind (m : Model) (r : Registry) (name : String) (params : List Ty) (b : Builtin) :
    Except BindingError (FnKey × Registry) :=
  let refuse (fault : BindingFault) := .error ⟨fault, name, paramsText params⟩
  match m.select name params with
  | .noneFits => refuse .noOverload
  | .several candidates => refuse (.severalOverloads candidates.length)
  | .one f => if r.binds f then refuse .taken else .ok (f, ⟨r.bindings ++ [(f, b)]⟩)

/-- Bind every builtin of the standard library, in order. -/
def ofLibrary (m : Model) : Except BindingError Registry :=
  Library.implementations.foldlM
    (fun r impl ↦ (·.2) <$> r.bind m impl.name impl.params impl.builtin)
    empty

end Registry

end ConstraintEval
