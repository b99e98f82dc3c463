import ConstraintEval.Model.Basic

/-!
# Selecting overloads

A call means the least overload of its name that accepts the types of its arguments, in the
pointwise order of types. An exact match is least wherever it is declared once, so it always
wins.
-/

namespace ConstraintEval

/-- The outcome of looking for the overload that a call means. -/
inductive Selection where
  /-- One accepting overload is below all others. -/
  | one (f : FnKey)
  /-- No overload accepts the arguments. -/
  | noneFits
  /-- Some overloads accept the arguments, but not exactly one is below all of them. -/
  | several (candidates : List FnKey)
  deriving DecidableEq

namespace Model

/-- The overloads of a name that accept arguments of some types. -/
def accepting (m : Model) (name : String) (args : List Ty) : List FnKey :=
  (m.overloadsNamed name).filter fun f ↦ Fits args (m.overloadAt f).params

/-- The members of a list of overloads whose parameters are below those of all of them. -/
def leastAmong (m : Model) (fs : List FnKey) : List FnKey :=
  fs.filter fun f ↦ fs.all fun g ↦ Fits (m.overloadAt f).params (m.overloadAt g).params

/-- The overload that a call of a name with arguments of some types means. -/
def select (m : Model) (name : String) (args : List Ty) : Selection :=
  match m.accepting name args with
  | [] => .noneFits
  | f :: fs =>
    match m.leastAmong (f :: fs) with
    | [g] => .one g
    | _ => .several (f :: fs)

end Model

end ConstraintEval
