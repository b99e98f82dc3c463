import ConstraintEval.Eval.Evaluator

/-!
# Domains and index sets

What can be said about a variable without a value: the set that its declaration restricts it
to, and the index sets of an array. Chains of names are followed to a declaration without a
definition, which has its declared domain, or to an expression of one of the few forms that
show their domain; every other form is refused.
-/

namespace ConstraintEval

namespace Evaluator

variable (ev : Evaluator)

/-- The set that a variable is declared to lie in. -/
def domainOfDeclared (v : VarKey) (operation : String) : EvalM IntegerSet :=
  let declared := ev.model.variableAt v
  match declared.domain with
  | some domain => ev.setOf domain
  | none => throw ((Failure.of (.unknownBounds operation)).orPlaced declared.span)

/-- Refuse an expression for its form. -/
def refuseForm {α : Type} (operation : String) (e : ExprKey) : EvalM α :=
  ev.failAt e (.refusedForm operation (ev.model.form e).description)

/-- The domain of an integer: a literal's value, or the declared domain. -/
def domainOf (e : ExprKey) : EvalM IntegerSet := EvalM.inScope <| ev.locating e do
  match ← ev.chainEnd e with
  | .undefined v => ev.domainOfDeclared v "dom"
  | .expression x =>
    match ev.model.form x with
    | .int v => return .singleton v
    | _ => ev.refuseForm "dom" x

/-- The array at the end of a chain, where the elements show their domains. -/
def arrayOfDomains (e : ExprKey) : EvalM LazyArray := do
  match ← ev.chainEnd e with
  | .undefined v => throw (ev.missingValue v)
  | .expression x =>
    match ev.model.form x with
    | .array _ | .call .. => ev.arrayOf x
    | _ => ev.refuseForm "dom_array" x

/-- The union of the domains of an array's elements. -/
def domainOfElements (e : ExprKey) : EvalM IntegerSet := EvalM.inScope <| ev.locating e do
  let a ← ev.arrayOfDomains e
  a.elements.foldlM (fun acc x ↦ return acc.union (← ev.domainOf x)) IntegerSet.empty

/-- The set that a set variable's value lies in: a set that is written out, or the declared
domain. -/
def upperSet (e : ExprKey) : EvalM IntegerSet := EvalM.inScope <| ev.locating e do
  match ← ev.chainEnd e with
  | .undefined v => ev.domainOfDeclared v "ub"
  | .expression x =>
    match ev.model.form x with
    | .set _ | .between .. => ev.setOf x
    | _ => ev.refuseForm "ub" x

/-- The number of members of a set. -/
def cardinality (e : ExprKey) : EvalM Integer := do
  let s ← ev.setOf e
  match s.size? with
  | some n => return n
  | none => ev.failAt e (.overflow "card")

/-- The declared entry of a dimension, counted from 1. -/
def entryOfDimension? (indexSets : List (Option ExprKey)) :
    (dimension : Nat) → Option (Option ExprKey)
  | 0 => none
  | k + 1 => indexSets[k]?

/-- The index set of a dimension of a named array: the declared one, or else the range of
the array's value. -/
def indexSet (e : ExprKey) (dimension : Nat) : EvalM IntegerSet :=
  match ev.model.form e with
  | .name _ (some v) =>
    let indexSets := (ev.model.variableAt v).indexSets
    match entryOfDimension? indexSets dimension with
    | none => ev.failAt e (.missingDimension "index_set" dimension indexSets.length)
    | some (some set) => ev.setOf set
    | some none => do
      let a ← ev.arrayOf e
      match a.range? dimension with
      | some r => return .range r.lo r.hi
      | none => ev.failAt e (.missingDimension "index_set" dimension a.rank)
  | .name name none => ev.failAt e (.undeclaredName name)
  | _ => ev.failAt e (.refusedForm "index_set" "only identifiers are supported")

end Evaluator

end ConstraintEval
