import ConstraintEval.Model.Node
import ConstraintEval.Source.Interner

/-!
# Models

A model holds the expressions and declarations of one compilation. It only grows: apart from
giving a variable its definition, nothing that has been added is changed.
-/

namespace ConstraintEval

/-- A declared variable or parameter. -/
structure Variable where
  name : String
  span : Span
  ty : Ty
  /-- The set that the values are declared to lie in. -/
  domain : Option ExprKey
  /-- The declared index set of each dimension, where it is not left to the data. -/
  indexSets : List (Option ExprKey)
  /-- The expression that the variable stands for. -/
  definition : Option ExprKey
  deriving DecidableEq, Inhabited

/-- A declared function: a name with one of its signatures. -/
structure Overload where
  name : String
  params : List Ty
  result : Ty
  deriving DecidableEq, Inhabited

/-- The index sets of an array type where all are left to the data. -/
def Ty.openIndexSets (t : Ty) : List (Option ExprKey) := List.replicate t.rank.toNat none

/-- The expressions and declarations of one compilation. -/
structure Model where
  /-- Every name that has been mentioned. -/
  names : Interner
  nodes : Array Node
  /-- The number of array literals, each of which has a key of its own. -/
  literals : Nat
  /-- The declared variables, in the order of their declaration. -/
  declared : Array Variable
  /-- The declared functions, in the order of their declaration. -/
  overloads : Array Overload

namespace Model

/-- The model without expressions and declarations. -/
def empty : Model := ⟨.empty, #[], 0, #[], #[]⟩

instance : Inhabited Model := ⟨empty⟩

/-- The expression with a key. -/
def node (m : Model) (e : ExprKey) : Node := m.nodes[e.index]?.getD default

/-- The form of an expression. -/
def form (m : Model) (e : ExprKey) : Form := (m.node e).form

/-- The place of an expression in the source text. -/
def span (m : Model) (e : ExprKey) : Span := (m.node e).span

/-- The type of an expression. -/
def ty (m : Model) (e : ExprKey) : Ty := (m.node e).ty

/-- The variable with a key. -/
def variableAt (m : Model) (v : VarKey) : Variable := m.declared[v.index]?.getD default

/-- The overload with a key. -/
def overloadAt (m : Model) (f : FnKey) : Overload := m.overloads[f.index]?.getD default

/-- The latest variable declared under a name. -/
def latestNamed? (m : Model) (name : String) : Option VarKey :=
  (m.declared.toList.reverse.findIdx? (·.name == name)).map fun i ↦
    ⟨m.declared.size - 1 - i⟩

/-- The overloads of a name, in the order of their declaration. -/
def overloadsNamed (m : Model) (name : String) : List FnKey :=
  ((List.range m.overloads.size).map FnKey.mk).filter fun f ↦ (m.overloadAt f).name == name

end Model

end ConstraintEval
