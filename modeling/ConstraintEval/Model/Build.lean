import ConstraintEval.Model.Selection

/-!
# Building models

The ways to add expressions and declarations to a model. Adding an expression takes the keys
of its operands, adds one node, and finds its type from the operands' types. What is added
has no place in a source text unless one is given.
-/

namespace ConstraintEval

/-- A computation that adds to a model. -/
abbrev Build := StateM Model

namespace Build

/-- Note that a name was mentioned. -/
def mention (name : String) : Build Unit :=
  modify fun m ↦ { m with names := (m.names.intern name).2 }

/-- Add a node as it is. -/
def node (form : Form) (span : Span) (ty : Ty) : Build ExprKey :=
  modifyGet fun m ↦ (⟨m.nodes.size⟩, { m with nodes := m.nodes.push ⟨form, span, ty⟩ })

/-- Declare a variable. It hides earlier variables of the same name. -/
def addVariable (x : Variable) : Build VarKey := do
  mention x.name
  modifyGet fun m ↦ (⟨m.declared.size⟩, { m with declared := m.declared.push x })

/-- Give a declared variable its definition, so that declarations can refer to each other
before all of them are there. -/
def define (v : VarKey) (definition : ExprKey) : Build Unit :=
  modify fun m ↦ { m with
    declared := m.declared.modify v.index fun x ↦ { x with definition := some definition } }

/-- Declare a function. -/
def addOverload (f : Overload) : Build FnKey := do
  mention f.name
  modifyGet fun m ↦ (⟨m.overloads.size⟩, { m with overloads := m.overloads.push f })

/-- Who decides a value that is made up of others: the solver, if it decides any of them. -/
def commonMode (m : Model) (es : List ExprKey) : Mode :=
  es.foldl (fun mode e ↦ max mode (m.ty e).mode) .par

/-- The least scalar type above two scalar types, for sets if either is. -/
def joinTy (t u : Ty) : Ty where
  base := if u.base = t.base then t.base else .any
  mode := max t.mode u.mode
  presence := max t.presence u.presence
  isSet := t.isSet || u.isSet
  rank := 0

/-- The type of the elements of an array literal. -/
def commonTy (m : Model) : List ExprKey → Ty
  | [] => .unknown
  | first :: rest =>
    (first :: rest).foldl (fun t e ↦ joinTy t (m.ty e))
      ⟨(m.ty first).base, .par, .always, false, 0⟩

/-- An integer literal. -/
def int (value : Integer) : Build ExprKey := node (.int value) .nowhere (.int .par)

/-- A boolean literal. -/
def bool (value : Bool) : Build ExprKey := node (.bool value) .nowhere (.bool .par)

/-- The integers between two ends. -/
def between (lo hi : ExprKey) : Build ExprKey := do
  node (.between lo hi) .nowhere (.intSet (commonMode (← get) [lo, hi]))

/-- The integers between two literals. -/
def literalRange (lo hi : Integer) : Build ExprKey := do
  let lo ← int lo
  let hi ← int hi
  between lo hi

/-- The set of some integers. -/
def set (members : List ExprKey) : Build ExprKey := do
  node (.set members) .nowhere (.intSet (commonMode (← get) members))

/-- The set of some literals. -/
def literalSet (values : List Integer) : Build ExprKey := do
  set (← values.mapM int)

/-- An array literal of a given type. -/
def typedArray (elements : List ExprKey) (ranges : List Interval) (ty : Ty) :
    Build ExprKey := do
  let key ← modifyGet fun m ↦ (⟨m.literals⟩, { m with literals := m.literals + 1 })
  node (.array ⟨key, elements, ranges⟩) .nowhere ty

/-- An array literal with given index ranges. -/
def arrayIn (ranges : List Interval) (elements : List ExprKey) : Build ExprKey := do
  typedArray elements ranges ((commonTy (← get) elements).arrayOf ranges.length)

/-- The index range of a list that is counted from 1. -/
def fromOne (count : Nat) : Interval := ⟨.one, (Integer.ofNat? count).getD .greatest⟩

/-- A one-dimensional array literal, indexed from 1. -/
def array (elements : List ExprKey) : Build ExprKey :=
  arrayIn [fromOne elements.length] elements

/-- The one-dimensional array literal without elements; their type cannot be told from it. -/
def arrayOfNone (elementTy : Ty) : Build ExprKey :=
  typedArray [] [fromOne 0] (elementTy.inRank 1)

/-- The name of a variable. -/
def name (v : VarKey) : Build ExprKey := do
  let x := (← get).variableAt v
  node (.name x.name (some v)) .nowhere x.ty

/-- A name that nothing declares. -/
def undeclared (name : String) : Build ExprKey := do
  mention name
  node (.name name none) .nowhere .unknown

/-- A call, resolved to the overload that the types of the arguments select. A call for which
not one overload is selected is added unresolved. -/
def call (name : String) (args : List ExprKey) : Build ExprKey := do
  mention name
  let m ← get
  match m.select name (args.map m.ty) with
  | .one f => node (.call name (some f) args) .nowhere (m.overloadAt f).result
  | .noneFits | .several _ => node (.call name none args) .nowhere .unknown

/-- An operation on two operands. -/
def binary (op : BinaryOp) (left right : ExprKey) : Build ExprKey := do
  node (.binary op left right) .nowhere (op.resultTy (commonMode (← get) [left, right]))

/-- An operation on one operand, of the operand's type. -/
def unary (op : UnaryOp) (operand : ExprKey) : Build ExprKey := do
  node (.unary op operand) .nowhere ((← get).ty operand)

/-- A choice between two expressions, of the type of the first. -/
def choice (cond yes no : ExprKey) : Build ExprKey := do
  let m ← get
  node (.choice cond yes no) .nowhere ((m.ty yes).inMode (commonMode m [cond, yes, no]))

/-- An element of an array. The solver decides it if it decides the elements or an index. -/
def element (source : ExprKey) (indices : List ExprKey) : Build ExprKey := do
  let m ← get
  let ty := (m.ty source).elementTy
  node (.element source indices) .nowhere
    (match commonMode m indices with
    | .var => ty.inMode .var
    | .par => ty)

end Build

end ConstraintEval
