import ConstraintEval.Model.Build

/-!
# Changes of a model

Whatever is done to a model adds to the end of its tables, except that a variable may be given its
definition after its declaration. So all keys keep their meaning while a model is added to, and
the functions of a model are those that were declared in it, one after another.
-/

namespace ConstraintEval

/-- A change of a model, which is one of the ways to build it. -/
inductive Change where
  | node (form : Form) (span : Span) (ty : Ty)
  | int (value : Integer)
  | bool (value : Bool)
  | between (lo hi : ExprKey)
  | literalRange (lo hi : Integer)
  | set (members : List ExprKey)
  | literalSet (values : List Integer)
  | typedArray (elements : List ExprKey) (ranges : List Interval) (ty : Ty)
  | arrayIn (ranges : List Interval) (elements : List ExprKey)
  | array (elements : List ExprKey)
  | arrayOfNone (elementTy : Ty)
  | name (v : VarKey)
  | undeclared (text : String)
  | call (callee : String) (args : List ExprKey)
  | binary (op : BinaryOp) (left right : ExprKey)
  | unary (op : UnaryOp) (operand : ExprKey)
  | choice (cond yes no : ExprKey)
  | element (source : ExprKey) (indices : List ExprKey)
  | addVariable (x : Variable)
  | addOverload (f : Overload)
  | define (v : VarKey) (definition : ExprKey)

namespace Change

/-- The model after a change. -/
def apply (m : Model) : Change → Model
  | node form span ty => ((Build.node form span ty).run m).2
  | int value => ((Build.int value).run m).2
  | bool value => ((Build.bool value).run m).2
  | between lo hi => ((Build.between lo hi).run m).2
  | literalRange lo hi => ((Build.literalRange lo hi).run m).2
  | set members => ((Build.set members).run m).2
  | literalSet values => ((Build.literalSet values).run m).2
  | typedArray elements ranges ty => ((Build.typedArray elements ranges ty).run m).2
  | arrayIn ranges elements => ((Build.arrayIn ranges elements).run m).2
  | array elements => ((Build.array elements).run m).2
  | arrayOfNone elementTy => ((Build.arrayOfNone elementTy).run m).2
  | name v => ((Build.name v).run m).2
  | undeclared text => ((Build.undeclared text).run m).2
  | call callee args => ((Build.call callee args).run m).2
  | binary op left right => ((Build.binary op left right).run m).2
  | unary op operand => ((Build.unary op operand).run m).2
  | choice cond yes no => ((Build.choice cond yes no).run m).2
  | element source indices => ((Build.element source indices).run m).2
  | addVariable x => ((Build.addVariable x).run m).2
  | addOverload f => ((Build.addOverload f).run m).2
  | define v definition => ((Build.define v definition).run m).2

/-- Whether a change leaves alone what is there. -/
def isAddition : Change → Bool
  | define .. => false
  | _ => true

/-- The functions that a change declares. -/
def functions : Change → List Overload
  | addOverload f => [f]
  | _ => []

end Change

/-- The model after some changes, one after another. -/
def Model.changed (m : Model) (cs : List Change) : Model := cs.foldl Change.apply m

/-- All that is in one model is in another one as well, under the same keys, and some functions
are declared after those of the first one. -/
structure Model.Extends (m : Model) (fs : List Overload) (m' : Model) : Prop where
  names : m.names.names.toList <+: m'.names.names.toList
  nodes : m.nodes.toList <+: m'.nodes.toList
  literals : m.literals ≤ m'.literals
  declared : m.declared.toList <+: m'.declared.toList
  overloads : m'.overloads.toList = m.overloads.toList ++ fs

namespace Model.Extends

variable {m m' m'' : Model} {fs gs : List Overload}

theorem refl (m : Model) : m.Extends [] m where
  names := List.prefix_refl _
  nodes := List.prefix_refl _
  literals := Nat.le_refl _
  declared := List.prefix_refl _
  overloads := (List.append_nil _).symm

theorem trans (h : m.Extends fs m') (h' : m'.Extends gs m'') : m.Extends (fs ++ gs) m'' where
  names := h.names.trans h'.names
  nodes := h.nodes.trans h'.nodes
  literals := Nat.le_trans h.literals h'.literals
  declared := h.declared.trans h'.declared
  overloads := by rw [h'.overloads, h.overloads, List.append_assoc]

theorem size_le (h : m.Extends fs m') : m.nodes.size ≤ m'.nodes.size := h.nodes.length_le

theorem declared_size_le (h : m.Extends fs m') : m.declared.size ≤ m'.declared.size :=
  h.declared.length_le

/-- An expression stays what it is. -/
theorem node_eq (h : m.Extends fs m') {e : ExprKey} (lt : e.index < m.nodes.size) :
    m'.node e = m.node e := by
  have same := List.prefix_iff_getElem?.1 h.nodes e.index lt
  rw [Array.getElem?_toList, Array.getElem_toList] at same
  rw [Model.node, Model.node, same, Array.getElem?_eq_getElem lt]

/-- A variable stays what it is. -/
theorem variableAt_eq (h : m.Extends fs m') {v : VarKey} (lt : v.index < m.declared.size) :
    m'.variableAt v = m.variableAt v := by
  have same := List.prefix_iff_getElem?.1 h.declared v.index lt
  rw [Array.getElem?_toList, Array.getElem_toList] at same
  rw [Model.variableAt, Model.variableAt, same, Array.getElem?_eq_getElem lt]

end Model.Extends

namespace Build

/-- A computation only adds to a model, and declares some functions. -/
def Adds (fs : List Overload) {α : Type} (x : Build α) : Prop :=
  ∀ m : Model, m.Extends fs (x.run m).2

variable {α β : Type} {fs gs : List Overload}

/-! ### Ways to put computations together -/

theorem Adds.append {x : Build α} {f : α → Build β} (hx : Adds fs x) (hf : ∀ a, Adds gs (f a)) :
    Adds (fs ++ gs) (x >>= f) :=
  fun m ↦ (hx m).trans (hf _ _)

theorem Adds.bind {x : Build α} {f : α → Build β} (hx : Adds [] x) (hf : ∀ a, Adds fs (f a)) :
    Adds fs (x >>= f) :=
  hx.append hf

theorem adds_pure (a : α) : Adds [] (pure a : Build α) := Model.Extends.refl

theorem adds_get : Adds [] (get : Build Model) := Model.Extends.refl

theorem adds_mapM {f : α → Build β} (hf : ∀ a, Adds [] (f a)) (as : List α) :
    Adds [] (as.mapM f) := by
  induction as with
  | nil => exact adds_pure []
  | cons a as ih =>
    rw [List.mapM_cons]
    exact (hf a).bind fun b ↦ ih.bind fun bs ↦ adds_pure (b :: bs)

theorem adds_forM {f : α → Build Unit} {declares : α → List Overload}
    (hf : ∀ a, Adds (declares a) (f a)) (as : List α) :
    Adds (as.flatMap declares) (as.forM f) := by
  induction as with
  | nil => exact adds_pure ()
  | cons a as ih => exact (hf a).append fun _ ↦ ih

/-! ### Additions to the tables -/

private theorem prefix_push (as : Array α) (a : α) : as.toList <+: (as.push a).toList := by
  rw [Array.toList_push]
  exact List.prefix_append ..

theorem adds_mention (name : String) : Adds [] (mention name) := fun m ↦
  { Model.Extends.refl m with
    names := by
      change m.names.names.toList <+: (m.names.intern name).2.names.toList
      unfold Interner.intern
      split
      · exact List.prefix_refl _
      · exact prefix_push .. }

theorem adds_node (form : Form) (span : Span) (ty : Ty) : Adds [] (node form span ty) := fun m ↦
  { Model.Extends.refl m with nodes := prefix_push .. }

theorem adds_addVariable (x : Variable) : Adds [] (addVariable x) :=
  (adds_mention x.name).bind fun _ m ↦
    { Model.Extends.refl m with declared := prefix_push .. }

theorem adds_addOverload (f : Overload) : Adds [f] (addOverload f) :=
  (adds_mention f.name).bind fun _ m ↦
    { Model.Extends.refl m with overloads := Array.toList_push }

/-! ### Expressions -/

theorem adds_int (value : Integer) : Adds [] (int value) := adds_node _ _ _

theorem adds_between (lo hi : ExprKey) : Adds [] (between lo hi) :=
  adds_get.bind fun _ ↦ adds_node _ _ _

theorem adds_set (members : List ExprKey) : Adds [] (set members) :=
  adds_get.bind fun _ ↦ adds_node _ _ _

theorem adds_typedArray (elements : List ExprKey) (ranges : List Interval) (ty : Ty) :
    Adds [] (typedArray elements ranges ty) := by
  refine Adds.bind (fun m ↦ ?_) fun _ ↦ adds_node _ _ _
  exact { Model.Extends.refl m with literals := Nat.le_succ _ }

theorem adds_arrayIn (ranges : List Interval) (elements : List ExprKey) :
    Adds [] (arrayIn ranges elements) :=
  adds_get.bind fun _ ↦ adds_typedArray _ _ _

theorem adds_call (name : String) (args : List ExprKey) : Adds [] (call name args) := by
  refine (adds_mention name).bind fun _ ↦ adds_get.bind fun m ↦ ?_
  split <;> exact adds_node _ _ _

end Build

/-! ### Changes -/

open Build in
/-- An addition leaves alone what is there. -/
theorem Model.extends_apply (m : Model) {c : Change} (addition : c.isAddition) :
    m.Extends c.functions (c.apply m) := by
  cases c with
  | node form span ty => exact adds_node form span ty m
  | int value => exact adds_int value m
  | bool value => exact adds_node _ _ _ m
  | between lo hi => exact adds_between lo hi m
  | literalRange lo hi =>
    exact (adds_int lo).bind (fun lo ↦ (adds_int hi).bind fun hi ↦ adds_between lo hi) m
  | set members => exact adds_set members m
  | literalSet values => exact (adds_mapM adds_int values).bind adds_set m
  | typedArray elements ranges ty => exact adds_typedArray elements ranges ty m
  | arrayIn ranges elements => exact adds_arrayIn ranges elements m
  | array elements => exact adds_arrayIn _ elements m
  | arrayOfNone elementTy => exact adds_typedArray _ _ _ m
  | name v => exact adds_get.bind (fun _ ↦ adds_node _ _ _) m
  | undeclared name => exact (adds_mention name).bind (fun _ ↦ adds_node _ _ _) m
  | call name args => exact adds_call name args m
  | binary op left right => exact adds_get.bind (fun _ ↦ adds_node _ _ _) m
  | unary op operand => exact adds_get.bind (fun _ ↦ adds_node _ _ _) m
  | choice cond yes no => exact adds_get.bind (fun _ ↦ adds_node _ _ _) m
  | element source indices => exact adds_get.bind (fun _ ↦ adds_node _ _ _) m
  | addVariable x => exact adds_addVariable x m
  | addOverload f => exact adds_addOverload f m
  | define v definition => cases addition

/-- Additions leave alone what is there. -/
theorem Model.extends_changed (m : Model) {cs : List Change} (additions : ∀ c ∈ cs, c.isAddition) :
    m.Extends (cs.flatMap Change.functions) (m.changed cs) := by
  induction cs generalizing m with
  | nil => exact .refl m
  | cons c cs ih =>
    obtain ⟨first, rest⟩ := List.forall_mem_cons.1 additions
    exact (m.extends_apply first).trans (ih (c.apply m) rest)

private theorem overloads_apply (m : Model) (c : Change) :
    (c.apply m).overloads.toList = m.overloads.toList ++ c.functions := by
  cases addition : c.isAddition with
  | true => exact (m.extends_apply addition).overloads
  | false =>
    cases c with
    | define v definition => exact (List.append_nil _).symm
    | _ => cases addition

/-- The functions of a model are those that were there and those that the changes declare. -/
theorem Model.overloads_changed (m : Model) (cs : List Change) :
    (m.changed cs).overloads.toList = m.overloads.toList ++ cs.flatMap Change.functions := by
  induction cs generalizing m with
  | nil => exact (List.append_nil _).symm
  | cons c cs ih =>
    rw [changed, List.foldl_cons, ← changed, ih, overloads_apply, List.flatMap_cons,
      List.append_assoc]

end ConstraintEval
