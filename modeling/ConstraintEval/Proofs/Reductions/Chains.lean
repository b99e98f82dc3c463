import ConstraintEval.Proofs.Reductions.Calls

/-!
# Reductions against chains of operations

A reduction of an array literal has the value that the chain of operations over the elements has:
the chain of additions from 0, the nested calls for the smaller or the greater of two values, and
the nested conjunctions and disjunctions. Reductions and chains of integers have the same bounds
as well, whether they are known or decided by the solver.

Two things can come between them. A function that is declared beside the library may take the
array and stand for the reduction. And the bounds of a sum are added when all of them are there,
whereas the bounds of a chain are added in turn, so that the chain gives up at an overflow where
the sum goes on to an element whose bounds are looked for without end.
-/

namespace ConstraintEval

variable {ctx : Context} {m : Model} {p : Pending} {a c d e l r : ExprKey} {es : List ExprKey}
  {side : Side}

/-! ### Expressions as they are added to a model -/

namespace Model

/-- An expression is an integer literal as it is added to the model. -/
def IsInt (m : Model) (c : ExprKey) (v : Integer) : Prop := (m.form c, m.ty c) = (.int v, .int .par)

/-- An expression is a boolean literal as it is added to the model. -/
def IsBool (m : Model) (c : ExprKey) (b : Bool) : Prop := (m.form c, m.ty c) = (.bool b, .bool .par)

/-- An expression is an operation on two operands as it is added to the model. -/
def IsBinary (m : Model) (c : ExprKey) (op : BinaryOp) (l r : ExprKey) : Prop :=
  (m.form c, m.ty c) = (.binary op l r, op.resultTy (Build.commonMode m [l, r]))

/-- An expression is the literal of a one-dimensional array as it is added to the model. -/
def IsRow (m : Model) (a : ExprKey) (es : List ExprKey) : Prop :=
  ∃ key, (m.form a, m.ty a) =
    (.array ⟨key, es, [Build.fromOne es.length]⟩, (Build.commonTy m es).arrayOf 1)

instance (m : Model) (c : ExprKey) (v : Integer) : Decidable (m.IsInt c v) :=
  inferInstanceAs (Decidable (_ = _))

instance (m : Model) (c : ExprKey) (b : Bool) : Decidable (m.IsBool c b) :=
  inferInstanceAs (Decidable (_ = _))

instance (m : Model) (c : ExprKey) (op : BinaryOp) (l r : ExprKey) :
    Decidable (m.IsBinary c op l r) :=
  inferInstanceAs (Decidable (_ = _))

/-- Some expressions added in turn to 0. -/
inductive SumChain (m : Model) : List ExprKey → ExprKey → Prop
  | zero {c : ExprKey} (zero : m.IsInt c .zero) : SumChain m [] c
  | add {es : List ExprKey} {d e c : ExprKey} (before : SumChain m es d)
      (sum : m.IsBinary c (.arith .add) d e) : SumChain m (es ++ [e]) c

/-- The smaller or the greater of the first of some expressions and that of the others. -/
inductive ExtremumChain (m : Model) (side : Side) : List ExprKey → ExprKey → Prop
  | last (e : ExprKey) : ExtremumChain m side [e] e
  | pick {es : List ExprKey} {d e c : ExprKey} (others : ExtremumChain m side es d)
      (call : m.IsLibraryCall c side.extremumName [e, d]) : ExtremumChain m side (e :: es) c

end Model

namespace LogicOp

/-- What leaves the other operand as it is. -/
def neutral : LogicOp → Bool
  | .and => true
  | .or => false

/-- The reduction of arrays by the operator. -/
def quantifier : LogicOp → Builtin
  | .and => .allOf
  | .or => .anyOf

/-- The function that is the reduction of arrays by the operator. -/
def quantifierName : LogicOp → String
  | .and => "forall"
  | .or => "exists"

end LogicOp

/-- The first of some expressions and the others, all combined by a logical operator. -/
inductive Model.LogicChain (m : Model) (op : LogicOp) : List ExprKey → ExprKey → Prop
  | neutral {c : ExprKey} (neutral : m.IsBool c op.neutral) : LogicChain m op [] c
  | combine {es : List ExprKey} {d e c : ExprKey} (others : LogicChain m op es d)
      (operation : m.IsBinary c (.logic op) e d) : LogicChain m op (e :: es) c

namespace Build

private theorem node_added {m m' : Model} {form : Form} {span : Span} {ty : Ty}
    (h : (node form span ty).run m = (c, m')) :
    (m'.form c, m'.ty c) = (form, ty) ∧ ∀ x, x.index < m.nodes.size → m'.ty x = m.ty x := by
  cases h
  refine ⟨by simp [Model.form, Model.ty, Model.node], fun x lt ↦ ?_⟩
  simp only [Model.ty, Model.node]
  rw [Array.getElem?_push_lt lt, Array.getElem?_eq_getElem lt]

theorem isInt {m m' : Model} {v : Integer} (h : (int v).run m = (c, m')) : m'.IsInt c v :=
  (node_added h).1

theorem isBool {m m' : Model} {b : Bool} (h : (bool b).run m = (c, m')) : m'.IsBool c b :=
  (node_added h).1

/-- Adding an operation on expressions that are there makes it one. -/
theorem isBinary {m m' : Model} {op : BinaryOp} (hl : l.index < m.nodes.size)
    (hr : r.index < m.nodes.size) (h : (binary op l r).run m = (c, m')) : m'.IsBinary c op l r := by
  obtain ⟨added, same⟩ := node_added (m := m) h
  rw [Model.IsBinary, added]
  simp only [commonMode, List.foldl_cons, List.foldl_nil, same l hl, same r hr]

/-- Adding the literal of an array of expressions that are there makes it one. -/
theorem isRow {m m' : Model} (inside : ∀ e ∈ es, e.index < m.nodes.size)
    (h : (array es).run m = (a, m')) : m'.IsRow a es := by
  obtain ⟨added, same⟩ := node_added (m := { m with literals := m.literals + 1 }) h
  have common : commonTy m' es = commonTy m es := by
    have fold (t : Ty) : es.foldl (fun t e ↦ joinTy t (m'.ty e)) t =
        es.foldl (fun t e ↦ joinTy t (m.ty e)) t :=
      List.foldl_ext _ _ _ fun t e mem ↦ congrArg (joinTy t) (same e (inside e mem))
    cases es with
    | nil => rfl
    | cons e es =>
      have first : m'.ty e = m.ty e := same e (inside e List.mem_cons_self)
      simp only [commonTy, first, fold]
  refine ⟨⟨m.literals⟩, ?_⟩
  rw [added, common]
  rfl

end Build

/-! ### Types of literals and chains -/

private theorem max_mode_eq_par_iff {u v : Mode} : max u v = .par ↔ u = .par ∧ v = .par := by
  cases u <;> cases v <;> decide

private theorem max_par (u : Mode) : max Mode.par u = u := by
  cases u <;> rfl

private theorem commonMode_pair {u v : Mode} (hl : (m.ty l).mode = u) (hr : (m.ty r).mode = v) :
    Build.commonMode m [l, r] = max u v := by
  simp only [Build.commonMode, List.foldl_cons, List.foldl_nil, hl, hr, max_par]

/-- An operation on two operands has the type for what decides them. -/
private theorem Model.isBinary_of_ty {op : BinaryOp} {t u : Ty} (form : m.form c = .binary op l r)
    (hl : m.ty l = t) (hr : m.ty r = u) (ty : m.ty c = op.resultTy (max t.mode u.mode)) :
    m.IsBinary c op l r := by
  rw [IsBinary, form, ty, commonMode_pair (congrArg Ty.mode hl) (congrArg Ty.mode hr)]

/-- The type of the elements of a literal is the one that all have, decided by the solver if it
decides one of them. -/
private theorem foldl_joinTy {base : Base} (mode : Mode)
    (scalar : ∀ e ∈ es, ∃ u, m.ty e = ⟨base, u, .always, false, 0⟩) :
    ∃ u, es.foldl (fun t e ↦ Build.joinTy t (m.ty e)) ⟨base, mode, .always, false, 0⟩ =
        ⟨base, u, .always, false, 0⟩ ∧
      (u = .par ↔ mode = .par ∧ ∀ e ∈ es, m.ty e = ⟨base, .par, .always, false, 0⟩) := by
  induction es generalizing mode with
  | nil => exact ⟨mode, rfl, by simp⟩
  | cons e es ih =>
    obtain ⟨⟨v, ty⟩, scalar⟩ := List.forall_mem_cons.1 scalar
    have joined : Build.joinTy ⟨base, mode, .always, false, 0⟩ (m.ty e) =
        ⟨base, max mode v, .always, false, 0⟩ := by
      rw [ty]
      simp [Build.joinTy]
      rfl
    obtain ⟨u, fold, par⟩ := ih (max mode v) scalar
    refine ⟨u, by rw [List.foldl_cons, joined, fold], ?_⟩
    rw [par, max_mode_eq_par_iff, List.forall_mem_cons, ty, and_assoc]
    simp

/-- The type of a literal with elements of some base. -/
private theorem ty_of_isRow {base : Base} (row : m.IsRow a es) (nonempty : es ≠ [])
    (scalar : ∀ e ∈ es, ∃ u, m.ty e = ⟨base, u, .always, false, 0⟩) :
    ∃ u, m.ty a = (⟨base, u, .always, false, 0⟩ : Ty).arrayOf 1 ∧
      (u = .par ↔ ∀ e ∈ es, m.ty e = ⟨base, .par, .always, false, 0⟩) := by
  obtain ⟨key, added⟩ := row
  obtain ⟨-, ty⟩ := Prod.mk.inj added
  cases es with
  | nil => exact absurd rfl nonempty
  | cons e es =>
    obtain ⟨u, first⟩ := scalar e List.mem_cons_self
    obtain ⟨v, fold, par⟩ := foldl_joinTy .par scalar
    refine ⟨v, ?_, by simpa using par⟩
    rw [ty, ← fold]
    simp only [Build.commonTy, first]

private theorem Model.SumChain.ty (chain : m.SumChain es c)
    (integers : ∀ e ∈ es, ∃ mode, m.ty e = .int mode) :
    ∃ mode, m.ty c = .int mode ∧ (mode = .par → ∀ e ∈ es, m.ty e = .int .par) := by
  induction chain with
  | zero zero => exact ⟨.par, (Prod.mk.inj zero).2, fun _ ↦ nofun⟩
  | @add es d e c _ sum ih =>
    obtain ⟨integers, last⟩ := List.forall_mem_append.1 integers
    obtain ⟨v, last⟩ := last e (List.mem_singleton_self e)
    obtain ⟨u, ty, par⟩ := ih integers
    refine ⟨max u v, ?_, fun both ↦ ?_⟩
    · rw [(Prod.mk.inj sum).2, commonMode_pair (congrArg Ty.mode ty) (congrArg Ty.mode last)]
      rfl
    · obtain ⟨hu, hv⟩ := max_mode_eq_par_iff.1 both
      exact List.forall_mem_append.2 ⟨par hu, by simpa [hv] using last⟩

private theorem meaning?_of_pair (side : Side) (u v : Mode) :
    Library.meaning? side.extremumName [.int u, .int v] =
      some (.extremum side, .int (max u v)) := by
  cases side <;> cases u <;> cases v <;> decide +kernel

private theorem meaning?_of_sum (mode : Mode) :
    Library.meaning? "sum" [(Ty.int mode).arrayOf 1] = some (.sum, .int mode) := by
  cases mode <;> decide +kernel

private theorem meaning?_of_quantifier (op : LogicOp) :
    Library.meaning? op.quantifierName [(Ty.bool .par).arrayOf 1] =
      some (op.quantifier, .bool .par) := by
  cases op <;> decide +kernel

/-! ### Literals and operations -/

private theorem cells_fromOne {n : Nat} (h : n < 2 ^ 63) : cells [Build.fromOne n] = n := by
  have count : Integer.ofNat? n = some ⟨n, by omega, by omega⟩ := Integer.ofInt?_eq_some_iff.2 rfl
  simp only [cells_cons, cells_nil, Build.fromOne, count, Option.getD_some, Interval.size,
    Interval.width, Integer.val_one]
  omega

/-- The literal of an array has the array of its elements for its value. -/
theorem resultAt_row (row : ctx.model.IsRow a es) (length : es.length < 2 ^ 63) :
    ∃ u, (ctx.evaluator.arrayOf a).resultAt p = some (some u) ∧ u.elements = es := by
  obtain ⟨key, added⟩ := row
  obtain ⟨form, -⟩ := Prod.mk.inj added
  let u : LazyArray := ⟨key, es, [Build.fromOne es.length], (ctx.model.ty a).elementTy,
    cells_fromOne length⟩
  have byForm : ctx.evaluator.valueByForm a = pure (.array u) := by
    have form' : ctx.evaluator.model.form a = _ := form
    simp only [Evaluator.valueByForm, form']
    rw [LazyArray.ofLiteral, dif_pos (cells_fromOne length)]
    rfl
  have value : GivesAt p (ctx.evaluator.eval a) (.array u) := by
    refine .eval_of_form (by simp [form]) ?_ ?_ <;> rw [byForm]
    · exact .ok _
    · exact .ok _
  exact ⟨u, (resultAt_eq_some_iff (steady_arrayOf a)).2 value.arrayOf, rfl⟩

/-! ### Sums -/

/-- An addition comes to the sum of what its operands come to. -/
private theorem resultAt_add {t : OptionT Option Integer}
    (sum : ctx.model.IsBinary c (.arith .add) d e)
    (before : (ctx.evaluator.eval d).resultAt p = Value.int <$> t) :
    (ctx.evaluator.eval c).resultAt p = Value.int <$> (t >>= fun u ↦
      (ctx.evaluator.intOf e).resultAt p >>= fun v ↦ found? (u.add? v)) := by
  rw [EvalM.resultAt_binary (Prod.mk.inj sum).1, before, bind_map_left, map_bind]
  refine bind_congr fun u ↦ ?_
  rw [EvalM.resultAt_intOf, bind_assoc, map_bind]
  refine bind_congr fun v ↦ ?_
  cases v with
  | int v =>
    change found? (orOverflow _ (u.add? v)).toOption = Value.int <$> found? (u.add? v)
    cases u.add? v <;> rfl
  | _ => rfl

/-- A chain of additions comes to the sum of what the expressions come to. -/
private theorem resultAt_sumChain (chain : ctx.model.SumChain es c) :
    (ctx.evaluator.eval c).resultAt p =
      Value.int <$> total (fun e ↦ (ctx.evaluator.intOf e).resultAt p) .zero es := by
  induction chain with
  | @zero c zero =>
    obtain ⟨form, -⟩ := Prod.mk.inj zero
    have byForm : ctx.evaluator.valueByForm c = pure (.int .zero) := by
      have form' : ctx.evaluator.model.form c = .int .zero := form
      simp only [Evaluator.valueByForm, form']
    rw [EvalM.resultAt_eval_of_form (by simp [form]) (byForm ▸ .ok _), byForm]
    rfl
  | add _ sum ih =>
    rw [resultAt_add sum ih]
    simp only [total, List.foldlM_append, List.foldlM_cons, List.foldlM_nil, bind_pure]

/-- The bounds of a chain of additions are those of the expressions, added in turn. -/
private theorem resultAt_bounds_sumChain (chain : ctx.model.SumChain es c)
    (integers : ∀ e ∈ es, ∃ mode, ctx.model.ty e = .int mode) :
    (ctx.evaluator.bounds c).resultAt p =
      boundsInTurn (fun e ↦ (ctx.evaluator.bounds e).resultAt p) (.point .zero) es := by
  induction chain with
  | @zero c zero =>
    obtain ⟨form, ty⟩ := Prod.mk.inj zero
    have value : (ctx.evaluator.intOf c).resultAt p = some (some .zero) :=
      (resultAt_eq_some_iff (steady_intOf c)).2 (givesAt_intOf form)
    exact (foretells_of_known ty).exact .zero value
  | @add es d e c before sum ih =>
    have integers' := (List.forall_mem_append.1 integers).1
    have chain := before.add sum
    obtain ⟨form, -⟩ := Prod.mk.inj sum
    obtain ⟨mode, ty, known⟩ := chain.ty integers
    have byForm : ctx.evaluator.boundsByForm c = (do
        let r ← ctx.evaluator.bounds d
        let s ← ctx.evaluator.bounds e
        BoundM.ofOption (r.add? s)) := by
      have form' : ctx.evaluator.model.form c = .binary (.arith .add) d e := form
      simp only [Evaluator.boundsByForm, form']
      rfl
    have add (r s : Interval) : Steady (BoundM.ofOption (r.add? s)).run := .findIn _
    have second (r : Interval) := (@steady_bounds ctx e).findThen (add r)
    have steady : Steady (ctx.evaluator.boundsByForm c).run := by
      rw [byForm]
      exact (steady_bounds d).findThen second
    have inTurn : (ctx.evaluator.boundsByForm c).resultAt p =
        boundsInTurn (fun e ↦ (ctx.evaluator.bounds e).resultAt p) (.point .zero) (es ++ [e]) := by
      rw [byForm, BoundM.resultAt_bind (steady_bounds d) second, ih integers']
      simp only [boundsInTurn, List.foldlM_append, List.foldlM_cons, List.foldlM_nil, bind_pure]
      exact bind_congr fun r ↦ BoundM.resultAt_bind (steady_bounds e) (add r)
    rw [resultAt_bounds_of_form (by simp [form]) ty steady fun par ↦ ?_, inTurn]
    rw [EvalM.resultAt_intOf_of_eval (resultAt_sumChain chain), inTurn]
    exact (foretells_total fun e mem ↦ foretells_of_known (known par e mem)).1

/-! ### Extremes -/

private theorem Model.ExtremumChain.ne_nil (chain : m.ExtremumChain side es c) : es ≠ [] := by
  cases chain <;> exact List.cons_ne_nil _ _

/-- A call for the smaller or the greater of two values comes to it, and its bounds are worked out
from those of the two. -/
private theorem resultAt_pick
    (computes : ctx.Computes c side.extremumName [e, d] (.extremum side)) :
    (ctx.evaluator.intOf c).resultAt p = ((ctx.evaluator.intOf e).resultAt p >>= fun v ↦
      side.pick v <$> (ctx.evaluator.intOf d).resultAt p) ∧
    Steady (ctx.evaluator.boundsByForm c).run ∧
    (ctx.evaluator.boundsByForm c).resultAt p = ((ctx.evaluator.bounds e).resultAt p >>= fun r ↦
      side.pickBounds r <$> (ctx.evaluator.bounds d).resultAt p) := by
  have apply : ctx.evaluator.apply [e, d] (.extremum side) = Value.int <$> (do
      let v ← ctx.evaluator.intOf e
      let w ← ctx.evaluator.intOf d
      return side.pick v w : EvalM Integer) := rfl
  have byForm : ctx.evaluator.boundsByForm c = (do
      let r ← ctx.evaluator.bounds e
      let s ← ctx.evaluator.bounds d
      return side.pickBounds r s) := by
    rw [computes.boundsByForm]
    cases side <;> rfl
  have second (v : Integer) := (@steady_intOf ctx d).andThen fun w ↦ .ok (side.pick v w)
  have second' (r : Interval) :=
    (@steady_bounds ctx d).findThen fun s ↦ .find (side.pickBounds r s)
  have both := (@steady_intOf ctx e).andThen second
  refine ⟨EvalM.resultAt_intOf_of_eval ?_, ?_, ?_⟩
  · rw [computes.resultAt_eval (apply ▸ both.mapValue _), apply, EvalM.resultAt_map _ both,
      EvalM.resultAt_bind (steady_intOf e) second]
    refine congrArg (Value.int <$> ·) (bind_congr fun v ↦ ?_)
    rw [bind_pure_comp]
    exact EvalM.resultAt_map _ (steady_intOf d)
  · rw [byForm]
    exact (steady_bounds e).findThen second'
  · rw [byForm, BoundM.resultAt_bind (steady_bounds e) second']
    refine bind_congr fun r ↦ ?_
    rw [BoundM.resultAt_bind (steady_bounds d) fun s ↦ .find _, ← bind_pure_comp]
    rfl

section Calls

variable {user : List Overload}
  (declared : ctx.model.overloads.toList = Library.declarations ++ user)
  (registered : ctx.registry = .ofImplementations Library.implementations)

include declared registered

private theorem Model.ExtremumChain.ty (chain : ctx.model.ExtremumChain side es c)
    (integers : ∀ e ∈ es, ∃ mode, ctx.model.ty e = .int mode) :
    ∃ mode, ctx.model.ty c = .int mode ∧ (mode = .par → ∀ e ∈ es, ctx.model.ty e = .int .par) := by
  induction chain with
  | last e =>
    obtain ⟨u, ty⟩ := integers e (List.mem_singleton_self e)
    exact ⟨u, ty, fun par ↦ by simpa [par] using ty⟩
  | @pick es d e c _ call ih =>
    obtain ⟨⟨u, first⟩, integers⟩ := List.forall_mem_cons.1 integers
    obtain ⟨v, ty, par⟩ := ih integers
    obtain ⟨-, ty'⟩ := call.computes declared registered (by
      simpa only [List.map_cons, List.map_nil, first, ty] using meaning?_of_pair side u v)
    refine ⟨max u v, ty', fun both ↦ ?_⟩
    obtain ⟨hu, hv⟩ := max_mode_eq_par_iff.1 both
    exact List.forall_mem_cons.2 ⟨by rw [first, hu], par hv⟩

/-- Nested calls for the smaller or the greater of two values come to the value nearest to one end,
and so do their bounds. -/
private theorem resultAt_extremumChain (chain : ctx.model.ExtremumChain side es c)
    (integers : ∀ e ∈ es, ∃ mode, ctx.model.ty e = .int mode) :
    (ctx.evaluator.intOf c).resultAt p =
        foldNested? side.pick (fun e ↦ (ctx.evaluator.intOf e).resultAt p) es ∧
      (ctx.evaluator.bounds c).resultAt p =
        foldNested? side.pickBounds (fun e ↦ (ctx.evaluator.bounds e).resultAt p) es := by
  induction chain with
  | last e => exact ⟨rfl, rfl⟩
  | @pick es d e c others call ih =>
    have chain := others.pick call
    obtain ⟨mode, ty, known⟩ := chain.ty declared registered integers
    obtain ⟨⟨u, first⟩, integers⟩ := List.forall_mem_cons.1 integers
    obtain ⟨v, ty', -⟩ := others.ty declared registered integers
    obtain ⟨computes, -⟩ := call.computes declared registered (by
      simpa only [List.map_cons, List.map_nil, first, ty'] using meaning?_of_pair side u v)
    obtain ⟨value, steady, bounds⟩ := resultAt_pick (p := p) computes
    obtain ⟨ihValue, ihBounds⟩ := ih integers
    rw [ihValue] at value
    rw [ihBounds] at bounds
    have value := value.trans (foldNested?_cons
      (f := fun e ↦ (ctx.evaluator.intOf e).resultAt p) others.ne_nil).symm
    have bounds := bounds.trans (foldNested?_cons
      (f := fun e ↦ (ctx.evaluator.bounds e).resultAt p) others.ne_nil).symm
    refine ⟨value, ?_⟩
    rw [resultAt_bounds_of_form computes.form_ne_int ty steady fun par ↦ ?_, bounds]
    rw [value, bounds]
    exact foretells_foldNested? side fun e mem ↦ foretells_of_known (known par e mem)

end Calls

/-! ### Conjunctions and disjunctions -/

/-- What a reduction by a logical operator comes to: it stops at what decides. -/
private def scan (op : LogicOp) (f : ExprKey → OptionT Option Bool) :
    List ExprKey → OptionT Option Bool
  | [] => pure op.neutral
  | e :: es => f e >>= fun b ↦ if b = op.neutral then scan op f es else pure b

private theorem resultAt_allM (es : List ExprKey) :
    (es.allM ctx.evaluator.boolOf).resultAt p =
      scan .and (fun e ↦ (ctx.evaluator.boolOf e).resultAt p) es := by
  induction es with
  | nil => rfl
  | cons e es ih =>
    have step : (e :: es).allM ctx.evaluator.boolOf = ctx.evaluator.boolOf e >>= fun b ↦
        if b = true then es.allM ctx.evaluator.boolOf else pure false :=
      bind_congr fun b ↦ by cases b <;> rfl
    rw [step, EvalM.resultAt_bind (steady_boolOf e) fun b ↦ ?_]
    · refine bind_congr fun b ↦ ?_
      cases b with
      | true => exact ih
      | false => rfl
    · cases b with
      | true => exact .allM es steady_boolOf
      | false => exact .ok false

private theorem resultAt_anyM (es : List ExprKey) :
    (es.anyM ctx.evaluator.boolOf).resultAt p =
      scan .or (fun e ↦ (ctx.evaluator.boolOf e).resultAt p) es := by
  induction es with
  | nil => rfl
  | cons e es ih =>
    have step : (e :: es).anyM ctx.evaluator.boolOf = ctx.evaluator.boolOf e >>= fun b ↦
        if b = false then es.anyM ctx.evaluator.boolOf else pure true :=
      bind_congr fun b ↦ by cases b <;> rfl
    rw [step, EvalM.resultAt_bind (steady_boolOf e) fun b ↦ ?_]
    · refine bind_congr fun b ↦ ?_
      cases b with
      | true => rfl
      | false => exact ih
    · cases b with
      | true => exact .ok true
      | false => exact .anyM es steady_boolOf

private theorem resultAt_quantifier {op : LogicOp}
    (computes : ctx.Computes c op.quantifierName [a] op.quantifier) :
    (ctx.evaluator.boolOf c).resultAt p = ((ctx.evaluator.arrayOf a).resultAt p >>=
      fun u ↦ scan op (fun e ↦ (ctx.evaluator.boolOf e).resultAt p) u.elements) := by
  apply EvalM.resultAt_boolOf_of_eval
  rw [map_bind]
  cases op with
  | and =>
    rw [computes.resultAt_reduction rfl nofun]
    refine bind_congr fun u ↦ ?_
    rw [EvalM.resultAt_map _ (.allM u.elements steady_boolOf), resultAt_allM]
  | or =>
    rw [computes.resultAt_reduction rfl nofun]
    refine bind_congr fun u ↦ ?_
    rw [EvalM.resultAt_map _ (.anyM u.elements steady_boolOf), resultAt_anyM]

/-- An operand that decides is the result, and the neutral one leaves it to the other operand. -/
private theorem decided?_bool (op : LogicOp) (b : Bool) :
    (BinaryOp.logic op).decided? (.bool b) = if b = op.neutral then none else some (.bool b) := by
  cases op <;> cases b <;> rfl

private theorem decided?_of_kind_ne (op : LogicOp) {v : Value} (other : v.kind ≠ .bool) :
    (BinaryOp.logic op).decided? v = none := by
  cases v with
  | bool b => exact absurd rfl other
  | _ => cases op <;> rfl

/-- A chain of conjunctions or disjunctions has the value that the reduction has. -/
private theorem resultAt_logicChain {op : LogicOp} (chain : ctx.model.LogicChain op es c)
    (v : Value) : (ctx.evaluator.eval c).resultAt p = some (some v) ↔
      ∃ b, v = .bool b ∧
        scan op (fun e ↦ (ctx.evaluator.boolOf e).resultAt p) es = some (some b) := by
  induction chain generalizing v with
  | @neutral c neutral =>
    obtain ⟨form, -⟩ := Prod.mk.inj neutral
    have byForm : ctx.evaluator.valueByForm c = pure (.bool op.neutral) := by
      have form' : ctx.evaluator.model.form c = .bool op.neutral := form
      simp only [Evaluator.valueByForm, form']
    rw [EvalM.resultAt_eval_of_form (by simp [form]) (byForm ▸ .ok _), byForm, EvalM.resultAt_pure]
    constructor
    · intro h
      exact ⟨_, (Option.some.inj (Option.some.inj h)).symm, rfl⟩
    · rintro ⟨b, rfl, h⟩
      rw [Option.some.inj (Option.some.inj h)]
      rfl
  | @combine es d e c _ operation ih =>
    rw [EvalM.resultAt_binary (Prod.mk.inj operation).1, scan]
    constructor
    · intro h
      obtain ⟨w, first, h⟩ := bind_eq_some_iff.1 h
      cases w with
      | bool x =>
        have first' := EvalM.resultAt_boolOf_eq_some_iff.2 first
        rw [decided?_bool] at h
        by_cases neutral : x = op.neutral
        · rw [if_pos neutral] at h
          obtain ⟨w, rest, h⟩ := bind_eq_some_iff.1 h
          obtain ⟨b, rfl, scanned⟩ := (ih w).1 rest
          cases h
          exact ⟨b, rfl, bind_eq_some_iff.2 ⟨x, first', by rwa [if_pos neutral]⟩⟩
        · rw [if_neg neutral] at h
          cases h
          exact ⟨x, rfl, bind_eq_some_iff.2 ⟨x, first', by rw [if_neg neutral]; rfl⟩⟩
      | int | set | array =>
        rw [decided?_of_kind_ne op (by simp [Value.kind])] at h
        obtain ⟨w, -, h⟩ := bind_eq_some_iff.1 h
        cases h
    · rintro ⟨b, rfl, h⟩
      obtain ⟨x, first, h⟩ := bind_eq_some_iff.1 h
      refine bind_eq_some_iff.2 ⟨_, EvalM.resultAt_boolOf_eq_some_iff.1 first, ?_⟩
      rw [decided?_bool]
      by_cases neutral : x = op.neutral
      · rw [if_pos neutral] at h ⊢
        exact bind_eq_some_iff.2 ⟨_, (ih _).2 ⟨b, rfl, h⟩, rfl⟩
      · rw [if_neg neutral] at h ⊢
        cases h
        rfl

/-! ### The agreement -/

/-- Let an array literal hold some expressions, and let a reduction of it mean a function of the
library. If the expressions are integers, then the sum of the array comes to the same as adding
them in turn to 0, and its bounds, whenever the search for them ends, are those of the additions;
bounds of the additions are always bounds of the sum. The least and the greatest element of the
array come to the same as the nested calls for the smaller and the greater of two values, and have
the same bounds. If the expressions are known booleans, then the reductions of the array by
conjunction and disjunction have the values that the nested conjunctions and disjunctions have. -/
theorem reductions_agree_with_chains {user : List Overload}
    (declared : ctx.model.overloads.toList = Library.declarations ++ user)
    (registered : ctx.registry = .ofImplementations Library.implementations)
    (nonempty : es ≠ []) (length : es.length < 2 ^ 63) (row : ctx.model.IsRow a es) (p : Pending) :
    ((∀ e ∈ es, ∃ mode, ctx.model.ty e = .int mode) →
      (∀ r c, ctx.model.IsLibraryCall r "sum" [a] → ctx.model.SumChain es c →
        (ctx.evaluator.intOf r).resultAt p = (ctx.evaluator.intOf c).resultAt p ∧
        ((ctx.evaluator.bounds r).resultAt p ≠ none →
          (ctx.evaluator.bounds r).resultAt p = (ctx.evaluator.bounds c).resultAt p) ∧
        ∀ b, (ctx.evaluator.bounds c).resultAt p = some (some b) →
          (ctx.evaluator.bounds r).resultAt p = some (some b)) ∧
      ∀ side r c, ctx.model.IsLibraryCall r (Side.extremumName side) [a] →
        ctx.model.ExtremumChain side es c →
        (ctx.evaluator.intOf r).resultAt p = (ctx.evaluator.intOf c).resultAt p ∧
        (ctx.evaluator.bounds r).resultAt p = (ctx.evaluator.bounds c).resultAt p) ∧
    ((∀ e ∈ es, ctx.model.ty e = .bool .par) → ∀ op r c,
      ctx.model.IsLibraryCall r (LogicOp.quantifierName op) [a] → ctx.model.LogicChain op es c →
      ∀ b, (ctx.evaluator.boolOf r).resultAt p = some (some b) ↔
        (ctx.evaluator.boolOf c).resultAt p = some (some b)) := by
  obtain ⟨u, array, elements⟩ := resultAt_row (p := p) row length
  have reduced {α : Type} (f : LazyArray → OptionT Option α) :
      ((ctx.evaluator.arrayOf a).resultAt p >>= f) = f u := by
    rw [array]
    rfl
  refine ⟨fun integers ↦ ?integers, fun booleans op r c reduction chain b ↦ ?booleans⟩
  case integers =>
    obtain ⟨mode, ty, par⟩ := ty_of_isRow row nonempty integers
    change ctx.model.ty a = (Ty.int mode).arrayOf 1 at ty
    have known (known : mode = .par) (v : LazyArray)
        (value : (ctx.evaluator.arrayOf a).resultAt p = some (some v)) :
        ∀ e ∈ v.elements, ctx.model.ty e = .int .par := by
      rw [array] at value
      obtain rfl := Option.some.inj (Option.some.inj value)
      rw [elements]
      exact par.1 known
    refine ⟨fun r c sum chain ↦ ?sum, fun side r c extremum chain ↦ ?extremum⟩
    case sum =>
      obtain ⟨computes, result⟩ := sum.computes declared registered (by
        simpa only [List.map_cons, List.map_nil, ty] using meaning?_of_sum mode)
      have value := EvalM.resultAt_intOf_of_eval (resultAt_sum (p := p) computes)
      have bounds := resultAt_bounds_sum computes result known
      rw [reduced, elements] at value bounds
      have inTurn := resultAt_bounds_sumChain (p := p) chain integers
      rw [value, EvalM.resultAt_intOf_of_eval (resultAt_sumChain (p := p) chain), bounds, inTurn]
      refine ⟨rfl, fun ends ↦ ?_, fun b found ↦ boundsAtOnce_of_boundsInTurn found⟩
      obtain ⟨o, ends⟩ := Option.ne_none_iff_exists'.1 ends
      exact ends.trans (boundsInTurn_of_boundsAtOnce ends).symm
    case extremum =>
      have row : (ctx.model.ty a).elementTy = .int mode ∧ (ctx.model.ty a).rank ≠ 0 ∧
          (ctx.model.ty a).isSet = false := by
        rw [ty]
        exact ⟨rfl, Int.one_ne_zero, rfl⟩
      obtain ⟨integers', array', single⟩ := row
      obtain ⟨means, -⟩ := Library.meaning?_of_integers integers' array' side
      obtain ⟨computes, result⟩ := extremum.computes declared registered means
      have value := EvalM.resultAt_intOf_of_eval (resultAt_extremum (p := p) computes single)
      have bounds := resultAt_bounds_extremum computes result single known
      rw [reduced, elements] at value bounds
      obtain ⟨value', bounds'⟩ :=
        resultAt_extremumChain (p := p) declared registered chain integers
      exact ⟨value.trans value'.symm, bounds.trans bounds'.symm⟩
  case booleans =>
    obtain ⟨mode, ty, par⟩ := ty_of_isRow row nonempty fun e mem ↦ ⟨.par, booleans e mem⟩
    rw [par.2 booleans] at ty
    change ctx.model.ty a = (Ty.bool .par).arrayOf 1 at ty
    obtain ⟨computes, -⟩ := reduction.computes declared registered (by
      simpa only [List.map_cons, List.map_nil, ty] using meaning?_of_quantifier op)
    rw [resultAt_quantifier computes, reduced, elements, EvalM.resultAt_boolOf_eq_some_iff,
      resultAt_logicChain chain]
    simp

/-! ### Some reductions and chains -/

/-- The model with the library, of which everything is bound, after some changes. -/
def Library.context (cs : List Change) : Context where
  model := model.changed cs
  registry := .ofImplementations implementations

theorem Library.overloads_context {cs : List Change} {user : List Overload}
    (functions : cs.flatMap Change.functions = user) :
    (context cs).model.overloads.toList = declarations ++ user := by
  rw [context, Model.overloads_changed, overloads_model, List.append_nil, functions]

/-- The numbers 1 and 4, a variable between them, and true and false; the literals of an array of
the numbers, of one with the variable and of one of the booleans; and reductions of the arrays and
the chains for them. Some functions are declared beside the library. -/
def chained (user : List Overload) : List Change :=
  user.map .addOverload ++
    [.int .one, .int (.ofByte 4), .between ⟨0⟩ ⟨1⟩,
      .addVariable ⟨"x", .nowhere, .int .var, some ⟨2⟩, [], none⟩, .name ⟨0⟩,
      .array [⟨0⟩, ⟨1⟩], .array [⟨0⟩, ⟨3⟩], .call "sum" [⟨4⟩], .call "sum" [⟨5⟩],
      .call "max" [⟨5⟩], .int .zero, .binary (.arith .add) ⟨9⟩ ⟨0⟩,
      .binary (.arith .add) ⟨10⟩ ⟨1⟩, .binary (.arith .add) ⟨10⟩ ⟨3⟩, .call "max" [⟨0⟩, ⟨3⟩],
      .bool true, .bool false, .array [⟨14⟩, ⟨15⟩], .call "forall" [⟨16⟩],
      .binary (.logic .and) ⟨15⟩ ⟨14⟩, .binary (.logic .and) ⟨14⟩ ⟨18⟩]

/-- The model of these. -/
def chainedContext (user : List Overload) : Context := Library.context (chained user)

private theorem overloads_chained (user : List Overload) :
    (chainedContext user).model.overloads.toList = Library.declarations ++ user :=
  Library.overloads_context (by simp [chained, List.flatMap_map, Change.functions])

/-- The sum with the variable has the bounds 2 and 5 of the chain of additions, the greater of the
two has the bounds 1 and 4 either way, and not both booleans are true. -/
theorem reductions_agree_with_some_chains :
    ((chainedContext []).model.IsRow ⟨5⟩ [⟨0⟩, ⟨3⟩] ∧
      (chainedContext []).model.IsLibraryCall ⟨7⟩ "sum" [⟨5⟩] ∧
      (chainedContext []).model.SumChain [⟨0⟩, ⟨3⟩] ⟨12⟩ ∧
      ((chainedContext []).evaluator.bounds ⟨7⟩).resultAt (.empty none) =
        some (some ⟨.ofByte 2, .ofByte 5⟩) ∧
      ((chainedContext []).evaluator.bounds ⟨12⟩).resultAt (.empty none) =
        some (some ⟨.ofByte 2, .ofByte 5⟩)) ∧
    ((chainedContext []).model.IsLibraryCall ⟨8⟩ "max" [⟨5⟩] ∧
      (chainedContext []).model.ExtremumChain .high [⟨0⟩, ⟨3⟩] ⟨13⟩ ∧
      ((chainedContext []).evaluator.bounds ⟨13⟩).resultAt (.empty none) =
        some (some ⟨.one, .ofByte 4⟩)) ∧
    (chainedContext []).model.IsRow ⟨16⟩ [⟨14⟩, ⟨15⟩] ∧
    (chainedContext []).model.IsLibraryCall ⟨17⟩ "forall" [⟨16⟩] ∧
    (chainedContext []).model.LogicChain .and [⟨14⟩, ⟨15⟩] ⟨19⟩ ∧
    ((chainedContext []).evaluator.boolOf ⟨19⟩).resultAt (.empty none) = some (some false) := by
  have declared := overloads_chained []
  have registered : (chainedContext []).registry = .ofImplementations Library.implementations := rfl
  have row : (chainedContext []).model.IsRow ⟨5⟩ [⟨0⟩, ⟨3⟩] := ⟨⟨1⟩, by decide +kernel⟩
  have row' : (chainedContext []).model.IsRow ⟨16⟩ [⟨14⟩, ⟨15⟩] := ⟨⟨2⟩, by decide +kernel⟩
  have shown : ((chainedContext []).model.IsLibraryCall ⟨7⟩ "sum" [⟨5⟩] ∧
        (chainedContext []).model.IsLibraryCall ⟨8⟩ "max" [⟨5⟩] ∧
        (chainedContext []).model.IsLibraryCall ⟨13⟩ "max" [⟨0⟩, ⟨3⟩] ∧
        (chainedContext []).model.IsLibraryCall ⟨17⟩ "forall" [⟨16⟩] ∧
        (chainedContext []).model.IsInt ⟨9⟩ .zero ∧ (chainedContext []).model.IsBool ⟨14⟩ true) ∧
      ((chainedContext []).model.ty ⟨0⟩ = .int .par ∧ (chainedContext []).model.ty ⟨3⟩ = .int .var ∧
        (chainedContext []).model.ty ⟨9⟩ = .int .par ∧
        (chainedContext []).model.ty ⟨10⟩ = .int .par ∧
        (chainedContext []).model.ty ⟨12⟩ = .int .var ∧
        (chainedContext []).model.ty ⟨14⟩ = .bool .par ∧
        (chainedContext []).model.ty ⟨15⟩ = .bool .par ∧
        (chainedContext []).model.ty ⟨18⟩ = .bool .par ∧
        (chainedContext []).model.ty ⟨19⟩ = .bool .par) ∧
      ((chainedContext []).model.form ⟨10⟩ = .binary (.arith .add) ⟨9⟩ ⟨0⟩ ∧
        (chainedContext []).model.form ⟨12⟩ = .binary (.arith .add) ⟨10⟩ ⟨3⟩ ∧
        (chainedContext []).model.form ⟨18⟩ = .binary (.logic .and) ⟨15⟩ ⟨14⟩ ∧
        (chainedContext []).model.form ⟨19⟩ = .binary (.logic .and) ⟨14⟩ ⟨18⟩) ∧
      ((chainedContext []).evaluator.bounds ⟨7⟩).resultAt (.empty none) =
        some (some ⟨.ofByte 2, .ofByte 5⟩) ∧
      ((chainedContext []).evaluator.bounds ⟨8⟩).resultAt (.empty none) =
        some (some ⟨.one, .ofByte 4⟩) ∧
      ((chainedContext []).evaluator.boolOf ⟨17⟩).resultAt (.empty none) = some (some false) := by
    decide +kernel
  obtain ⟨⟨sum, maximum, pick, all, zero, neutral⟩,
    ⟨ty₀, ty₃, ty₉, ty₁₀, ty₁₂, ty₁₄, ty₁₅, ty₁₈, ty₁₉⟩, ⟨first, second, inner, outer⟩, bounds,
    bounds', value⟩ := shown
  have sumChain : (chainedContext []).model.SumChain [⟨0⟩, ⟨3⟩] ⟨12⟩ :=
    .add (.add (.zero zero) (Model.isBinary_of_ty first ty₉ ty₀ ty₁₀))
      (Model.isBinary_of_ty second ty₁₀ ty₃ ty₁₂)
  have extremumChain : (chainedContext []).model.ExtremumChain .high [⟨0⟩, ⟨3⟩] ⟨13⟩ :=
    .pick (.last ⟨3⟩) pick
  have logicChain : (chainedContext []).model.LogicChain .and [⟨14⟩, ⟨15⟩] ⟨19⟩ :=
    .combine
      (.combine (.neutral neutral)
        (Model.isBinary_of_ty inner ty₁₅ ty₁₄ ty₁₈))
      (Model.isBinary_of_ty outer ty₁₄ ty₁₈ ty₁₉)
  obtain ⟨integers, -⟩ := reductions_agree_with_chains declared registered (by simp) (by simp) row
    (.empty none)
  obtain ⟨-, booleans⟩ := reductions_agree_with_chains declared registered (by simp) (by simp) row'
    (.empty none)
  obtain ⟨sums, extremes⟩ := integers (by simp [ty₀, ty₃])
  obtain ⟨-, ends, -⟩ := sums _ _ sum sumChain
  obtain ⟨-, same⟩ := extremes .high _ _ maximum extremumChain
  refine ⟨⟨row, sum, sumChain, bounds, ?_⟩, ⟨maximum, extremumChain, same.symm.trans bounds'⟩, row',
    all, logicChain, (booleans (by simp [ty₁₄, ty₁₅]) .and _ _ all logicChain false).1 value⟩
  rw [← ends (by simp [bounds]), bounds]

/-- A function of integers in a row, which takes less than the one of the library. -/
def sumOfIntegers : Overload := ⟨"sum", [(Ty.int .par).arrayOf 1], .int .par⟩

/-- The greatest number twice and an element of an array that is defined to hold that element, the
literal of an array of these, its sum and the chain of additions. -/
def chainedEndless : List Change :=
  [.int .greatest, .int .one,
    .addVariable ⟨"x", .nowhere, (Ty.int .par).arrayOf 1, none, [none], none⟩, .name ⟨0⟩,
    .element ⟨2⟩ [⟨1⟩], .array [⟨3⟩], .define ⟨0⟩ ⟨4⟩, .array [⟨0⟩, ⟨0⟩, ⟨3⟩], .call "sum" [⟨5⟩],
    .int .zero, .binary (.arith .add) ⟨7⟩ ⟨0⟩, .binary (.arith .add) ⟨8⟩ ⟨0⟩,
    .binary (.arith .add) ⟨9⟩ ⟨3⟩]

/-- The model of these. -/
def endlessContext : Context := Library.context chainedEndless

/-- The function of integers in a row takes the array and nothing computes it, while the chain of
additions comes to 5. And in a model with nothing but the library, the search for bounds of a sum
goes on to an element for which it does not end, while there are none for the chain of additions,
which has left the range of values before. -/
theorem reductions_differ_from_chains :
    ((chainedContext [sumOfIntegers]).model.overloads.toList =
        Library.declarations ++ [sumOfIntegers] ∧
      Registry.ofLibrary (chainedContext [sumOfIntegers]).model =
        .ok (chainedContext [sumOfIntegers]).registry ∧
      (chainedContext [sumOfIntegers]).model.IsRow ⟨4⟩ [⟨0⟩, ⟨1⟩] ∧
      (∀ e ∈ [⟨0⟩, ⟨1⟩], (chainedContext [sumOfIntegers]).model.ty e = .int .par) ∧
      (chainedContext [sumOfIntegers]).model.IsCall ⟨6⟩ "sum" [⟨4⟩] ∧
      (chainedContext [sumOfIntegers]).model.SumChain [⟨0⟩, ⟨1⟩] ⟨11⟩ ∧
      ¬∀ v, ((chainedContext [sumOfIntegers]).evaluator.intOf ⟨6⟩).resultAt (.empty none) =
          some (some v) ↔
        ((chainedContext [sumOfIntegers]).evaluator.intOf ⟨11⟩).resultAt (.empty none) =
          some (some v)) ∧
    endlessContext.model.overloads.toList = Library.declarations ++ [] ∧
    Registry.ofLibrary endlessContext.model = .ok endlessContext.registry ∧
    endlessContext.model.IsRow ⟨5⟩ [⟨0⟩, ⟨0⟩, ⟨3⟩] ∧
    (∀ e ∈ [⟨0⟩, ⟨0⟩, ⟨3⟩], endlessContext.model.ty e = .int .par) ∧
    endlessContext.model.IsCall ⟨6⟩ "sum" [⟨5⟩] ∧
    endlessContext.model.SumChain [⟨0⟩, ⟨0⟩, ⟨3⟩] ⟨10⟩ ∧
    (endlessContext.evaluator.bounds ⟨6⟩).resultAt (.empty none) = none ∧
    (endlessContext.evaluator.bounds ⟨10⟩).resultAt (.empty none) = some none := by
  have declared := overloads_chained [sumOfIntegers]
  have shown : ((chainedContext [sumOfIntegers]).model.IsCall ⟨6⟩ "sum" [⟨4⟩] ∧
      (chainedContext [sumOfIntegers]).model.IsInt ⟨9⟩ .zero) ∧
      ((chainedContext [sumOfIntegers]).model.ty ⟨0⟩ = .int .par ∧
        (chainedContext [sumOfIntegers]).model.ty ⟨1⟩ = .int .par ∧
        (chainedContext [sumOfIntegers]).model.ty ⟨9⟩ = .int .par ∧
        (chainedContext [sumOfIntegers]).model.ty ⟨10⟩ = .int .par ∧
        (chainedContext [sumOfIntegers]).model.ty ⟨11⟩ = .int .par) ∧
      ((chainedContext [sumOfIntegers]).model.form ⟨10⟩ = .binary (.arith .add) ⟨9⟩ ⟨0⟩ ∧
        (chainedContext [sumOfIntegers]).model.form ⟨11⟩ = .binary (.arith .add) ⟨10⟩ ⟨1⟩) ∧
      ((chainedContext [sumOfIntegers]).evaluator.intOf ⟨11⟩).resultAt (.empty none) =
        some (some (.ofByte 5)) ∧
      ((chainedContext [sumOfIntegers]).evaluator.intOf ⟨6⟩).resultAt (.empty none) =
        some none := by
    decide +kernel
  have shown' : endlessContext.model.overloads.toList = Library.declarations ++ [] ∧
      (endlessContext.model.IsCall ⟨6⟩ "sum" [⟨5⟩] ∧ endlessContext.model.IsInt ⟨7⟩ .zero) ∧
      (endlessContext.model.ty ⟨0⟩ = .int .par ∧ endlessContext.model.ty ⟨3⟩ = .int .par ∧
        endlessContext.model.ty ⟨7⟩ = .int .par ∧ endlessContext.model.ty ⟨8⟩ = .int .par ∧
        endlessContext.model.ty ⟨9⟩ = .int .par ∧ endlessContext.model.ty ⟨10⟩ = .int .par) ∧
      (endlessContext.model.form ⟨8⟩ = .binary (.arith .add) ⟨7⟩ ⟨0⟩ ∧
        endlessContext.model.form ⟨9⟩ = .binary (.arith .add) ⟨8⟩ ⟨0⟩ ∧
        endlessContext.model.form ⟨10⟩ = .binary (.arith .add) ⟨9⟩ ⟨3⟩) ∧
      (endlessContext.evaluator.bounds ⟨6⟩).resultAt (.empty none) = none ∧
      (endlessContext.evaluator.bounds ⟨10⟩).resultAt (.empty none) = some none := by
    decide +kernel
  obtain ⟨⟨sum, zero⟩, ⟨ty₀, ty₁, ty₉, ty₁₀, ty₁₁⟩, ⟨first, second⟩, five, fails⟩ := shown
  have sumChain : (chainedContext [sumOfIntegers]).model.SumChain [⟨0⟩, ⟨1⟩] ⟨11⟩ :=
    .add (.add (.zero zero) (Model.isBinary_of_ty first ty₉ ty₀ ty₁₀))
      (Model.isBinary_of_ty second ty₁₀ ty₁ ty₁₁)
  refine ⟨⟨declared, Registry.ofLibrary_eq_ok declared (by decide +kernel),
    ⟨⟨0⟩, by decide +kernel⟩, by simp [ty₀, ty₁], sum, sumChain, fun agree ↦ ?_⟩, ?_⟩
  · have five := (agree (.ofByte 5)).2 five
    rw [fails] at five
    cases five
  obtain ⟨declared', ⟨sum', zero'⟩, ⟨ty₀, ty₃, ty₇, ty₈, ty₉, ty₁₀⟩, ⟨first, second, third⟩,
    endless, ends⟩ := shown'
  have sumChain' : endlessContext.model.SumChain [⟨0⟩, ⟨0⟩, ⟨3⟩] ⟨10⟩ :=
    .add (.add (.add (.zero zero') (Model.isBinary_of_ty first ty₇ ty₀ ty₈))
      (Model.isBinary_of_ty second ty₈ ty₀ ty₉)) (Model.isBinary_of_ty third ty₉ ty₃ ty₁₀)
  exact ⟨declared', Registry.ofLibrary_eq_ok declared' rfl, ⟨⟨1⟩, by decide +kernel⟩,
    by simp [ty₀, ty₃], sum', sumChain', endless, ends⟩

end ConstraintEval
