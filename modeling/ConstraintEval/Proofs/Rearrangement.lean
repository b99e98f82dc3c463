import ConstraintEval.Proofs.AtPending
import ConstraintEval.Proofs.Binding
import ConstraintEval.Proofs.Overloads.Registration

/-!
# Reductions of rearranged arrays

A reduction depends on the elements of its argument and not on their index ranges, so it comes to
the same for an array and for the same elements in other dimensions. But the type of a rearranged
array has the base variable for its elements, whatever they are, and the base variable fits only
parameters that take every base. So a call of a reduction of a rearranged array is resolved only
where the reduction takes arrays of all kinds, as the number of elements does.
-/

namespace ConstraintEval

open Pending

variable {α : Type} {ctx : Context} {p q : Pending}

/-! ### What reductions see -/

/-- Whether a builtin reduces the elements of an array to a value. The union of domains is left out,
as it is taken where the chain of names that leads to the array ends. -/
def Builtin.reduces : Builtin → Bool
  | .extremum _ | .sum | .length | .allOf | .anyOf | .boundOfElements _ => true
  | _ => false

namespace Evaluator

/-- What a reduction makes of the elements of an array. -/
def reduction? (ev : Evaluator) : Builtin → Option (List ExprKey → EvalM Value)
  | .extremum side => some fun xs ↦ do
    return .int (← side.furthest side.extremumName (← xs.mapM ev.intOf))
  | .sum => some fun xs ↦ Value.int <$> xs.foldlM (fun total x ↦ do
    EvalM.ofOption (.overflow "sum") (total.add? (← ev.intOf x))) .zero
  | .length => some fun xs ↦
    Value.int <$> EvalM.ofOption (.overflow "length") (Integer.ofNat? xs.length)
  | .allOf => some fun xs ↦ Value.bool <$> xs.allM ev.boolOf
  | .anyOf => some fun xs ↦ Value.bool <$> xs.anyM ev.boolOf
  | .boundOfElements side => some fun xs ↦ do
    return .int (← side.furthest side.arrayBoundName (← xs.mapM fun x ↦
      return side.endOf (← ev.requiredBounds side.arrayBoundName x)))
  | _ => none

variable {ev : Evaluator} {b : Builtin} {f : List ExprKey → EvalM Value} {x : ExprKey}

theorem exists_reduction? (ev : Evaluator) (h : b.reduces = true) :
    ∃ f, ev.reduction? b = some f := by
  cases b with
  | extremum | sum | length | allOf | anyOf | boundOfElements => exact ⟨_, rfl⟩
  | _ => cases h

/-- A reduction evaluates its argument and then sees no more of the array than its elements. -/
theorem apply_of_reduction? (h : ev.reduction? b = some f)
    (single : ∀ side, b = .extremum side → (ev.model.ty x).isSet = false) :
    ev.apply [x] b = ev.arrayOf x >>= fun a ↦ f a.elements := by
  cases b with
  | extremum side =>
    cases h
    simp [apply, extremum, single side rfl]
  | sum =>
    cases h
    simp [apply, sum, soleArg]
  | length =>
    cases h
    simp [apply, length, soleArg, LazyArray.length]
  | allOf =>
    cases h
    simp [apply, allOf, soleArg]
  | anyOf =>
    cases h
    simp [apply, anyOf, soleArg]
  | boundOfElements side =>
    cases h
    simp [apply, boundOfElements, soleArg]
  | _ => cases h

end Evaluator

theorem Steady.furthest (side : Side) (operation : String) (is : List Integer) :
    Steady (side.furthest operation is).run := by
  cases is with
  | nil => exact .throw _
  | cons i is => exact .ok _

theorem Steady.mapValue {x : EvalM α} (g : α → Value) (hx : Steady x.run) :
    Steady (g <$> x : EvalM Value).run := by
  rw [← bind_pure_comp]
  exact hx.andThen fun a ↦ .ok (g a)

theorem steady_reduction {b : Builtin} {f : List ExprKey → EvalM Value}
    (h : ctx.evaluator.reduction? b = some f) (xs : List ExprKey) : Steady (f xs).run := by
  cases b with
  | extremum side =>
    cases h
    exact (Steady.mapM xs steady_intOf).andThen fun is ↦ (Steady.furthest side _ is).andThen fun i ↦
      .ok _
  | sum =>
    cases h
    refine .mapValue _ (.foldlM xs (fun total x ↦ ?_) _)
    exact (steady_intOf x).andThen fun i ↦ .ofOption _ _
  | length =>
    cases h
    exact .mapValue _ (.ofOption _ _)
  | allOf =>
    cases h
    exact .mapValue _ (.allM xs steady_boolOf)
  | anyOf =>
    cases h
    exact .mapValue _ (.anyM xs steady_boolOf)
  | boundOfElements side =>
    cases h
    refine (Steady.mapM xs fun x ↦ ?_).andThen fun is ↦ (Steady.furthest side _ is).andThen fun i ↦
      .ok _
    exact (steady_requiredBounds _ x).andThen fun r ↦ .ok _
  | _ => cases h

/-- The extremes of a set are found by another builtin. -/
private theorem isSet_of_extremum {side : Side} {x : ExprKey} {v : Value}
    (h : GivesAt p (ctx.evaluator.apply [x] (.extremum side)) v) :
    (ctx.evaluator.model.ty x).isSet = false := by
  by_contra set
  rw [Bool.not_eq_false] at set
  have fails : ctx.evaluator.extremum side [x] =
      EvalM.fail (.refusedOperand side.extremumName "sets") := by
    simp only [Evaluator.extremum, set, if_true]
  obtain ⟨i, gives, -⟩ := h.gives.of_map
  rw [fails] at gives
  exact gives.not_fail

/-- The extremes of a set are not those of an array. -/
private theorem not_array_of_extremumOfSet {side : Side} {x : ExprKey} {u : LazyArray} {v : Value}
    (h : GivesAt p (ctx.evaluator.apply [x] (.extremumOfSet side)) v) :
    ¬GivesAt p (ctx.evaluator.arrayOf x) u := by
  intro array
  obtain ⟨i, extremum, -⟩ := h.of_map
  have extremum : GivesAt p (ctx.evaluator.setOf x >>= fun s ↦
      EvalM.ofOption (.emptyReduction side.extremumName) (side.memberOf? s)) i := extremum
  obtain ⟨s, set, -⟩ := extremum.of_bind (steady_setOf x)
  cases set.of_setOf.unique array.of_arrayOf (steady_eval x)

/-- A reduction comes to the same for two arrays with the same elements. -/
theorem apply_of_same_elements {b : Builtin} {f : List ExprKey → EvalM Value} {x y : ExprKey}
    {u w : LazyArray} {v : Value} (h : ctx.evaluator.reduction? b = some f)
    (single : (ctx.evaluator.model.ty y).isSet = false)
    (array : GivesAt p (ctx.evaluator.arrayOf x) u) (array' : GivesAt p (ctx.evaluator.arrayOf y) w)
    (same : w.elements = u.elements) (value : GivesAt p (ctx.evaluator.apply [x] b) v) :
    GivesAt p (ctx.evaluator.apply [y] b) v ∧ Steady (ctx.evaluator.apply [y] b).run := by
  rw [Evaluator.apply_of_reduction? h fun side eq ↦ isSet_of_extremum (eq ▸ value)] at value
  rw [Evaluator.apply_of_reduction? h fun _ _ ↦ single]
  obtain ⟨u', array₁, value⟩ := value.of_bind (steady_arrayOf x)
  cases array.unique array₁ (steady_arrayOf x)
  rw [← same] at value
  exact ⟨array'.bind (steady_arrayOf y) value (steady_reduction h w.elements),
    (steady_arrayOf y).andThen fun a ↦ steady_reduction h a.elements⟩

/-! ### Calls -/

section Calls

variable {c : ExprKey} {name : String} {fn : FnKey} {args : List ExprKey} {b : Builtin} {v : Value}

theorem followChain_call {resolved : Option FnKey}
    (form : ctx.model.form c = .call name resolved args) (nested : Bool) (steps : Nat) :
    ctx.followChain nested steps p c = (.ok (.expression c), p) :=
  Context.followChain_unnamed (by simp [form]) nested steps

theorem valueByForm_call {resolved : Option FnKey}
    (form : ctx.model.form c = .call name resolved args) :
    ctx.evaluator.valueByForm c = ctx.evaluator.valueOfCall name resolved args := by
  have form' : ctx.evaluator.model.form c = .call name resolved args := form
  simp only [Evaluator.valueByForm, form']

theorem valueOfEnd_call (form : ctx.model.form c = .call name (some fn) args)
    (bound : ctx.registry.builtin? fn = some b) :
    ctx.evaluator.valueOfEnd (.expression c) = EvalM.inScope (ctx.evaluator.apply args b) := by
  have bound' : ctx.evaluator.registry.builtin? fn = some b := bound
  simp only [Evaluator.valueOfEnd, valueByForm_call form, Evaluator.valueOfCall, bound']

/-- A call that has a value means a function with a builtin, which computes the value. -/
theorem GivesAt.exists_builtin {resolved : Option FnKey}
    (form : ctx.model.form c = .call name resolved args) (h : GivesAt p (ctx.evaluator.eval c) v) :
    ∃ fn b, resolved = some fn ∧ ctx.registry.builtin? fn = some b ∧
      GivesAt p (ctx.evaluator.apply args b) v := by
  obtain ⟨s, t, pending, run⟩ := h
  obtain ⟨end?, q, u, follow, value⟩ := Context.eval_eq_ok_iff.1 ⟨t, run⟩
  rw [followChain_call form] at follow
  cases follow
  cases resolved with
  | none =>
    simp only [Evaluator.valueOfEnd, valueByForm_call form, Evaluator.valueOfCall] at value
    cases value
  | some fn =>
    cases bound : ctx.registry.builtin? fn with
    | none =>
      have bound' : ctx.evaluator.registry.builtin? fn = none := bound
      simp only [Evaluator.valueOfEnd, valueByForm_call form, Evaluator.valueOfCall, bound']
        at value
      cases value
    | some b =>
      rw [valueOfEnd_call form bound, EvalM.inScope_apply] at value
      obtain ⟨⟨r, w⟩, applied, eq⟩ := Option.map_eq_some_iff.1 value
      obtain ⟨rfl, -⟩ := Prod.mk.inj eq
      refine ⟨fn, b, rfl, bound, _, w, ?_, applied⟩
      exact pending

theorem GivesAt.call_of_apply (form : ctx.model.form c = .call name (some fn) args)
    (bound : ctx.registry.builtin? fn = some b) (steady : Steady (ctx.evaluator.apply args b).run)
    (h : GivesAt p (ctx.evaluator.apply args b) v) : GivesAt p (ctx.evaluator.eval c) v := by
  let s : EvalState := ⟨p, [], 0⟩
  obtain ⟨t, -, run⟩ := h.run steady (s := s.openScope.openScope) rfl
  have value : ctx.evaluator.valueOfEnd (.expression c) { s.openScope with pending := p } =
      some (.ok v, s.openScope.closeTo t) := by
    rw [valueOfEnd_call form bound, EvalM.inScope_apply]
    exact congrArg (Option.map _) run
  obtain ⟨u, run⟩ := Context.eval_eq_ok_iff.2 ⟨_, p, _, followChain_call form true _, value⟩
  exact ⟨s, u, rfl, run⟩

/-- A call that means no function has no value. -/
theorem eval_unresolved (form : ctx.model.form c = .call name none args) (s : EvalState) :
    ∃ f t, ctx.evaluator.eval c s = some (.error f, t) ∧ f.cause = .undeclaredName name := by
  rw [Context.eval_evaluator]
  change ∃ f t, (EvalM.inScope (ctx.locating c (ctx.chainEnd c >>= ctx.evaluator.valueOfEnd)) >>= _)
    s = some (.error f, t) ∧ _
  rw [EvalM.bind_apply, Context.chain_apply, followChain_call form]
  simp only [Evaluator.valueOfEnd, valueByForm_call form, Evaluator.valueOfCall]
  exact ⟨_, _, rfl, Context.cause_locate c _ _⟩

end Calls

/-! ### The union of domains -/

/-- One lot of pending declarations is no more than another one, under the same limit and with no
more nesting. -/
structure Pending.Lessened (p q : Pending) : Prop where
  limit : q.limit = p.limit
  nesting : q.nesting ≤ p.nesting
  le : ∀ u, q.holds u = true → p.holds u = true

theorem Pending.Lessened.add {v : Visit} {nested : Bool} (h : p.Lessened q) :
    (p.add v nested).Lessened (q.add v nested) where
  limit := h.limit
  nesting := Nat.add_le_add_right h.nesting _
  le u held := holds_add.2 ((holds_add.1 held).imp_right (h.le u))

/-- Runs are replayed with less pending, but they do not refuse the same visits. -/
def Replay.lessening (ctx : Context) : Replay ctx where
  Rel := Pending.Lessened
  Agrees _ := False
  enter {p q o v nested} _ rel entered := by
    obtain ⟨fresh, within, rfl⟩ := enter_eq_ok_iff.1 entered
    refine ⟨_, enter_eq_ok_iff.2 ⟨?_, fun n limit counts ↦ ?_, rfl⟩, rel.add⟩
    · rw [← Bool.not_eq_true] at fresh ⊢
      exact fun held ↦ fresh (rel.le _ held)
    · exact Nat.lt_of_le_of_lt rel.nesting (within n (rel.limit.symm.trans limit) counts)
  refuse _ agrees := agrees.elim

theorem Pending.Grows.lessened {m : Model} (h : Grows m p q) : q.Lessened p := by
  induction h with
  | refl => exact ⟨rfl, Nat.le_refl _, fun _ ↦ id⟩
  | add _ v nested _ _ ih =>
    exact ⟨ih.limit, Nat.le_trans ih.nesting (Nat.le_add_right _ _),
      fun u held ↦ holds_add.2 (.inr (ih.le u held))⟩

/-- The union of the domains of some expressions. -/
def Evaluator.unionOfDomains (ev : Evaluator) (xs : List ExprKey) : EvalM IntegerSet :=
  xs.foldlM (fun acc x ↦ return acc.union (← ev.domainOf x)) IntegerSet.empty

theorem steady_unionOfDomains (xs : List ExprKey) :
    Steady (ctx.evaluator.unionOfDomains xs).run :=
  .foldlM xs (fun _ x ↦ (steady_domainOf x).andThen fun _ ↦ .ok _) _

/-- The end of a chain of names has the array that the chain leads to. -/
theorem GivesAt.arrayOf_end {x z : ExprKey} {u : LazyArray}
    (follow : ctx.followChain true (ctx.model.declared.size + 1) p x = (.ok (.expression z), q))
    (array : GivesAt p (ctx.evaluator.arrayOf x) u) : GivesAt q (ctx.evaluator.arrayOf z) u := by
  let s : EvalState := ⟨p, [], 0⟩
  obtain ⟨t, -, run⟩ := array.of_arrayOf.run (steady_eval x) (s := s) rfl
  obtain ⟨end?, q', t', follow', run⟩ := Context.eval_eq_ok_iff.1 ⟨t, run⟩
  obtain ⟨rfl, rfl⟩ : ChainEnd.expression z = end? ∧ q = q' := by
    simpa using follow.symm.trans follow'
  obtain ⟨t', run⟩ := (Context.eval_eq_ok_iff (s := { s with pending := q })).2
    ⟨_, q, _, Context.followChain_unnamed (leads_of_followChain follow).unnamed true _, run⟩
  exact GivesAt.arrayOf ⟨_, t', rfl, run⟩

/-- Less pending leaves the union of some domains as it is, unless a builtin that looks for bounds
can come to a name on the way. -/
private theorem unionOfDomains_lessened {x : ExprKey} {xs : List ExprKey} {set : IntegerSet}
    (reaches : ∀ y ∈ xs, ctx.Reaches x y)
    (searches : ∀ z, ctx.Reaches x z → ctx.LooksForBounds z → ∀ z' name v, ctx.Below z z' →
      ctx.model.form z' ≠ .name name (some v))
    (lessened : q.Lessened p) (h : GivesAt q (ctx.evaluator.unionOfDomains xs) set) :
    GivesAt p (ctx.evaluator.unionOfDomains xs) set := by
  obtain ⟨s, t, rfl, run⟩ := h
  let R := Replay.lessening ctx
  have agrees : R.AgreesOnSearches x := searches
  have judged : R.logic.Evals R.AgreesOnSearches (ctx.evaluator.unionOfDomains xs) := by
    rw [Context.evaluator, Evaluator.ofLevels_eq_mk]
    refine R.logic.foldlM fun acc y hy ↦ R.logic.bind ?_ fun _ _ ↦ R.logic.pure _
    exact (R.handles_ofLevels ctx.levels).domainOf
      (R.closed_agreesOnSearches.reaches agrees (reaches y hy))
  have rel : R.Rel s.pending (EvalState.mk p [] 0).pending := lessened
  obtain ⟨t', run'⟩ := R.run_of_run judged rel run
  exact ⟨_, t', rfl, run'⟩

/-- The union of the domains of the elements is taken where the chain of names ends. -/
def Evaluator.unionAtEnd (ev : Evaluator) : ChainEnd → EvalM IntegerSet
  | .undefined v => throw (ev.missingValue v)
  | .expression x =>
    match ev.model.form x with
    | .array _ | .call .. => ev.arrayOf x >>= fun a ↦ ev.unionOfDomains a.elements
    | _ => ev.refuseForm "dom_array" x

theorem Evaluator.domainOfElements_eq (ev : Evaluator) (e : ExprKey) :
    ev.domainOfElements e = EvalM.inScope (ev.locating e (ev.chainEnd e >>= ev.unionAtEnd)) := by
  unfold domainOfElements arrayOfDomains
  rw [bind_assoc]
  congr 2
  refine bind_congr fun c ↦ ?_
  cases c with
  | undefined v => rfl
  | expression x =>
    simp only [unionAtEnd]
    cases ev.model.form x <;> rfl

/-- The union of the domains of the elements comes to the same for two arrays with the same
elements, one of them the value of a call, unless a builtin that looks for bounds can come to a name
on the way. -/
theorem domainOfElements_of_same_elements {x y : ExprKey} {name : String}
    {resolved : Option FnKey} {args : List ExprKey} {u w : LazyArray} {set : IntegerSet}
    (call : ctx.model.form y = .call name resolved args)
    (array : GivesAt p (ctx.evaluator.arrayOf x) u) (array' : GivesAt p (ctx.evaluator.arrayOf y) w)
    (same : w.elements = u.elements)
    (searches : ∀ z, ctx.Reaches x z → ctx.LooksForBounds z → ∀ z' name v, ctx.Below z z' →
      ctx.model.form z' ≠ .name name (some v))
    (union : GivesAt p (ctx.evaluator.domainOfElements x) set) :
    GivesAt p (ctx.evaluator.domainOfElements y) set := by
  rw [Evaluator.domainOfElements_eq] at union ⊢
  obtain ⟨c, q, follow, atEnd⟩ := union.of_chain
  change ctx.followChain true (ctx.model.declared.size + 1) p x = (.ok c, q) at follow
  have elements : GivesAt q (ctx.evaluator.unionOfDomains u.elements) set := by
    cases c with
    | undefined v => exact atEnd.gives.not_throw.elim
    | expression z =>
      have union {w : LazyArray} (h : GivesAt q (ctx.evaluator.arrayOf z) w)
          (next : GivesAt q (ctx.evaluator.unionOfDomains w.elements) set) :
          GivesAt q (ctx.evaluator.unionOfDomains u.elements) set :=
        h.unique (array.arrayOf_end follow) (steady_arrayOf z) ▸ next
      unfold Evaluator.unionAtEnd at atEnd
      simp only at atEnd
      split at atEnd
      · obtain ⟨w, array', next⟩ := atEnd.of_bind (steady_arrayOf z)
        exact union array' next
      · obtain ⟨w, array', next⟩ := atEnd.of_bind (steady_arrayOf z)
        exact union array' next
      · exact atEnd.gives.not_failAt.elim
  have lessened : q.Lessened p := by
    have grows := grows_followChain ctx true (ctx.model.declared.size + 1) p x
    rw [follow] at grows
    exact grows.lessened
  -- the chain of the call begins no visits, so there is less pending when the union is taken
  have fewer : GivesAt p (ctx.evaluator.unionOfDomains w.elements) set := by
    rw [same]
    exact unionOfDomains_lessened (Evaluator.reaches_elements
      (keepsElements_ofLevels ctx ctx.levels) array.gives) searches lessened elements
  have atCall : ctx.evaluator.unionAtEnd (.expression y) =
      ctx.evaluator.arrayOf y >>= fun a ↦ ctx.evaluator.unionOfDomains a.elements := by
    have call' : ctx.evaluator.model.form y = .call name resolved args := call
    simp only [Evaluator.unionAtEnd, call']
  refine GivesAt.chain (followChain_call call true _) ?_ ?_
  · rw [atCall]
    exact array'.bind (steady_arrayOf y) fewer (steady_unionOfDomains _)
  · rw [atCall]
    exact (steady_arrayOf y).andThen fun a ↦ steady_unionOfDomains _

/-! ### What calls mean -/

/-- What the call of a name with some arguments is added to the model as: the call of the function
that the types of the arguments select, with the type of its result. A call for which not one
function is selected is unresolved and of unknown type. -/
def Model.resolvedCall (m : Model) (name : String) (args : List ExprKey) : Form × Ty :=
  match m.select name (args.map m.ty) with
  | .one f => (.call name (some f) args, (m.overloadAt f).result)
  | .noneFits | .several _ => (.call name none args, .unknown)

/-- An expression is the call of a name with some arguments as it is added to the model. -/
def Model.IsCall (m : Model) (e : ExprKey) (name : String) (args : List ExprKey) : Prop :=
  (m.form e, m.ty e) = m.resolvedCall name args

instance (m : Model) (e : ExprKey) (name : String) (args : List ExprKey) :
    Decidable (m.IsCall e name args) :=
  inferInstanceAs (Decidable (_ = _))

namespace Model.IsCall

variable {md : Model} {c : ExprKey} {name : String} {args : List ExprKey} {f : FnKey}

theorem select_of_form (call : md.IsCall c name args)
    (form : md.form c = .call name (some f) args) :
    md.select name (args.map md.ty) = .one f := by
  unfold IsCall resolvedCall at call
  split at call
  · next selected =>
    cases form.symm.trans (congrArg Prod.fst call)
    exact selected
  · cases form.symm.trans (congrArg Prod.fst call)
  · cases form.symm.trans (congrArg Prod.fst call)

theorem form_of_select (call : md.IsCall c name args)
    (selected : md.select name (args.map md.ty) = .one f) :
    md.form c = .call name (some f) args := by
  unfold IsCall resolvedCall at call
  rw [selected] at call
  exact congrArg Prod.fst call

theorem form_of_noneFits (call : md.IsCall c name args)
    (unresolved : md.select name (args.map md.ty) = .noneFits) :
    md.form c = .call name none args := by
  unfold IsCall resolvedCall at call
  rw [unresolved] at call
  exact congrArg Prod.fst call

end Model.IsCall

/-- What a call means depends on the declared functions. -/
theorem Model.select_congr {m m' : Model} (same : m'.overloads = m.overloads)
    (name : String) (args : List Ty) : m'.select name args = m.select name args := by
  cases m
  cases m'
  cases same
  rfl

/-- Adding a call resolves it with the functions that are declared. -/
theorem Build.resolvedCall_of_call {m m' : Model} {e : ExprKey} {name : String}
    {args : List ExprKey} (h : (Build.call name args).run m = (e, m')) :
    (m'.form e, m'.ty e) = m.resolvedCall name args := by
  have added {form : Form} {ty : Ty}
      (h : (Build.node form .nowhere ty).run { m with names := (m.names.intern name).2 } =
        (e, m')) : (m'.form e, m'.ty e) = (form, ty) := by
    cases h
    simp [Model.form, Model.ty, Model.node]
  simp only [Build.call, Build.mention, StateT.run_bind, StateT.run_modify, StateT.run_get,
    pure_bind] at h
  unfold Model.resolvedCall
  split at h
  all_goals
    next selected =>
    change m.select name (args.map m.ty) = _ at selected
    rw [selected]
    exact added h

/-- Adding a call declares nothing. -/
theorem Build.overloads_of_call {m m' : Model} {e : ExprKey} {name : String}
    {args : List ExprKey} (h : (Build.call name args).run m = (e, m')) :
    m'.overloads = m.overloads := by
  have same := (Build.adds_call name args m).overloads
  rw [h, List.append_nil] at same
  exact Array.toList_inj.1 same

/-- Adding a call of expressions that are there makes it one. -/
theorem Build.isCall {m m' : Model} {e : ExprKey} {name : String} {args : List ExprKey}
    (inside : ∀ x ∈ args, x.index < m.nodes.size)
    (h : (Build.call name args).run m = (e, m')) : m'.IsCall e name args := by
  have tys : args.map m'.ty = args.map m.ty := by
    refine List.map_congr_left fun x hx ↦ ?_
    have same := (Build.adds_call name args m).node_eq (inside x hx)
    rw [h] at same
    exact congrArg Node.ty same
  have overloads := overloads_of_call h
  unfold Model.IsCall
  rw [resolvedCall_of_call h]
  simp only [Model.resolvedCall, tys, Model.select_congr overloads, Model.overloadAt, overloads]

namespace Library

/-- The reductions of arrays. -/
def reductions : List String :=
  ["sum", "min", "max", "length", "forall", "exists", "lb_array", "ub_array", "dom_array"]

theorem builtin_of_rearrangeName : ∀ n ∈ ranks, ∀ impl ∈ implementations,
    impl.name = rearrangeName n → impl.builtin = .rearrange n := by
  decide +kernel

private theorem builtin_of_reduction : ∀ impl ∈ implementations, impl.name ∈ reductions →
    impl.builtin.reduces = true ∨
      (impl.builtin = .extremumOfSet .low ∨ impl.builtin = .extremumOfSet .high) ∨
      impl.name = "dom_array" ∧ impl.builtin = .domainOfElements := by
  decide +kernel

/-- The elements of a rearranged array have the base variable for their base. -/
private theorem result_of_rearrangeName : ∀ n ∈ ranks, ∀ o ∈ declarations,
    o.name = rearrangeName n → o.result.base = .any ∧ o.result.isSet = false ∧
      o.result.rank ≠ 0 := by
  decide +kernel

/-- The reductions other than the number of elements take no elements of every base. -/
private theorem params_of_reduction : ∀ o ∈ declarations, o.name ∈ reductions → o.name ≠ "length" →
    ∀ t ∈ o.params, t.base ≠ .any := by
  decide +kernel

private theorem params_of_length : ∀ o ∈ declarations, o.name = "length" →
    o.params = [.any .var .maybe Ty.anyRank] := by
  decide +kernel

end Library

/-- Arrange the elements of an array that has been found under index sets. -/
def Evaluator.rearrangeUnder (ev : Evaluator) (flat : ExprKey) (a : LazyArray)
    (ranges : List Interval) : EvalM LazyArray :=
  match a.rearrange? ranges with
  | some rearranged => return rearranged
  | none => ev.failAt flat (LazyArray.wrongCellCount ranges a.length)

/-- An array is rearranged by finding the array and then its ranges. -/
theorem Evaluator.rearrange_eq {ev : Evaluator} {n : Nat} {sets : List ExprKey} {flat : ExprKey}
    (count : sets.length = n) : ev.rearrange n (sets ++ [flat]) =
      ev.arrayOf flat >>= fun a ↦ sets.mapM (ev.indexRange (Library.rearrangeName n)) >>=
        ev.rearrangeUnder flat a := by
  have split : (sets ++ [flat]).splitAt n = (sets, [flat]) := by simp [← count]
  simp only [rearrange, split]
  rfl

theorem steady_indexRange (operation : String) (set : ExprKey) :
    Steady (ctx.evaluator.indexRange operation set).run := by
  refine (steady_setOf set).andThen fun s ↦ ?_
  cases s.interval? with
  | some r => exact .ok r
  | none => exact .failAt ..

theorem steady_rearrangeUnder (flat : ExprKey) (a : LazyArray) (ranges : List Interval) :
    Steady (ctx.evaluator.rearrangeUnder flat a ranges).run := by
  unfold Evaluator.rearrangeUnder
  cases a.rearrange? ranges with
  | some b => exact .ok b
  | none => exact .failAt ..

/-- An expression is a call of a library function. -/
structure Context.CallsLibrary (ctx : Context) (c : ExprKey) (name : String) (args : List ExprKey)
    (fn : FnKey) (impl : Implementation) : Prop where
  form : ctx.model.form c = .call name (some fn) args
  ty : ctx.model.ty c = (ctx.model.overloadAt fn).result
  accepts : Fits (args.map ctx.model.ty) (ctx.model.overloadAt fn).params
  called : (ctx.model.overloadAt fn).name = name
  overload : ctx.model.overloadAt fn ∈ Library.declarations
  known : impl ∈ Library.implementations
  named : impl.name = name
  bound : ctx.registry.builtin? fn = some impl.builtin

section Calls

variable {user : List Overload}
  (declared : ctx.model.overloads.toList = Library.declarations ++ user)
  (registered : ctx.registry = .ofImplementations Library.implementations)

include declared registered

/-- A call that has a value is one of a library function. -/
theorem exists_callsLibrary {c : ExprKey} {name : String} {args : List ExprKey} {v : Value}
    (call : ctx.model.IsCall c name args) (h : GivesAt p (ctx.evaluator.eval c) v) :
    ∃ fn impl, ctx.CallsLibrary c name args fn impl ∧
      GivesAt p (ctx.evaluator.apply args impl.builtin) v := by
  unfold Model.IsCall Model.resolvedCall at call
  split at call <;> obtain ⟨form, ty⟩ := Prod.mk.inj call
  · next f selected =>
    obtain ⟨fn, b, eq, bound, applied⟩ := h.exists_builtin form
    cases eq
    obtain ⟨impl, known, rfl, overload, same⟩ :=
      Registry.exists_implementation_of_builtin? declared (registered ▸ bound)
    have name := Model.name_of_select selected
    have accepts := (Model.select_eq_one_iff.1 selected).1.2
    exact ⟨f, impl, ⟨form, ty, accepts, name, overload, known,
      (congrArg Prod.fst same).symm.trans name, bound⟩, applied⟩
  · obtain ⟨fn, b, eq, -⟩ := h.exists_builtin form
    cases eq
  · obtain ⟨fn, b, eq, -⟩ := h.exists_builtin form
    cases eq

/-- A call that rearranges an array and has a value is one of a library function, which finds the
array and then the ranges. -/
theorem exists_rearranged {n : Nat} (hn : n ∈ Library.ranks) {sets : List ExprKey}
    (count : sets.length = n) {a g : ExprKey} {v : Value}
    (call : ctx.model.IsCall g (Library.rearrangeName n) (sets ++ [a]))
    (h : GivesAt p (ctx.evaluator.eval g) v) :
    ∃ fn impl u ranges w,
      ctx.CallsLibrary g (Library.rearrangeName n) (sets ++ [a]) fn impl ∧
      GivesAt p (ctx.evaluator.arrayOf a) u ∧
      GivesAt p (sets.mapM (ctx.evaluator.indexRange (Library.rearrangeName n))) ranges ∧
      u.rearrange? ranges = some w ∧ v = .array w := by
  obtain ⟨fn, impl, calls, applied⟩ := exists_callsLibrary declared registered call h
  rw [Library.builtin_of_rearrangeName n hn impl calls.known calls.named] at applied
  obtain ⟨w, rearranged, rfl⟩ := applied.of_map
  rw [Evaluator.rearrange_eq count] at rearranged
  obtain ⟨u, array, rest⟩ := rearranged.of_bind (steady_arrayOf a)
  obtain ⟨ranges, sets, fits⟩ := rest.of_bind (.mapM _ (steady_indexRange _))
  unfold Evaluator.rearrangeUnder at fits
  split at fits
  · next found =>
    exact ⟨fn, impl, u, ranges, w, calls, array, sets, fits.gives.of_pure ▸ found, rfl⟩
  · exact fits.gives.not_failAt.elim

end Calls

section Reductions

variable {user : List Overload}
  (declared : ctx.model.overloads.toList = Library.declarations ++ user)
  (bound : Registry.ofLibrary ctx.model = .ok ctx.registry)

include declared bound

/-- A rearranged array has the elements of the array that it is made from, and the base variable for
the base of its type. -/
private theorem array_of_rearranged {n : Nat} (hn : n ∈ Library.ranks) {sets : List ExprKey}
    (count : sets.length = n) {a g : ExprKey} {w : Value}
    (call : ctx.model.IsCall g (Library.rearrangeName n) (sets ++ [a]))
    (h : GivesAt p (ctx.evaluator.eval g) w) :
    (∃ fn, ctx.model.form g = .call (Library.rearrangeName n) (some fn) (sets ++ [a])) ∧
    ((ctx.model.ty g).base = .any ∧ (ctx.model.ty g).isSet = false ∧ (ctx.model.ty g).rank ≠ 0) ∧
    ∃ u u', GivesAt p (ctx.evaluator.arrayOf a) u ∧ GivesAt p (ctx.evaluator.arrayOf g) u' ∧
      u'.elements = u.elements := by
  have registered := Registry.eq_ofImplementations declared bound
  obtain ⟨fn, impl, u, ranges, u', calls, array, -, found, rfl⟩ :=
    exists_rearranged declared registered hn count call h
  refine ⟨⟨fn, calls.form⟩, ?_, u, u', array, h.arrayOf, elements_of_rearrange? found⟩
  rw [calls.ty]
  exact Library.result_of_rearrangeName n hn _ calls.overload calls.called

/-- A call of a reduction of a rearranged array that means the same function as the call of the
original array comes to the same. -/
private theorem eval_of_same_function {n : Nat} (hn : n ∈ Library.ranks) {sets : List ExprKey}
    (count : sets.length = n) {a g r c : ExprKey} {name : String} {fn : FnKey} {v w : Value}
    (reduction : name ∈ Library.reductions)
    (rearranges : ctx.model.IsCall g (Library.rearrangeName n) (sets ++ [a]))
    (reduces : ctx.model.IsCall r name [a])
    (rearranged : GivesAt p (ctx.evaluator.eval g) w) (reduced : GivesAt p (ctx.evaluator.eval r) v)
    (form : ctx.model.form r = .call name (some fn) [a])
    (form' : ctx.model.form c = .call name (some fn) [g])
    (searches : name = "dom_array" → ∀ x, ctx.Reaches a x → ctx.LooksForBounds x →
      ∀ y name v, ctx.Below x y → ctx.model.form y ≠ .name name (some v)) :
    GivesAt p (ctx.evaluator.eval c) v := by
  obtain ⟨⟨fn', call⟩, ⟨-, single, -⟩, u, u', array, array', same⟩ :=
    array_of_rearranged declared bound hn count rearranges rearranged
  have registered := Registry.eq_ofImplementations declared bound
  obtain ⟨fn₁, impl, calls, applied⟩ := exists_callsLibrary declared registered reduces reduced
  obtain rfl : fn₁ = fn := by simpa using calls.form.symm.trans form
  obtain reducing | ofSet | ⟨dom, union⟩ := Library.builtin_of_reduction impl calls.known
    (calls.named ▸ reduction)
  · obtain ⟨f, reduction⟩ := ctx.evaluator.exists_reduction? reducing
    obtain ⟨applied', steady⟩ := apply_of_same_elements reduction single array array' same applied
    exact applied'.call_of_apply form' calls.bound steady
  · -- the bounds of a set are no reduction of an array
    have extremum : ∃ side, impl.builtin = .extremumOfSet side := by
      rcases ofSet with eq | eq <;> exact ⟨_, eq⟩
    obtain ⟨side, eq⟩ := extremum
    exact (not_array_of_extremumOfSet (eq ▸ applied) array).elim
  · have looks := searches (calls.named.symm.trans dom)
    rw [union] at applied
    obtain ⟨set, taken, rfl⟩ := applied.of_map
    have taken' := domainOfElements_of_same_elements call array array' same looks taken
    refine GivesAt.call_of_apply form' calls.bound ?_ ?_
    all_goals rw [union]
    · exact (steady_domainOfElements g).andThen fun s ↦ .ok (Value.set s)
    · exact taken'.map Value.set

/-- The number of elements is taken of arrays of all kinds, so the calls of it for a rearranged
array and for the original one mean the same function, unless another function takes the former. -/
private theorem same_length {a g r r' : ExprKey} {v : Value}
    (refused : ∀ f ∈ user, f.name = "length" → ¬Fits [ctx.model.ty g] f.params)
    (reduces : ctx.model.IsCall r "length" [a]) (reduces' : ctx.model.IsCall r' "length" [g])
    (reduced : GivesAt p (ctx.evaluator.eval r) v) (single : (ctx.model.ty g).isSet = false)
    (array : (ctx.model.ty g).rank ≠ 0) :
    ∃ fn, ctx.model.form r = .call "length" (some fn) [a] ∧
      ctx.model.form r' = .call "length" (some fn) [g] := by
  have registered := Registry.eq_ofImplementations declared bound
  obtain ⟨fn, impl, calls, -⟩ := exists_callsLibrary declared registered reduces reduced
  obtain ⟨⟨declares, -⟩, below⟩ := Model.select_eq_one_iff.1 (reduces.select_of_form calls.form)
  have params := Library.params_of_length _ calls.overload calls.called
  have fits : Fits [ctx.model.ty g] (ctx.model.overloadAt fn).params := by
    rw [params]
    exact ⟨⟨.inr rfl, .inr rfl, single, .inl rfl, array⟩, trivial⟩
  -- another library function with these parameters would make the call for the array ambiguous
  have only : ∀ f, ctx.model.Accepts "length" [ctx.model.ty g] f → f = fn := by
    rintro f ⟨declares', fits'⟩
    have library := (Library.mem_of_declares declared declares').resolve_right fun mem ↦
      refused _ mem declares'.2 fits'
    have same : (ctx.model.overloadAt f).params = (ctx.model.overloadAt fn).params :=
      (Library.params_of_length _ library declares'.2).trans params.symm
    by_contra other
    exact (below f ⟨declares', same ▸ calls.accepts⟩ other).2 same
  have selected : ctx.model.select "length" [ctx.model.ty g] = .one fn :=
    Model.select_eq_one_iff.2 ⟨⟨declares, fits⟩, fun f accepts other ↦
      (other (only f accepts)).elim⟩
  exact ⟨fn, calls.form, reduces'.form_of_select selected⟩

/-- A reduction comes to the same for a rearranged array as for the original one, wherever its call
is resolved. Let a call that rearranges an array and a call of a reduction of that array both have
values, and let no function that is declared beside the library take the rearranged array under the
name of the reduction. Then the call of the number of elements for the rearranged array has the
value that it has for the original one. The call of any other reduction is left unresolved: the type
of a rearranged array has the base variable for its elements, which fits no parameter of these
reductions, so the call has no value and reports its name as undeclared. But whatever is declared
beside the library, each call of a reduction for the rearranged array that means the same function
as that for the original one has the same value, provided, where the union of domains is taken, that
no builtin that looks for bounds can come to a name. -/
theorem reductions_of_rearranged {name : String} (reduction : name ∈ Library.reductions) {n : Nat}
    (hn : n ∈ Library.ranks) {sets : List ExprKey} (count : sets.length = n) {a g r : ExprKey}
    {v w : Value} (rearranges : ctx.model.IsCall g (Library.rearrangeName n) (sets ++ [a]))
    (reduces : ctx.model.IsCall r name [a]) (rearranged : GivesAt p (ctx.evaluator.eval g) w)
    (reduced : GivesAt p (ctx.evaluator.eval r) v) :
    (∀ r', ctx.model.IsCall r' name [g] →
      (∀ f ∈ user, f.name = name → ¬Fits [ctx.model.ty g] f.params) →
      (name = "length" → GivesAt p (ctx.evaluator.eval r') v) ∧
      (name ≠ "length" → ctx.model.form r' = .call name none [g] ∧
        ∀ s, ∃ f t, ctx.evaluator.eval r' s = some (.error f, t) ∧
          f.cause = .undeclaredName name)) ∧
    ∀ c fn, ctx.model.form r = .call name (some fn) [a] →
      ctx.model.form c = .call name (some fn) [g] →
      (name = "dom_array" → ∀ x, ctx.Reaches a x → ctx.LooksForBounds x →
        ∀ y name v, ctx.Below x y → ctx.model.form y ≠ .name name (some v)) →
      GivesAt p (ctx.evaluator.eval c) v := by
  obtain ⟨-, ⟨anyBase, single, array⟩, -⟩ :=
    array_of_rearranged declared bound hn count rearranges rearranged
  refine ⟨fun r' reduces' refused ↦ ⟨?length, ?others⟩, fun c fn form form' ↦
    eval_of_same_function declared bound hn count reduction rearranges reduces rearranged reduced
      form form'⟩
  case length =>
    rintro rfl
    obtain ⟨fn, form, form'⟩ :=
      same_length declared bound refused reduces reduces' reduced single array
    exact eval_of_same_function declared bound hn count reduction rearranges reduces rearranged
      reduced form form' fun dom ↦ absurd dom (by decide)
  case others =>
    intro other
    have unresolved : ctx.model.select name ([g].map ctx.model.ty) = .noneFits := by
      refine Library.select_none declared refused fun o mem called fits ↦ ?_
      have params := Library.params_of_reduction o mem (called ▸ reduction) (called ▸ other)
      generalize o.params = ts at params fits
      cases ts with
      | nil => exact fits
      | cons t ts =>
        obtain ⟨-, -, -, base, -⟩ := fits.1
        have concrete : t.base ≠ .any := params t List.mem_cons_self
        exact base.elim concrete fun same ↦ concrete (same ▸ anyBase)
    have form := reduces'.form_of_noneFits unresolved
    exact ⟨form, eval_unresolved form⟩

end Reductions

/-! ### A rearranged array of integers -/

/-- The model of the array of 1 and 2, the same array over the indices from 1 to 2, and their sums
and lengths. -/
def sumsOfRearranged : Model :=
  let two : Integer := .ofByte 2
  let build : Build Unit := do
    Library.declareAll
    let array ← Build.array [← Build.int .one, ← Build.int two]
    let rearranged ← Build.call "array1d" [← Build.literalRange .one two, array]
    let _ ← Build.call "sum" [array]
    let _ ← Build.call "sum" [rearranged]
    let _ ← Build.call "length" [array]
    let _ ← Build.call "length" [rearranged]
  (build.run .empty).2

/-- The model with the standard library. -/
def sumsContext : Context where
  model := sumsOfRearranged
  registry := .ofImplementations Library.implementations

private theorem sums_declared :
    sumsContext.model.overloads.toList = Library.declarations ++ [] := by
  decide +kernel

private theorem sums_bound :
    Registry.ofLibrary sumsContext.model = .ok sumsContext.registry :=
  Registry.ofLibrary_eq_ok sums_declared rfl

/-- The sum of the array is 3, and the rearranged array has the same value, but its sum is left
unresolved. -/
theorem sum_of_rearranged_unresolved :
    let three : Value := .int (.ofByte 3)
    Registry.ofLibrary sumsContext.model = .ok sumsContext.registry ∧
    sumsContext.model.ty ⟨2⟩ = (Ty.int .par).arrayOf 1 ∧
    sumsContext.model.IsCall ⟨6⟩ "array1d" [⟨5⟩, ⟨2⟩] ∧
    sumsContext.model.IsCall ⟨7⟩ "sum" [⟨2⟩] ∧ sumsContext.model.IsCall ⟨8⟩ "sum" [⟨6⟩] ∧
    GivesAt (.empty none) (sumsContext.evaluator.eval ⟨6⟩) (.array countedFromOne) ∧
    GivesAt (.empty none) (sumsContext.evaluator.eval ⟨7⟩) three ∧
    ¬GivesAt (.empty none) (sumsContext.evaluator.eval ⟨8⟩) three := by
  intro three
  have shown : sumsContext.model.ty ⟨2⟩ = (Ty.int .par).arrayOf 1 ∧
      sumsContext.model.IsCall ⟨6⟩ "array1d" [⟨5⟩, ⟨2⟩] ∧
      sumsContext.model.IsCall ⟨7⟩ "sum" [⟨2⟩] ∧ sumsContext.model.IsCall ⟨8⟩ "sum" [⟨6⟩] ∧
      sumsContext.evaluator.eval ⟨6⟩ (.fresh none) =
        some (.ok (.array countedFromOne), .fresh none) ∧
      sumsContext.evaluator.eval ⟨7⟩ (.fresh none) = some (.ok three, .fresh none) ∧
      (sumsContext.evaluator.eval ⟨8⟩ (.fresh none)).map (fun a ↦ a.1.isOk) = some false := by
    decide +kernel
  obtain ⟨ty, rearranges, sum, sum', rearranged, three, fails⟩ := shown
  refine ⟨sums_bound, ty, rearranges, sum, sum', ⟨_, _, rfl, rearranged⟩, ⟨_, _, rfl, three⟩,
    fun gives ↦ ?_⟩
  obtain ⟨t, -, run⟩ := gives.run (steady_eval ⟨8⟩) (s := .fresh none) rfl
  rw [run] at fails
  cases fails

/-- A function of sets under the name of the number of elements. -/
def lengthOfSet : Overload := ⟨"length", [.intSet .par], .int .par⟩

/-- The model with the standard library and a function beside it. -/
def lengthsContext : Context where
  model := ((Build.addOverload lengthOfSet).run sumsOfRearranged).2
  registry := .ofImplementations Library.implementations

/-- The array and the rearranged array both have the length 2, also where a function that takes
neither of them is declared under the name of the number of elements. -/
theorem length_of_rearranged :
    let two : Value := .int (.ofByte 2)
    lengthsContext.model.overloads.toList = Library.declarations ++ [lengthOfSet] ∧
    Registry.ofLibrary lengthsContext.model = .ok lengthsContext.registry ∧
    ¬Fits [lengthsContext.model.ty ⟨6⟩] lengthOfSet.params ∧
    lengthsContext.model.IsCall ⟨6⟩ "array1d" ([⟨5⟩] ++ [⟨2⟩]) ∧
    lengthsContext.model.IsCall ⟨9⟩ "length" [⟨2⟩] ∧
    lengthsContext.model.IsCall ⟨10⟩ "length" [⟨6⟩] ∧
    GivesAt (.empty none) (lengthsContext.evaluator.eval ⟨9⟩) two ∧
    GivesAt (.empty none) (lengthsContext.evaluator.eval ⟨10⟩) two := by
  intro two
  have declared :
      lengthsContext.model.overloads.toList = Library.declarations ++ [lengthOfSet] := by
    decide +kernel
  have bound : Registry.ofLibrary lengthsContext.model = .ok lengthsContext.registry :=
    Registry.ofLibrary_eq_ok declared (by decide +kernel)
  have shown : ¬Fits [lengthsContext.model.ty ⟨6⟩] lengthOfSet.params ∧
      lengthsContext.model.IsCall ⟨6⟩ "array1d" ([⟨5⟩] ++ [⟨2⟩]) ∧
      lengthsContext.model.IsCall ⟨9⟩ "length" [⟨2⟩] ∧
      lengthsContext.model.IsCall ⟨10⟩ "length" [⟨6⟩] ∧
      lengthsContext.evaluator.eval ⟨6⟩ (.fresh none) =
        some (.ok (.array countedFromOne), .fresh none) ∧
      lengthsContext.evaluator.eval ⟨9⟩ (.fresh none) = some (.ok two, .fresh none) := by
    decide +kernel
  obtain ⟨refused, rearranges, length, length', rearranged, reduced⟩ := shown
  have reduced : GivesAt (.empty none) (lengthsContext.evaluator.eval ⟨9⟩) two :=
    ⟨_, _, rfl, reduced⟩
  obtain ⟨resolved, -⟩ := reductions_of_rearranged declared bound (by decide) (n := 1) (by decide)
    rfl rearranges length ⟨_, _, rfl, rearranged⟩ reduced
  have refused' : ∀ f ∈ [lengthOfSet], f.name = "length" →
      ¬Fits [lengthsContext.model.ty ⟨6⟩] f.params :=
    List.forall_mem_singleton.2 fun _ ↦ refused
  exact ⟨declared, bound, refused, rearranges, length, length', reduced,
    (resolved ⟨10⟩ length' refused').1 rfl⟩

end ConstraintEval
