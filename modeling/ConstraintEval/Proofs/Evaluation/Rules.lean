import ConstraintEval.Proofs.Evaluation.Planned

/-!
# The rules of evaluation follow plans

One lemma for each rule. A rule that is changed needs its own lemma done again and no other.
-/

namespace ConstraintEval

open Pending

namespace EvalState

@[simp] theorem pending_keep (s : EvalState) (v : Value) : (s.keep v).pending = s.pending := by
  unfold keep
  split <;> rfl

@[simp] theorem pending_keepResult (s : EvalState) (r : Except Failure Value) :
    (s.keepResult r).pending = s.pending := by
  cases r with
  | ok v => exact s.pending_keep v
  | error f => rfl

theorem follows_keepResult (s : EvalState) (r : Except Failure Value) :
    Follows s (some (r, s.pending)) (some (r, s.keepResult r)) := by
  have kept : s.kept <:+ (s.keepResult r).kept ∧ (s.keepResult r).scopes = s.scopes := by
    cases r with
    | error f => exact ⟨List.suffix_refl _, rfl⟩
    | ok v =>
      change s.kept <:+ (s.keep v).kept ∧ (s.keep v).scopes = s.scopes
      unfold keep
      split
      · exact ⟨List.suffix_cons .., rfl⟩
      · exact ⟨List.suffix_refl _, rfl⟩
  have follows := Follows.some (a := r) kept.1 kept.2
  rwa [pending_keepResult] at follows

end EvalState

variable {ctx : Context}

/-! ### What the rules share -/

theorem planned_eval (e : ExprKey) : PlannedEval ctx fun T ↦ (T.evaluator ctx).eval e := by
  refine ⟨fun p ↦ .ask (.value e p) fun r ↦ .done (r, p), ?_, ?_⟩
  · intro p
    exact ⟨.refl, fun _ ↦ .refl⟩
  · intro T s
    change Follows s ((T (.value e s.pending)).bind _) ((T (.value e s.pending)).map _)
    cases T (.value e s.pending) with
    | none => exact .none
    | some r => exact s.follows_keepResult r

theorem planned_bounds (e : ExprKey) : PlannedBound ctx fun T ↦ (T.evaluator ctx).bounds e := by
  refine ⟨fun p ↦ .ask (.bounds e p) fun r ↦ .done (r, p), ?_, ?_⟩
  · intro p
    exact ⟨.refl, fun _ ↦ .refl⟩
  · intro T s
    change Follows s ((T (.bounds e s.pending)).bind _) ((T (.bounds e s.pending)).map _)
    cases T (.bounds e s.pending) with
    | none => exact .none
    | some r => exact .some (List.suffix_refl _) rfl

theorem planned_intOf (e : ExprKey) : PlannedEval ctx fun T ↦ (T.evaluator ctx).intOf e :=
  (planned_eval e).bind fun v ↦ (PlannedEval.ofExcept v.asInt).locating e

theorem planned_boolOf (e : ExprKey) : PlannedEval ctx fun T ↦ (T.evaluator ctx).boolOf e :=
  (planned_eval e).bind fun v ↦ (PlannedEval.ofExcept v.asBool).locating e

theorem planned_setOf (e : ExprKey) : PlannedEval ctx fun T ↦ (T.evaluator ctx).setOf e :=
  (planned_eval e).bind fun v ↦ (PlannedEval.ofExcept v.asSet).locating e

theorem planned_arrayOf (e : ExprKey) : PlannedEval ctx fun T ↦ (T.evaluator ctx).arrayOf e :=
  (planned_eval e).bind fun v ↦ (PlannedEval.ofExcept v.asArray).locating e

/-! ### Domains and index sets -/

theorem planned_domainOfDeclared (v : VarKey) (operation : String) :
    PlannedEval ctx fun T ↦ (T.evaluator ctx).domainOfDeclared v operation := by
  simp only [Evaluator.domainOfDeclared, Answers.toContext_evaluator]
  cases (ctx.model.variableAt v).domain with
  | some domain => exact planned_setOf domain
  | none => exact PlannedEval.throw _

theorem scoped_domainOf (e : ExprKey) :
    Scoped ctx fun T ↦ ((T.evaluator ctx).domainOf e).run := by
  refine Planned.inScope (PlannedEval.locating e ((plannedEval_chainEnd e).bind fun c ↦ ?_))
  cases c with
  | undefined v => exact planned_domainOfDeclared v "dom"
  | expression x =>
    simp only [Evaluator.refuseForm, Answers.toContext_evaluator]
    cases ctx.model.form x with
    | int v => exact PlannedEval.pure _
    | _ => exact PlannedEval.failAt ..

theorem planned_domainOf (e : ExprKey) :
    PlannedEval ctx fun T ↦ (T.evaluator ctx).domainOf e := (scoped_domainOf e).planned

theorem planned_arrayOfDomains (e : ExprKey) :
    PlannedEval ctx fun T ↦ (T.evaluator ctx).arrayOfDomains e := by
  refine (plannedEval_chainEnd e).bind fun c ↦ ?_
  cases c with
  | undefined v => exact PlannedEval.throw (ctx.missingValue v)
  | expression x =>
    simp only [Evaluator.refuseForm, Answers.toContext_evaluator]
    cases ctx.model.form x with
    | array literal => exact planned_arrayOf x
    | call name f args => exact planned_arrayOf x
    | _ => exact PlannedEval.failAt ..

theorem scoped_domainOfElements (e : ExprKey) :
    Scoped ctx fun T ↦ ((T.evaluator ctx).domainOfElements e).run :=
  Planned.inScope <| PlannedEval.locating e <| (planned_arrayOfDomains e).bind fun _ ↦
    .foldlM _ _ fun _ x ↦ (planned_domainOf x).bind fun _ ↦ .pure _

theorem planned_domainOfElements (e : ExprKey) :
    PlannedEval ctx fun T ↦ (T.evaluator ctx).domainOfElements e :=
  (scoped_domainOfElements e).planned

theorem scoped_upperSet (e : ExprKey) :
    Scoped ctx fun T ↦ ((T.evaluator ctx).upperSet e).run := by
  refine Planned.inScope (PlannedEval.locating e ((plannedEval_chainEnd e).bind fun c ↦ ?_))
  cases c with
  | undefined v => exact planned_domainOfDeclared v "ub"
  | expression x =>
    simp only [Evaluator.refuseForm, Answers.toContext_evaluator]
    cases ctx.model.form x with
    | set members => exact planned_setOf x
    | between lo hi => exact planned_setOf x
    | _ => exact PlannedEval.failAt ..

theorem planned_upperSet (e : ExprKey) :
    PlannedEval ctx fun T ↦ (T.evaluator ctx).upperSet e := (scoped_upperSet e).planned

theorem planned_cardinality (e : ExprKey) :
    PlannedEval ctx fun T ↦ (T.evaluator ctx).cardinality e := by
  refine (planned_setOf e).bind fun s ↦ ?_
  cases s.size? with
  | some n => exact PlannedEval.pure n
  | none => exact PlannedEval.failAt ..

theorem planned_indexSet (e : ExprKey) (dimension : Nat) :
    PlannedEval ctx fun T ↦ (T.evaluator ctx).indexSet e dimension := by
  simp only [Evaluator.indexSet, Answers.toContext_evaluator]
  cases ctx.model.form e with
  | name name resolved =>
    cases resolved with
    | none => exact PlannedEval.failAt ..
    | some v =>
      simp only
      cases Evaluator.entryOfDimension? (ctx.model.variableAt v).indexSets dimension with
      | none => exact PlannedEval.failAt ..
      | some entry =>
        cases entry with
        | some set => exact planned_setOf set
        | none =>
          refine (planned_arrayOf e).bind fun a ↦ ?_
          cases a.range? dimension with
          | some r => exact PlannedEval.pure _
          | none => exact PlannedEval.failAt ..
  | _ => exact PlannedEval.failAt ..

/-! ### Bounds -/

theorem planned_boundsOfSet (set : ExprKey) :
    PlannedBound ctx fun T ↦ (T.evaluator ctx).boundsOfSet set :=
  (PlannedBound.ofEval (planned_setOf set)).bind fun s ↦ .ofOption s.hull?

theorem planned_boundsOfDomain (domain : Option ExprKey) :
    PlannedBound ctx fun T ↦ (T.evaluator ctx).boundsOfDomain domain := by
  cases domain with
  | some domain => exact planned_boundsOfSet domain
  | none => exact PlannedBound.failure

/-- The rule for a variable, after the visit to it has begun. -/
theorem planned_boundsOfDeclared (v : VarKey) :
    PlannedBound ctx fun T ↦
      (T.evaluator ctx).boundsOfDomain (ctx.model.variableAt v).domain <|>
        match (ctx.model.variableAt v).definition with
        | some definition => (T.evaluator ctx).bounds definition
        | none => failure := by
  apply (planned_boundsOfDomain _).orElse
  cases (ctx.model.variableAt v).definition with
  | some definition => exact planned_bounds definition
  | none => exact PlannedBound.failure

theorem planned_boundsOfEntered {v : VarKey} (named : ctx.model.Names v) (span : Span) :
    PlannedBound ctx fun T ↦ (T.evaluator ctx).boundsOfEntered v span :=
  (PlannedBound.ofEval (plannedEval_enter named span)).bind fun _ ↦ planned_boundsOfDeclared v

theorem planned_boundsOfElements (array : ExprKey) :
    PlannedBound ctx fun T ↦ (T.evaluator ctx).boundsOfElements array :=
  (PlannedBound.ofEval (planned_arrayOf array)).bind fun a ↦ .mapM a.elements planned_bounds

theorem planned_hullOfElements (array : ExprKey) :
    PlannedBound ctx fun T ↦ (T.evaluator ctx).hullOfElements array := by
  refine PlannedBound.orElse ?_ ((planned_boundsOfElements array).bind fun _ ↦ .ofOption _)
  simp only [Evaluator.namedDomain, Answers.toContext_evaluator]
  exact planned_boundsOfDomain _

theorem planned_boundsOfCall (name : String) (args : List ExprKey) :
    PlannedBound ctx fun T ↦ (T.evaluator ctx).boundsOfCall name args := by
  unfold Evaluator.boundsOfCall
  split
  · exact PlannedBound.pure _
  · next a b => exact (planned_bounds a).bind fun _ ↦ (planned_bounds b).bind fun _ ↦ .pure _
  · next a b => exact (planned_bounds a).bind fun _ ↦ (planned_bounds b).bind fun _ ↦ .pure _
  · exact (planned_boundsOfElements _).bind fun _ ↦ .ofOption _
  · exact (planned_boundsOfElements _).bind fun _ ↦ .ofOption _
  · exact (planned_bounds _).bind fun _ ↦ .pure _
  · exact (planned_bounds _).bind fun _ ↦ .pure _
  · exact (planned_boundsOfElements _).bind fun _ ↦ .ofOption _
  · exact PlannedBound.failure

theorem planned_boundsByForm (e : ExprKey) :
    PlannedBound ctx fun T ↦ (T.evaluator ctx).boundsByForm e := by
  simp only [Evaluator.boundsByForm, Answers.toContext_evaluator]
  cases form : ctx.model.form e with
  | name name resolved =>
    cases resolved with
    | none => exact PlannedBound.failure
    | some v => exact planned_boundsOfEntered ⟨e, name, form⟩ _
  | binary op left right =>
    cases op with
    | arith op =>
      exact (planned_bounds left).bind fun _ ↦ (planned_bounds right).bind fun _ ↦ .ofOption _
    | _ => exact PlannedBound.failure
  | unary op operand =>
    cases op with
    | neg => exact (planned_bounds operand).bind fun _ ↦ .ofOption _
    | not => exact PlannedBound.failure
  | choice cond yes no =>
    exact (planned_bounds yes).bind fun _ ↦ (planned_bounds no).bind fun _ ↦ .pure _
  | element array indices => exact planned_hullOfElements array
  | call name resolved args =>
    cases resolved with
    | none => exact PlannedBound.failure
    | some f => exact (planned_boundsOfCall name args).ite _ .failure
  | _ => exact PlannedBound.failure

theorem planned_boundsOfKnown (e : ExprKey) :
    PlannedBound ctx fun T ↦ (T.evaluator ctx).boundsOfKnown e := by
  simp only [Evaluator.boundsOfKnown, Answers.toContext_evaluator]
  exact ((PlannedBound.ofEval (planned_intOf e)).bind fun _ ↦ .pure _).ite _ .failure

/-! ### Builtins -/

theorem planned_soleArg (name : String) (args : List ExprKey) :
    PlannedEval ctx fun _ ↦ soleArg name args := by
  unfold soleArg
  split
  · exact PlannedEval.pure _
  · exact PlannedEval.fail _

theorem planned_furthest (side : Side) (operation : String) (vs : List Integer) :
    PlannedEval ctx fun _ ↦ side.furthest operation vs := by
  cases vs with
  | nil => exact PlannedEval.fail _
  | cons v vs => exact PlannedEval.pure _

theorem planned_extremum (side : Side) (args : List ExprKey) :
    PlannedEval ctx fun T ↦ (T.evaluator ctx).extremum side args := by
  unfold Evaluator.extremum
  split
  · next arg =>
    simp only [Answers.toContext_evaluator]
    exact (PlannedEval.fail _).ite _ <| (planned_arrayOf arg).bind fun a ↦
      (PlannedEval.mapM a.elements planned_intOf).bind (planned_furthest side _)
  · exact (planned_intOf _).bind fun _ ↦ (planned_intOf _).bind fun _ ↦ .pure _
  · exact PlannedEval.fail _

theorem planned_extremumOfSet (side : Side) (args : List ExprKey) :
    PlannedEval ctx fun T ↦ (T.evaluator ctx).extremumOfSet side args :=
  (planned_soleArg _ args).bind fun arg ↦ (planned_setOf arg).bind fun _ ↦ .ofOption _ _

theorem planned_sum (args : List ExprKey) :
    PlannedEval ctx fun T ↦ (T.evaluator ctx).sum args :=
  (planned_soleArg _ args).bind fun arg ↦ (planned_arrayOf arg).bind fun _ ↦
    .foldlM _ _ fun _ x ↦ (planned_intOf x).bind fun _ ↦ .ofOption _ _

theorem planned_length (args : List ExprKey) :
    PlannedEval ctx fun T ↦ (T.evaluator ctx).length args :=
  (planned_soleArg _ args).bind fun arg ↦ (planned_arrayOf arg).bind fun _ ↦ .ofOption _ _

theorem planned_boolToInt (args : List ExprKey) :
    PlannedEval ctx fun T ↦ (T.evaluator ctx).boolToInt args :=
  (planned_soleArg _ args).bind fun arg ↦ (planned_boolOf arg).bind fun _ ↦ .pure _

theorem planned_allOf (args : List ExprKey) :
    PlannedEval ctx fun T ↦ (T.evaluator ctx).allOf args :=
  (planned_soleArg _ args).bind fun arg ↦ (planned_arrayOf arg).bind fun a ↦
    .allM a.elements planned_boolOf

theorem planned_anyOf (args : List ExprKey) :
    PlannedEval ctx fun T ↦ (T.evaluator ctx).anyOf args :=
  (planned_soleArg _ args).bind fun arg ↦ (planned_arrayOf arg).bind fun a ↦
    .anyM a.elements planned_boolOf

theorem planned_requiredBounds (operation : String) (e : ExprKey) :
    PlannedEval ctx fun T ↦ (T.evaluator ctx).requiredBounds operation e :=
  (planned_bounds e).orFail (PlannedEval.failureAt e _)

theorem planned_bound (side : Side) (args : List ExprKey) :
    PlannedEval ctx fun T ↦ (T.evaluator ctx).bound side args :=
  (planned_soleArg _ args).bind fun arg ↦ (planned_requiredBounds _ arg).bind fun _ ↦ .pure _

theorem planned_boundOfElements (side : Side) (args : List ExprKey) :
    PlannedEval ctx fun T ↦ (T.evaluator ctx).boundOfElements side args :=
  (planned_soleArg _ args).bind fun arg ↦ (planned_arrayOf arg).bind fun a ↦
    (PlannedEval.mapM a.elements fun x ↦ (planned_requiredBounds _ x).bind fun _ ↦ .pure _).bind
      (planned_furthest side _)

theorem planned_isBounded (e : ExprKey) :
    PlannedEval ctx fun T ↦ (T.evaluator ctx).isBounded e := (planned_bounds e).succeeds

theorem planned_indexRange (operation : String) (set : ExprKey) :
    PlannedEval ctx fun T ↦ (T.evaluator ctx).indexRange operation set := by
  refine (planned_setOf set).bind fun s ↦ ?_
  cases s.interval? with
  | some r => exact PlannedEval.pure r
  | none => exact PlannedEval.failAt ..

theorem planned_rearrange (dimensions : Nat) (args : List ExprKey) :
    PlannedEval ctx fun T ↦ (T.evaluator ctx).rearrange dimensions args := by
  unfold Evaluator.rearrange
  simp only
  split
  · next sets flat _ =>
    refine (planned_arrayOf flat).bind fun a ↦
      (PlannedEval.mapM sets (planned_indexRange _)).bind fun ranges ↦ ?_
    cases a.rearrange? ranges with
    | some b => exact PlannedEval.pure b
    | none => exact PlannedEval.failAt ..
  · exact PlannedEval.fail _

theorem planned_apply (args : List ExprKey) (b : Builtin) :
    PlannedEval ctx fun T ↦ (T.evaluator ctx).apply args b := by
  cases b with
  | extremum side => exact (planned_extremum side args).map _
  | extremumOfSet side => exact (planned_extremumOfSet side args).map _
  | sum => exact (planned_sum args).map _
  | length => exact (planned_length args).map _
  | boolToInt => exact (planned_boolToInt args).map _
  | allOf => exact (planned_allOf args).map _
  | anyOf => exact (planned_anyOf args).map _
  | cardinality =>
    exact (planned_soleArg _ args).bind fun a ↦ (planned_cardinality a).bind fun _ ↦ .pure _
  | isBounded =>
    exact (planned_soleArg _ args).bind fun a ↦ (planned_isBounded a).bind fun _ ↦ .pure _
  | bound side => exact (planned_bound side args).map _
  | boundOfElements side => exact (planned_boundOfElements side args).map _
  | upperSet =>
    exact (planned_soleArg _ args).bind fun a ↦ (planned_upperSet a).bind fun _ ↦ .pure _
  | domain =>
    exact (planned_soleArg _ args).bind fun a ↦ (planned_domainOf a).bind fun _ ↦ .pure _
  | domainOfElements =>
    exact (planned_soleArg _ args).bind fun a ↦ (planned_domainOfElements a).bind fun _ ↦ .pure _
  | indexSet k =>
    exact (planned_soleArg _ args).bind fun a ↦ (planned_indexSet a k).bind fun _ ↦ .pure _
  | rearrange n => exact (planned_rearrange n args).map _

/-! ### Values -/

theorem planned_valueOfBinary (op : BinaryOp) (left right : ExprKey) :
    PlannedEval ctx fun T ↦ (T.evaluator ctx).valueOfBinary op left right := by
  refine (planned_eval left).bind fun a ↦ ?_
  cases op.decided? a with
  | some v => exact PlannedEval.pure v
  | none => exact (planned_eval right).bind fun b ↦ .ofExcept _

theorem planned_valueOfElement (array : ExprKey) (indices : List ExprKey) :
    PlannedEval ctx fun T ↦ (T.evaluator ctx).valueOfElement array indices :=
  (planned_arrayOf array).bind fun _ ↦ (PlannedEval.mapM indices planned_intOf).bind fun _ ↦
    (PlannedEval.ofExcept _).bind planned_eval

theorem planned_valueOfCall (name : String) (resolved : Option FnKey) (args : List ExprKey) :
    PlannedEval ctx fun T ↦ (T.evaluator ctx).valueOfCall name resolved args := by
  cases resolved with
  | none => exact PlannedEval.fail _
  | some f =>
    simp only [Evaluator.valueOfCall, Answers.toContext_evaluator]
    cases ctx.registry.builtin? f with
    | none => exact PlannedEval.fail _
    | some b => exact (planned_apply args b).inScope

theorem planned_valueByForm (e : ExprKey) :
    PlannedEval ctx fun T ↦ (T.evaluator ctx).valueByForm e := by
  simp only [Evaluator.valueByForm, Answers.toContext_evaluator]
  cases ctx.model.form e with
  | int v => exact PlannedEval.pure _
  | bool b => exact PlannedEval.pure _
  | set members => exact (PlannedEval.mapM members planned_intOf).bind fun _ ↦ .pure _
  | between lo hi => exact (planned_intOf lo).bind fun _ ↦ (planned_intOf hi).bind fun _ ↦ .pure _
  | name name resolved => exact planned_eval e
  | array literal => exact PlannedEval.ofExcept _
  | element array indices => exact planned_valueOfElement array indices
  | call name resolved args => exact planned_valueOfCall name resolved args
  | binary op left right => exact planned_valueOfBinary op left right
  | unary op operand => exact (planned_eval operand).bind fun _ ↦ .ofExcept _
  | choice cond yes no =>
    refine (planned_boolOf cond).bind fun b ↦ ?_
    cases b with
    | true => exact planned_eval yes
    | false => exact planned_eval no

theorem planned_valueOfEnd (c : ChainEnd) :
    PlannedEval ctx fun T ↦ (T.evaluator ctx).valueOfEnd c := by
  cases c with
  | expression e => exact planned_valueByForm e
  | undefined v => exact PlannedEval.throw (ctx.missingValue v)

end ConstraintEval
