import ConstraintEval.Proofs.Evaluation.Rules

/-!
# Levels of evaluation as tables of answers

The evaluator with a number of levels looks its answers up in a table: without levels the table
is empty, and each level answers by the rules whatever they answer over the table before it. So
all that can be said about plans can be said about evaluators.
-/

namespace ConstraintEval

open Pending

variable {ctx : Context}

/-- What the rules answer over a table of answers. -/
def Context.rule (ctx : Context) (T : Answers) : Answers
  | .value e p => (((T.evaluator ctx).valueStep e).run ⟨p, [], 0⟩).map Prod.fst
  | .bounds e p => (((T.evaluator ctx).boundsStep e).run ⟨p, [], 0⟩).map Prod.fst

/-- The answers that a number of levels give. -/
def Context.answersAt (ctx : Context) : (levels : Nat) → Answers
  | 0 => .empty
  | n + 1 => ctx.rule (ctx.answersAt n)

theorem answersAt_succ (ctx : Context) (n : Nat) :
    ctx.answersAt (n + 1) = ctx.rule (ctx.answersAt n) := rfl

/-- The answers of the evaluator of a model. -/
def Context.answers (ctx : Context) : Answers := ctx.answersAt ctx.levels

/-- A value that is found in a scope and kept after it, as a plan gives it. -/
private theorem valueStep_eq (ctx : Context) (e : ExprKey) :
    ∃ plan : Pending → Plan (Except Failure Value),
      (∀ p, (plan p).Within (fun q ↦ Grows ctx.model p q.pending) (fun _ ↦ True)) ∧
      ∀ T s, (T.evaluator ctx).valueStep e s =
        ((plan s.pending).run T).map fun r ↦ (r, s.keepResult r) := by
  have chain : PlannedEval ctx fun T ↦ ctx.chainEnd e >>= (T.evaluator ctx).valueOfEnd :=
    (plannedEval_chainEnd e).bind planned_valueOfEnd
  obtain ⟨plan, grows, run⟩ := Planned.inScope (chain.locating e)
  refine ⟨plan, grows, ?_⟩
  intro T s
  let keep (v : Value) : EvalM Value := do
    modify (EvalState.keep v)
    return v
  have inner : EvalM.inScope (ctx.locating e (ctx.chainEnd e >>= (T.evaluator ctx).valueOfEnd)) s =
      ((plan s.pending).run T).map fun a ↦ (a, s) := run T s
  change (EvalM.inScope (ctx.locating e (ctx.chainEnd e >>= (T.evaluator ctx).valueOfEnd)) >>=
    keep) s = _
  rw [EvalM.bind_apply, inner]
  cases (plan s.pending).run T with
  | none => rfl
  | some r => cases r <;> rfl

private theorem boundsStep_eq (ctx : Context) (e : ExprKey) :
    ∃ plan : Pending → Plan (Option Interval),
      (∀ p, (plan p).Within (fun q ↦ Grows ctx.model p q.pending) (fun _ ↦ True)) ∧
      ∀ T s, (T.evaluator ctx).boundsStep e s = ((plan s.pending).run T).map fun r ↦ (r, s) := by
  have closed : Scoped ctx fun T ↦ ((T.evaluator ctx).boundsStep e).run := by
    apply Planned.inScope
    simp only [Answers.toContext_evaluator]
    cases ctx.model.form e with
    | int v => exact PlannedBound.pure _
    | _ => exact (planned_boundsOfKnown e).orElse (planned_boundsByForm e)
  exact closed

/-- The rules answer each question by a plan, and every question that the plan asks comes up
with at least the same declarations pending. -/
theorem rule_eq_run (ctx : Context) (q : Question) :
    ∃ plan : Plan q.Answer, plan.Within (fun r ↦ Grows ctx.model q.pending r.pending)
      (fun _ ↦ True) ∧ ∀ T, ctx.rule T q = plan.run T := by
  cases q with
  | value e p =>
    obtain ⟨plan, grows, run⟩ := valueStep_eq ctx e
    refine ⟨plan p, grows p, ?_⟩
    intro T
    change ((T.evaluator ctx).valueStep e ⟨p, [], 0⟩).map Prod.fst = _
    rw [run, Option.map_map]
    exact Option.map_id_apply
  | bounds e p =>
    obtain ⟨plan, grows, run⟩ := boundsStep_eq ctx e
    refine ⟨plan p, grows p, ?_⟩
    intro T
    change ((T.evaluator ctx).boundsStep e ⟨p, [], 0⟩).map Prod.fst = _
    rw [run, Option.map_map]
    exact Option.map_id_apply

/-- The value step answers as the rules do in every state. -/
theorem valueStep_evaluator (T : Answers) (e : ExprKey) :
    (T.evaluator ctx).valueStep e = ((ctx.rule T).evaluator ctx).eval e := by
  obtain ⟨plan, -, run⟩ := valueStep_eq ctx e
  funext s
  rw [run]
  change _ = (((T.evaluator ctx).valueStep e ⟨s.pending, [], 0⟩).map Prod.fst).map _
  rw [run]
  change _ = ((((plan s.pending).run T).map _).map Prod.fst).map _
  cases (plan s.pending).run T <;> rfl

theorem boundsStep_evaluator (T : Answers) (e : ExprKey) :
    (T.evaluator ctx).boundsStep e = ((ctx.rule T).evaluator ctx).bounds e := by
  obtain ⟨plan, -, run⟩ := boundsStep_eq ctx e
  funext s
  rw [run]
  change _ = (((T.evaluator ctx).boundsStep e ⟨s.pending, [], 0⟩).map Prod.fst).map _
  rw [run]
  change _ = ((((plan s.pending).run T).map _).map Prod.fst).map _
  cases (plan s.pending).run T <;> rfl

/-- Levels are tables of answers. -/
theorem ofLevels_eq (ctx : Context) (n : Nat) :
    Evaluator.ofLevels ctx n = (ctx.answersAt n).evaluator ctx := by
  induction n with
  | zero => rfl
  | succ n ih =>
    rw [Evaluator.ofLevels, ih]
    simp only [valueStep_evaluator, boundsStep_evaluator]
    rfl

theorem evaluator_eq (ctx : Context) : ctx.evaluator = ctx.answers.evaluator ctx :=
  ofLevels_eq ctx ctx.levels

/-- The rules answer more over more answers. -/
theorem rule_mono {T T' : Answers} (h : T ≤ T') : ctx.rule T ≤ ctx.rule T' := by
  intro q a ha
  obtain ⟨plan, -, run⟩ := rule_eq_run ctx q
  rw [run] at ha ⊢
  exact Plan.run_of_le h ha

/-- More levels give more answers. -/
theorem answersAt_mono {m n : Nat} (h : m ≤ n) : ctx.answersAt m ≤ ctx.answersAt n := by
  induction m generalizing n with
  | zero =>
    intro q a ha
    cases ha
  | succ m ih =>
    obtain ⟨n, rfl⟩ : ∃ k, n = k + 1 := ⟨n - 1, by omega⟩
    exact rule_mono (ih (by omega))

/-- A question that the rules do not answer stops them at another one. -/
theorem rule_stops {T : Answers} {q : Question} (h : ctx.rule T q = none) :
    ∃ r, Grows ctx.model q.pending r.pending ∧ T r = none ∧
      ∀ T' : Answers, T.Agree T' → T' r = none → ctx.rule T' q = none := by
  obtain ⟨plan, within, run⟩ := rule_eq_run ctx q
  rw [run] at h
  obtain ⟨r, grows, none, stop⟩ := Plan.stops within h
  refine ⟨r, grows, none, ?_⟩
  intro T' agree none'
  rw [run]
  exact stop T' agree none'

/-- A question about a key without an expression is answered at once. -/
theorem rule_isSome_of_size_le (T : Answers) {q : Question}
    (h : ctx.model.nodes.size ≤ q.expr.index) : (ctx.rule T q).isSome := by
  have form := Model.form_of_size_le h
  have ty := Model.ty_of_size_le h
  cases q with
  | value e p =>
    simp only [Question.expr] at form
    change ((EvalM.inScope (ctx.locating e (ctx.chainEnd e >>= (T.evaluator ctx).valueOfEnd)) >>=
      _) _ |>.map Prod.fst).isSome
    rw [EvalM.bind_apply, EvalM.inScope_apply, Context.locating_apply, EvalM.bind_apply,
      Context.chainEnd_apply, Context.followChain, form]
    rfl
  | bounds e p =>
    simp only [Question.expr] at form ty
    have known : (T.evaluator ctx).boundsOfKnown e = failure := by
      simp only [Evaluator.boundsOfKnown, Answers.toContext_evaluator, ty]
      rfl
    have byForm : (T.evaluator ctx).boundsByForm e = failure := by
      simp only [Evaluator.boundsByForm, Answers.toContext_evaluator, form]
    simp only [Context.rule, Evaluator.boundsStep, Answers.toContext_evaluator, form, known, byForm]
    rfl

end ConstraintEval
