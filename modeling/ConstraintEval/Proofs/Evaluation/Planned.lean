import ConstraintEval.Eval.Solver
import ConstraintEval.Eval.Step
import ConstraintEval.Proofs.Evaluation.Plan
import ConstraintEval.Proofs.Evaluation.Run

/-!
# Steps that follow a plan

A step that takes its answers from a table follows a plan when its outcome is what the plan
gives for the declarations that are pending: it looks at nothing else that it is given, every
question comes up with at least these declarations pending, and open scopes stay as they are.
Every rule of evaluation follows a plan. This module proves it for the ways in which rules are
put together; `Rules` proves it for the rules.
-/

namespace ConstraintEval

open Pending

/-- The state after a result has been kept, where it is one that is kept. -/
def EvalState.keepResult (s : EvalState) : Except Failure Value → EvalState
  | .ok v => s.keep v
  | .error _ => s

/-- Closing a scope in which nothing that was kept before was lost leads back to the state that
it was opened in, if the visits begun in it are the ones that go. -/
theorem EvalState.closeTo_eq_self {s t : EvalState}
    (pending : t.pending.leaveTo s.pending.size = s.pending) (kept : s.kept <:+ t.kept)
    (scopes : t.scopes = s.scopes + 1) : s.closeTo t = s := by
  obtain ⟨new, kept⟩ := kept
  ext1
  · exact pending
  · change t.kept.drop (t.kept.length - s.kept.length) = s.kept
    rw [← kept, List.length_append, Nat.add_sub_cancel, List.drop_left]
  · change t.scopes - 1 = s.scopes
    rw [scopes, Nat.add_sub_cancel]

/-- The evaluator that looks its answers up in a table. -/
def Answers.evaluator (T : Answers) (ctx : Context) : Evaluator :=
  { ctx with
    eval := fun e ↦ ExceptT.mk fun s ↦
      (T (.value e s.pending)).map fun r ↦ (r, s.keepResult r)
    bounds := fun e ↦ OptionT.mk fun s ↦ (T (.bounds e s.pending)).map fun r ↦ (r, s) }

@[simp] theorem Answers.toContext_evaluator (T : Answers) (ctx : Context) :
    (T.evaluator ctx).toContext = ctx := rfl

theorem Answers.eval_evaluator (T : Answers) (ctx : Context) (e : ExprKey) (s : EvalState) :
    (T.evaluator ctx).eval e s =
      (T (.value e s.pending)).map fun r ↦ (r, s.keepResult r) := rfl

theorem Answers.bounds_evaluator (T : Answers) (ctx : Context) (e : ExprKey) (s : EvalState) :
    (T.evaluator ctx).bounds e s = (T (.bounds e s.pending)).map fun r ↦ (r, s) := rfl

/-- What a step in a state gives, as some result and the declarations that are pending after
it say: that result, with nothing that was kept lost and no scope opened or closed. -/
inductive Follows {α : Type} (s : EvalState) :
    Option (α × Pending) → Option (α × EvalState) → Prop where
  | none : Follows s none none
  | some {a : α} {t : EvalState} (kept : s.kept <:+ t.kept) (scopes : t.scopes = s.scopes) :
    Follows s (some (a, t.pending)) (some (a, t))

/-- A step that follows a plan. -/
def Planned (ctx : Context) {α : Type} (x : Answers → StepM α) : Prop :=
  ∃ plan : Pending → Plan (α × Pending),
    (∀ p, (plan p).Within (fun q ↦ Grows ctx.model p q.pending)
      (fun r ↦ Grows ctx.model p r.2)) ∧
    ∀ T s, Follows s ((plan s.pending).run T) (x T s)

/-- A step that follows a plan and leaves the state as it is. -/
def Scoped (ctx : Context) {α : Type} (x : Answers → StepM α) : Prop :=
  ∃ plan : Pending → Plan α,
    (∀ p, (plan p).Within (fun q ↦ Grows ctx.model p q.pending) (fun _ ↦ True)) ∧
    ∀ T s, x T s = ((plan s.pending).run T).map fun a ↦ (a, s)

/-- An evaluation that follows a plan. -/
def PlannedEval (ctx : Context) {α : Type} (x : Answers → EvalM α) : Prop :=
  Planned ctx fun T ↦ (x T).run

/-- A search for bounds that follows a plan. -/
def PlannedBound (ctx : Context) {α : Type} (x : Answers → BoundM α) : Prop :=
  Planned ctx fun T ↦ (x T).run

variable {ctx : Context} {α β : Type}

/-! ### Steps -/

namespace Planned

/-- A step that asks nothing follows a plan when it only adds to what is pending. -/
theorem of_run {x : StepM α} {f : Pending → α × Pending}
    (grows : ∀ p, Grows ctx.model p (f p).2)
    (run : ∀ s, x s = some ((f s.pending).1, { s with pending := (f s.pending).2 })) :
    Planned ctx fun _ ↦ x := by
  refine ⟨fun p ↦ .done (f p), grows, ?_⟩
  intro T s
  change Follows s (some (f s.pending)) (x s)
  rw [run]
  exact Follows.some (t := { s with pending := (f s.pending).2 }) (List.suffix_refl _) rfl

theorem pure (a : α) : Planned ctx fun _ ↦ (Pure.pure a : StepM α) :=
  of_run (f := fun p ↦ (a, p)) (fun _ ↦ .refl) fun _ ↦ rfl

/-- A step that reads what is pending follows a plan. -/
theorem read (f : EvalState → α) (only : ∀ s t, s.pending = t.pending → f s = f t) :
    Planned ctx fun _ ↦ (do return f (← get) : StepM α) := by
  apply of_run (f := fun p ↦ (f (⟨p, [], 0⟩), p))
  · intro p
    exact .refl
  · intro s
    change some (f s, s) = _
    rw [only s ⟨s.pending, [], 0⟩ rfl]

theorem bind {x : Answers → StepM α} {f : Answers → α → StepM β} (hx : Planned ctx x)
    (hf : ∀ a, Planned ctx fun T ↦ f T a) : Planned ctx fun T ↦ x T >>= f T := by
  obtain ⟨plan, grows, follows⟩ := hx
  choose next grows' follows' using hf
  refine ⟨fun p ↦ (plan p).bind fun r ↦ next r.1 r.2, ?_, ?_⟩
  · intro p
    apply Plan.within_bind (grows p)
    intro r hr
    exact (grows' r.1 r.2).imp (fun _ ↦ hr.trans) fun _ ↦ hr.trans
  · intro T s
    rw [Plan.run_bind]
    change Follows s _ ((x T s).bind fun r ↦ f T r.1 r.2)
    have first := follows T s
    generalize (plan s.pending).run T = o at first
    generalize x T s = o' at first
    cases first with
    | none => exact .none
    | @some a t kept scopes =>
      have second : Follows t ((next a t.pending).run T) (f T a t) := follows' a T t
      change Follows s ((next a t.pending).run T) (f T a t)
      generalize (next a t.pending).run T = o at second ⊢
      generalize f T a t = o' at second ⊢
      cases second with
      | none => exact .none
      | some kept' scopes' => exact .some (kept.trans kept') (scopes'.trans scopes)

/-- A step that goes on with what a planned step gives follows a plan. -/
theorem chain {x : Answers → StepM α} {y : Answers → StepM β} {f : Answers → α → StepM β}
    (hx : Planned ctx x) (hf : ∀ a, Planned ctx fun T ↦ f T a)
    (hy : ∀ T s, y T s = (x T s).bind fun r ↦ f T r.1 r.2) : Planned ctx y := by
  have eq : y = fun T ↦ x T >>= f T := by
    funext T s
    exact hy T s
  rw [eq]
  exact hx.bind hf

theorem map {x : Answers → StepM α} (f : α → β) (hx : Planned ctx x) :
    Planned ctx fun T ↦ f <$> x T := by
  have h : Planned ctx fun T ↦ x T >>= fun a ↦ Pure.pure (f a) := hx.bind fun a ↦ pure (f a)
  simpa only [bind_pure_comp] using h

/-- A step in a scope of its own leaves the state as it is. -/
theorem inScope {x : Answers → StepM α} (hx : Planned ctx x) :
    Scoped ctx fun T ↦ StepM.inScope (x T) := by
  obtain ⟨plan, grows, follows⟩ := hx
  refine ⟨fun p ↦ (plan p).map Prod.fst, ?_, ?_⟩
  · intro p
    apply Plan.within_bind (grows p)
    intro r _
    trivial
  · intro T s
    rw [Plan.run_map]
    change (x T s.openScope).bind (fun r ↦ some (r.1, s.closeTo r.2)) = _
    have run := follows T s.openScope
    have result : ∀ r, (plan s.pending).run T = some r → r.2.leaveTo s.pending.size = s.pending :=
      fun r hr ↦ ((grows s.pending).of_run hr).leaveTo
    change Follows s.openScope ((plan s.pending).run T) _ at run
    generalize (plan s.pending).run T = o at run result
    generalize x T s.openScope = o' at run
    cases run with
    | none => rfl
    | @some a t kept scopes =>
      have closed : s.closeTo t = s := EvalState.closeTo_eq_self (result _ rfl) kept scopes
      simp only [Option.bind_some, Option.map_some, closed]

end Planned

/-- A step that leaves the state as it is adds nothing to it. -/
theorem Scoped.planned {x : Answers → StepM α} (hx : Scoped ctx x) : Planned ctx x := by
  obtain ⟨plan, grows, run⟩ := hx
  refine ⟨fun p ↦ (plan p).map fun a ↦ (a, p), ?_, ?_⟩
  · intro p
    apply Plan.within_bind (grows p)
    intro _ _
    exact .refl
  · intro T s
    rw [Plan.run_map, run]
    cases (plan s.pending).run T with
    | none => exact .none
    | some a => exact .some (List.suffix_refl _) rfl

/-! ### Evaluations -/

namespace PlannedEval

theorem ofExcept (r : Except Failure α) : PlannedEval ctx fun _ ↦ EvalM.ofExcept r :=
  Planned.pure r

theorem pure (a : α) : PlannedEval ctx fun _ ↦ (Pure.pure a : EvalM α) := ofExcept (.ok a)

theorem throw (f : Failure) : PlannedEval ctx fun _ ↦ (throw f : EvalM α) := ofExcept (.error f)

theorem fail (cause : Cause) : PlannedEval ctx fun _ ↦ (EvalM.fail cause : EvalM α) :=
  throw (.of cause)

theorem ofOption (cause : Cause) (o : Option α) :
    PlannedEval ctx fun _ ↦ EvalM.ofOption cause o := by
  cases o with
  | none => exact fail cause
  | some a => exact pure a

theorem bind {x : Answers → EvalM α} {f : Answers → α → EvalM β} (hx : PlannedEval ctx x)
    (hf : ∀ a, PlannedEval ctx fun T ↦ f T a) : PlannedEval ctx fun T ↦ x T >>= f T := by
  apply Planned.bind hx
  intro r
  cases r with
  | error e => exact ofExcept (.error e)
  | ok a => exact hf a

theorem map {x : Answers → EvalM α} (f : α → β) (hx : PlannedEval ctx x) :
    PlannedEval ctx fun T ↦ f <$> x T := by
  have h : PlannedEval ctx fun T ↦ x T >>= fun a ↦ Pure.pure (f a) := hx.bind fun a ↦ pure (f a)
  simpa only [bind_pure_comp] using h

theorem lift {x : Answers → StepM α} (hx : Planned ctx x) :
    PlannedEval ctx fun T ↦ (ExceptT.lift (x T) : EvalM α) := Planned.map Except.ok hx

theorem failureAt (e : ExprKey) (cause : Cause) :
    Planned ctx fun _ ↦ ctx.failureAt e cause := by
  apply Planned.read
  intro s t h
  simp only [Context.locate, h]

theorem failAt (e : ExprKey) (cause : Cause) :
    PlannedEval ctx fun _ ↦ (ctx.failAt e cause : EvalM α) :=
  (lift (failureAt e cause)).bind throw

theorem locating (e : ExprKey) {x : Answers → EvalM α} (hx : PlannedEval ctx x) :
    PlannedEval ctx fun T ↦ ctx.locating e (x T) := by
  let located (r : Except Failure α) (s : EvalState) : Except Failure α :=
    r.mapError fun f ↦ ctx.locate e f s
  refine Planned.chain hx (f := fun _ r ↦ do return located r (← get)) ?_ ?_
  · intro r
    apply Planned.read
    intro s t h
    simp only [located, Context.locate, h]
  · intro T s
    apply (Context.locating_apply e (x T) s).trans
    change (x T s).map _ = (x T s).bind _
    cases x T s <;> rfl

/-- Evaluating the items of a list one after another follows a plan. -/
theorem mapM (xs : List α) {f : Answers → α → EvalM β}
    (hf : ∀ a, PlannedEval ctx fun T ↦ f T a) : PlannedEval ctx fun T ↦ xs.mapM (f T) := by
  induction xs with
  | nil => exact pure []
  | cons a xs ih =>
    simp only [List.mapM_cons]
    exact (hf a).bind fun b ↦ ih.bind fun bs ↦ pure (b :: bs)

theorem foldlM (xs : List α) (b : β) {f : Answers → β → α → EvalM β}
    (hf : ∀ b a, PlannedEval ctx fun T ↦ f T b a) :
    PlannedEval ctx fun T ↦ xs.foldlM (f T) b := by
  induction xs generalizing b with
  | nil => exact pure b
  | cons a xs ih =>
    simp only [List.foldlM_cons]
    exact (hf b a).bind ih

theorem allM (xs : List α) {f : Answers → α → EvalM Bool}
    (hf : ∀ a, PlannedEval ctx fun T ↦ f T a) : PlannedEval ctx fun T ↦ xs.allM (f T) := by
  induction xs with
  | nil => exact pure true
  | cons a xs ih =>
    refine (hf a).bind fun b ↦ ?_
    cases b with
    | false => exact pure false
    | true => exact ih

theorem anyM (xs : List α) {f : Answers → α → EvalM Bool}
    (hf : ∀ a, PlannedEval ctx fun T ↦ f T a) : PlannedEval ctx fun T ↦ xs.anyM (f T) := by
  induction xs with
  | nil => exact pure false
  | cons a xs ih =>
    refine (hf a).bind fun b ↦ ?_
    cases b with
    | false => exact ih
    | true => exact pure true

theorem ite (c : Bool) {x y : Answers → EvalM α} (hx : PlannedEval ctx x)
    (hy : PlannedEval ctx y) : PlannedEval ctx fun T ↦ if c then x T else y T := by
  cases c with
  | true => exact hx
  | false => exact hy

theorem inScope {x : Answers → EvalM α} (hx : PlannedEval ctx x) :
    PlannedEval ctx fun T ↦ EvalM.inScope (x T) := (Planned.inScope hx).planned

end PlannedEval

/-! ### Searches for bounds -/

namespace PlannedBound

theorem ofOption (r : Option α) : PlannedBound ctx fun _ ↦ BoundM.ofOption r := Planned.pure r

theorem pure (a : α) : PlannedBound ctx fun _ ↦ (Pure.pure a : BoundM α) := ofOption (some a)

theorem failure : PlannedBound ctx fun _ ↦ (failure : BoundM α) := ofOption none

private def next (f : α → BoundM β) (instead : BoundM β) : Option α → BoundM β
  | some a => f a
  | none => instead

theorem bind {x : Answers → BoundM α} {f : Answers → α → BoundM β} (hx : PlannedBound ctx x)
    (hf : ∀ a, PlannedBound ctx fun T ↦ f T a) : PlannedBound ctx fun T ↦ x T >>= f T := by
  change Planned ctx fun T ↦ (x T).run >>= fun r ↦ (next (f T) Alternative.failure r).run
  apply Planned.bind hx
  intro r
  cases r with
  | none => exact ofOption none
  | some a => exact hf a

theorem orElse {x y : Answers → BoundM α} (hx : PlannedBound ctx x) (hy : PlannedBound ctx y) :
    PlannedBound ctx fun T ↦ (x T <|> y T) := by
  refine Planned.chain hx (f := fun T ↦ next Pure.pure (y T)) ?_ ?_
  · intro r
    cases r with
    | none => exact hy
    | some a => exact ofOption (some a)
  · intro T s
    apply (BoundM.orElse_apply (x T) (y T) s).trans
    congr 1
    funext ⟨r, t⟩
    cases r <;> rfl

theorem ite (c : Bool) {x y : Answers → BoundM α} (hx : PlannedBound ctx x)
    (hy : PlannedBound ctx y) : PlannedBound ctx fun T ↦ if c then x T else y T := by
  cases c with
  | true => exact hx
  | false => exact hy

theorem ofEval {x : Answers → EvalM α} (hx : PlannedEval ctx x) :
    PlannedBound ctx fun T ↦ (x T).bounds := Planned.map _ hx

theorem mapM (xs : List α) {f : Answers → α → BoundM β}
    (hf : ∀ a, PlannedBound ctx fun T ↦ f T a) : PlannedBound ctx fun T ↦ xs.mapM (f T) := by
  induction xs with
  | nil => exact pure []
  | cons a xs ih =>
    simp only [List.mapM_cons]
    exact (hf a).bind fun b ↦ ih.bind fun bs ↦ pure (b :: bs)

theorem succeeds {x : Answers → BoundM α} (hx : PlannedBound ctx x) :
    PlannedEval ctx fun T ↦ (x T).succeeds := PlannedEval.lift (Planned.map Option.isSome hx)

theorem orFail {x : Answers → BoundM α} {f : StepM Failure} (hx : PlannedBound ctx x)
    (hf : Planned ctx fun _ ↦ f) : PlannedEval ctx fun T ↦ (x T).orFail f := by
  apply Planned.bind hx
  intro r
  cases r with
  | some a => exact Planned.pure _
  | none => exact hf.bind fun f ↦ Planned.pure _

end PlannedBound

/-! ### Visits -/

theorem grows_followChain (ctx : Context) (nested : Bool) (steps : Nat) (p : Pending)
    (e : ExprKey) : Grows ctx.model p (ctx.followChain nested steps p e).2 := by
  induction steps generalizing nested p e with
  | zero =>
    unfold Context.followChain
    split <;> exact .refl
  | succ steps ih =>
    unfold Context.followChain
    split
    · exact .refl
    · next name v form =>
      simp only
      split
      · exact .refl
      · next entered enter =>
        have grows := grows_of_enter (m := ctx.model) ⟨e, name, form⟩ enter
        split
        · exact grows
        · exact grows.trans (ih ..)
    · exact .refl

/-- Following a chain of names follows a plan. -/
theorem plannedEval_chainEnd (e : ExprKey) : PlannedEval ctx fun _ ↦ ctx.chainEnd e :=
  Planned.of_run (f := fun p ↦ ctx.followChain true (ctx.model.declared.size + 1) p e)
    (fun p ↦ grows_followChain ctx _ _ p e) fun _ ↦ rfl

/-- What comes of a visit that was begun or refused. -/
private def Pending.outcome (p : Pending) : Except Failure Pending → Except Failure Unit × Pending
  | .ok entered => (.ok (), entered)
  | .error f => (.error f, p)

/-- Visiting a variable that the model names follows a plan. -/
theorem plannedEval_enter {v : VarKey} (named : ctx.model.Names v) (span : Span) :
    PlannedEval ctx fun _ ↦ ctx.enter v span := by
  apply Planned.of_run (f := fun p ↦ p.outcome (p.enterNested (ctx.visitTo v span)))
  · intro p
    unfold Pending.outcome
    split
    · next entered enter => exact grows_of_enter named enter
    · exact .refl
  · intro s
    apply (Context.enter_apply v span s).trans
    cases s.pending.enterNested (ctx.visitTo v span) <;> rfl

end ConstraintEval
