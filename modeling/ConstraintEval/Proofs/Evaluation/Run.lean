import ConstraintEval.Eval.Evaluator

/-!
# Runs of steps

What the ways of putting steps together do in a given state.
-/

namespace ConstraintEval

variable {α β : Type}

namespace EvalM

theorem bind_apply (x : EvalM α) (f : α → EvalM β) (s : EvalState) :
    (x >>= f) s = (x s).bind fun r ↦
      match r with
      | (.ok a, t) => f a t
      | (.error e, t) => some (.error e, t) := by
  change (x s).bind _ = _
  congr 1
  funext ⟨r, t⟩
  cases r <;> rfl

theorem inScope_apply (x : EvalM α) (s : EvalState) :
    EvalM.inScope x s = (x s.openScope).map fun r ↦ (r.1, s.closeTo r.2) := by
  change (x s.openScope).bind _ = _
  cases x s.openScope <;> rfl

theorem bounds_apply (x : EvalM α) (s : EvalState) :
    x.bounds s = (x s).map fun r ↦ (r.1.toOption, r.2) := by
  change (x s).bind _ = _
  cases x s <;> rfl

end EvalM

namespace BoundM

theorem bind_apply (x : BoundM α) (f : α → BoundM β) (s : EvalState) :
    (x >>= f) s = (x s).bind fun r ↦
      match r with
      | (some a, t) => f a t
      | (none, t) => some (none, t) := by
  change (x s).bind _ = _
  congr 1
  funext ⟨r, t⟩
  cases r <;> rfl

theorem orElse_apply (x y : BoundM α) (s : EvalState) :
    (x <|> y) s = (x s).bind fun r ↦
      match r with
      | (some a, t) => some (some a, t)
      | (none, t) => y t := by
  change (x s).bind _ = _
  congr 1
  funext ⟨r, t⟩
  cases r <;> rfl

theorem inScope_apply (x : BoundM α) (s : EvalState) :
    BoundM.inScope x s = (x s.openScope).map fun r ↦ (r.1, s.closeTo r.2) := by
  change (x s.openScope).bind _ = _
  cases x s.openScope <;> rfl

theorem succeeds_apply (x : BoundM α) (s : EvalState) :
    x.succeeds s = (x s).map fun r ↦ (.ok r.1.isSome, r.2) := by
  change ((x s).bind _).bind _ = _
  cases x s <;> rfl

theorem orFail_apply (x : BoundM α) (f : StepM Failure) (s : EvalState) :
    x.orFail f s = (x s).bind fun r ↦
      match r with
      | (some a, t) => some (.ok a, t)
      | (none, t) => (f t).map fun r ↦ (.error r.1, r.2) := by
  change (x s).bind _ = _
  congr 1
  funext ⟨r, t⟩
  cases r with
  | none =>
    change (f t).bind _ = (f t).map _
    cases f t <;> rfl
  | some a => rfl

end BoundM

namespace Context

variable {ctx : Context}

theorem locating_apply (e : ExprKey) (x : EvalM α) (s : EvalState) :
    ctx.locating e x s = (x s).map fun r ↦ (r.1.mapError fun f ↦ ctx.locate e f r.2, r.2) := by
  change (x s).bind _ = _
  cases x s with
  | none => rfl
  | some r =>
    obtain ⟨r, t⟩ := r
    cases r <;> rfl

/-- Placing a failure leaves its cause as it is. -/
theorem cause_locate (e : ExprKey) (f : Failure) (s : EvalState) :
    (ctx.locate e f s).cause = f.cause := by
  simp only [Context.locate, Pending.addTrail, Failure.trailing, Failure.orPlaced]
  split <;> split <;> rfl

theorem chainEnd_apply (e : ExprKey) (s : EvalState) :
    ctx.chainEnd e s =
      let r := ctx.followChain true (ctx.model.declared.size + 1) s.pending e
      some (r.1, { s with pending := r.2 }) := rfl

theorem enter_apply (v : VarKey) (span : Span) (s : EvalState) :
    ctx.enter v span s =
      match s.pending.enterNested (ctx.visitTo v span) with
      | .ok p => some (.ok (), { s with pending := p })
      | .error f => some (.error f, s) := by
  let next (p : Pending) : EvalM Unit := set { s with pending := p }
  change (EvalM.ofExcept (s.pending.enterNested (ctx.visitTo v span)) >>= next) s = _
  rw [EvalM.bind_apply]
  cases h : s.pending.enterNested (ctx.visitTo v span) <;> rfl

end Context

end ConstraintEval
