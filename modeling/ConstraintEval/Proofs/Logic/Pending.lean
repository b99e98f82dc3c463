import ConstraintEval.Proofs.Evaluation.Rules
import ConstraintEval.Proofs.Logic.Basic

/-!
# What is pending stays pending

Every step gives back the declarations that were pending before it, as visits are only begun at
the start of a scope. This is a logic of evaluation.
-/

namespace ConstraintEval

open Pending

variable {ctx : Context} {α β : Type}

/-! ### Scopes in which a visit begins -/

/-- What following a chain of names in a scope comes to. -/
theorem Context.chain_apply (e : ExprKey) (f : ChainEnd → EvalM α) (s : EvalState) :
    EvalM.inScope (ctx.locating e (ctx.chainEnd e >>= f)) s =
      match ctx.followChain true (ctx.model.declared.size + 1) s.pending e with
      | (.ok c, p) => (f c { s.openScope with pending := p }).map fun r ↦
          (r.1.mapError fun g ↦ ctx.locate e g r.2, s.closeTo r.2)
      | (.error g, p) => some (.error (ctx.locate e g { s.openScope with pending := p }),
          s.closeTo { s.openScope with pending := p }) := by
  have opened : s.openScope.pending = s.pending := rfl
  rw [EvalM.inScope_apply, Context.locating_apply, EvalM.bind_apply, Context.chainEnd_apply,
    Option.map_map, opened]
  generalize ctx.followChain true (ctx.model.declared.size + 1) s.pending e = r
  obtain ⟨end?, p⟩ := r
  cases end? <;> rfl

/-- What visiting a variable in a scope comes to, where nothing else is found before. -/
theorem Context.visit_apply (x y : BoundM α) (v : VarKey) (span : Span) (s : EvalState) :
    BoundM.inScope (x <|> ((ctx.enter v span).bounds >>= fun _ ↦ y)) s =
      (x s.openScope).bind fun
        | (some a, t) => some (some a, s.closeTo t)
        | (none, t) =>
          match t.pending.enterNested (ctx.visitTo v span) with
          | .ok p => (y { t with pending := p }).map fun r ↦ (r.1, s.closeTo r.2)
          | .error _ => some (none, s.closeTo t) := by
  rw [BoundM.inScope_apply, BoundM.orElse_apply]
  cases x s.openScope with
  | none => rfl
  | some r =>
    obtain ⟨r, t⟩ := r
    cases r with
    | some a => rfl
    | none =>
      simp only [Option.bind_some, BoundM.bind_apply, EvalM.bounds_apply, Context.enter_apply]
      cases t.pending.enterNested (ctx.visitTo v span) <;> rfl

/-! ### The logic -/

/-- A step gives back what was pending before it. -/
def KeepsPending (x : StepM α) : Prop := ∀ s a t, x s = some (a, t) → t.pending = s.pending

namespace KeepsPending

theorem pure (a : α) : KeepsPending (Pure.pure a : StepM α) := by
  intro s b t h
  cases h
  rfl

theorem closeTo {s t : EvalState} (h : t.pending = s.pending) :
    (s.closeTo t).pending = s.pending := by
  change t.pending.leaveTo s.pending.size = s.pending
  rw [h]
  exact s.pending.leaveTo_size

theorem bind {x : EvalM α} {f : α → EvalM β} (hx : KeepsPending x.run)
    (hf : ∀ a, Gives x a → KeepsPending (f a).run) : KeepsPending (x >>= f).run := by
  intro s b u h
  change (x >>= f) s = _ at h
  rw [EvalM.bind_apply] at h
  obtain ⟨⟨r, t⟩, run, next⟩ := Option.bind_eq_some_iff.1 h
  have first := hx s r t run
  cases r with
  | ok a => exact (hf a ⟨s, t, run⟩ t b u next).trans first
  | error g =>
    cases next
    exact first

theorem locating (e : ExprKey) {x : EvalM α} (hx : KeepsPending x.run) :
    KeepsPending (ctx.locating e x).run := by
  intro s r t h
  change ctx.locating e x s = _ at h
  rw [Context.locating_apply] at h
  obtain ⟨⟨r', u⟩, run, h⟩ := Option.map_eq_some_iff.1 h
  cases h
  exact hx s r' _ run

theorem inScope {x : EvalM α} (hx : KeepsPending x.run) : KeepsPending (EvalM.inScope x).run := by
  intro s r t h
  change EvalM.inScope x s = _ at h
  rw [EvalM.inScope_apply] at h
  obtain ⟨⟨r', u⟩, run, h⟩ := Option.map_eq_some_iff.1 h
  cases h
  exact closeTo (hx s.openScope r' u run)

theorem chain (e : ExprKey) {f : ChainEnd → EvalM α}
    (hf : ∀ c, Leads ctx e c → KeepsPending (f c).run) :
    KeepsPending (EvalM.inScope (ctx.locating e (ctx.chainEnd e >>= f))).run := by
  intro s r t h
  change EvalM.inScope _ s = _ at h
  rw [Context.chain_apply] at h
  have grows := grows_followChain ctx true (ctx.model.declared.size + 1) s.pending e
  cases follow : ctx.followChain true (ctx.model.declared.size + 1) s.pending e with
  | mk end? p =>
    rw [follow] at h grows
    cases end? with
    | error g =>
      cases h
      exact grows.leaveTo
    | ok c =>
      obtain ⟨⟨r', u⟩, run, h⟩ := Option.map_eq_some_iff.1 h
      cases h
      have kept := hf c (leads_of_followChain follow) _ r' u run
      change u.pending.leaveTo s.pending.size = s.pending
      rw [kept]
      exact grows.leaveTo

theorem failAt (e : ExprKey) (cause : Cause) :
    KeepsPending (ctx.failAt e cause : EvalM α).run := by
  intro s r t h
  cases h
  rfl

theorem keep (v : Value) :
    KeepsPending (do modify (EvalState.keep v); return v : EvalM Value).run := by
  intro s r t h
  cases h
  exact s.pending_keep v

theorem bind_bounds {x : BoundM α} {f : α → BoundM β} (hx : KeepsPending x.run)
    (hf : ∀ a, Offers x a → KeepsPending (f a).run) : KeepsPending (x >>= f).run := by
  intro s b u h
  change (x >>= f) s = _ at h
  rw [BoundM.bind_apply] at h
  obtain ⟨⟨r, t⟩, run, next⟩ := Option.bind_eq_some_iff.1 h
  have first := hx s r t run
  cases r with
  | some a => exact (hf a ⟨s, t, run⟩ t b u next).trans first
  | none =>
    cases next
    exact first

theorem orElse {x y : BoundM α} (hx : KeepsPending x.run) (hy : KeepsPending y.run) :
    KeepsPending (x <|> y).run := by
  intro s b u h
  change (x <|> y) s = _ at h
  rw [BoundM.orElse_apply] at h
  obtain ⟨⟨r, t⟩, run, next⟩ := Option.bind_eq_some_iff.1 h
  have first := hx s r t run
  cases r with
  | some a =>
    cases next
    exact first
  | none => exact (hy t b u next).trans first

theorem inScope_bounds {x : BoundM α} (hx : KeepsPending x.run) :
    KeepsPending (BoundM.inScope x).run := by
  intro s r t h
  change BoundM.inScope x s = _ at h
  rw [BoundM.inScope_apply] at h
  obtain ⟨⟨r', u⟩, run, h⟩ := Option.map_eq_some_iff.1 h
  cases h
  exact closeTo (hx s.openScope r' u run)

theorem bounds {x : EvalM α} (hx : KeepsPending x.run) : KeepsPending x.bounds.run := by
  intro s r t h
  change x.bounds s = _ at h
  rw [EvalM.bounds_apply] at h
  obtain ⟨⟨r', u⟩, run, h⟩ := Option.map_eq_some_iff.1 h
  cases h
  exact hx s r' _ run

theorem visit {x y : BoundM α} {v : VarKey} {span : Span} (hx : KeepsPending x.run)
    (hy : KeepsPending y.run) :
    KeepsPending (BoundM.inScope (x <|> ((ctx.enter v span).bounds >>= fun _ ↦ y))).run := by
  intro s r t h
  change BoundM.inScope _ s = _ at h
  rw [Context.visit_apply] at h
  obtain ⟨⟨o, u⟩, run, h⟩ := Option.bind_eq_some_iff.1 h
  have first : u.pending = s.pending := hx s.openScope o u run
  cases o with
  | some a =>
    cases h
    exact closeTo first
  | none =>
    simp only at h
    split at h
    · next p entered =>
      obtain ⟨⟨o, w⟩, run', h⟩ := Option.map_eq_some_iff.1 h
      cases h
      obtain ⟨-, -, added⟩ := enter_eq_ok_iff.1 entered
      have second : w.pending = p := hy _ o w run'
      change w.pending.leaveTo s.pending.size = s.pending
      rw [second, added, first]
      exact s.pending.leaveTo_add _ _
    · cases h
      exact closeTo first

theorem succeeds {x : BoundM α} (hx : KeepsPending x.run) : KeepsPending x.succeeds.run := by
  intro s r t h
  obtain ⟨⟨b, u⟩, run, h⟩ := Option.bind_eq_some_iff.1 h
  obtain ⟨⟨o, w⟩, run, eq⟩ := Option.bind_eq_some_iff.1 run
  cases eq
  cases h
  exact hx s o _ run

theorem orFail {x : BoundM α} (e : ExprKey) (cause : Cause) (hx : KeepsPending x.run) :
    KeepsPending (x.orFail (ctx.failureAt e cause)).run := by
  intro s r t h
  change x.orFail _ s = _ at h
  rw [BoundM.orFail_apply] at h
  obtain ⟨⟨o, u⟩, run, h⟩ := Option.bind_eq_some_iff.1 h
  have first := hx s o u run
  cases o with
  | some a =>
    cases h
    exact first
  | none =>
    cases h
    exact first

end KeepsPending

/-- That what was pending stays pending is passed on by all ways of putting steps together. -/
def keepsPending (ctx : Context) : EvalLogic ctx where
  Evals _ _ x := KeepsPending x.run
  Bounds _ _ x := KeepsPending x.run
  Searches _ := True
  weaken _ h := h
  ofExcept _ := .pure _
  failAt e cause _ := .failAt e cause
  bind := .bind
  locating := .locating
  inScope := .inScope
  keep := .keep
  chain e _ hf := .chain e fun c leads ↦
    hf c (fun _ ↦ True) leads (fun _ _ _ _ ↦ trivial) (by cases c <;> simp [ChainEnd.In])
  weaken_bounds _ h := h
  ofOption _ := .pure _
  bind_bounds := .bind_bounds
  orElse := .orElse
  inScope_bounds := .inScope_bounds
  bounds := .bounds
  visit _ hx hy := .visit hx (hy (fun _ ↦ True) (fun _ _ _ _ ↦ trivial) fun _ _ ↦ trivial)
  succeeds _ := .succeeds
  orFail e cause _ _ := .orFail e cause

end ConstraintEval
