import ConstraintEval.Proofs.Logic.Apart

/-!
# Results of steady steps

What a steady step comes to while some declarations are pending is a result, or that there is
none, or nothing at all where the step does not end. So steady steps can be compared as
computations that may fail and may not end, without speaking of states. What is put together from
steady steps comes to what the same computation makes of their results.
-/

namespace ConstraintEval

variable {α β γ : Type} {ctx : Context} {p : Pending} {e : ExprKey}

/-- What an evaluation comes to while some declarations are pending: nothing if it does not end,
and otherwise its result, if it does not fail. -/
def EvalM.resultAt (p : Pending) (x : EvalM α) : OptionT Option α :=
  (x ⟨p, [], 0⟩).map fun r ↦ r.1.toOption

/-- What a search for bounds comes to while some declarations are pending: nothing if it does not
end, and otherwise what it finds, if anything. -/
def BoundM.resultAt (p : Pending) (x : BoundM α) : OptionT Option α :=
  (x ⟨p, [], 0⟩).map Prod.fst

/-- What there is, in a computation that may not end. -/
abbrev found? (o : Option α) : OptionT Option α := OptionT.mk (some o)

instance instDecidableEqOptionT [DecidableEq α] : DecidableEq (OptionT Option α) :=
  inferInstanceAs (DecidableEq (Option (Option α)))

/-- A computation has a result when its parts have one after the other. -/
theorem bind_eq_some_iff {x : OptionT Option α} {f : α → OptionT Option β} {b : β} :
    x >>= f = some (some b) ↔ ∃ a, x = some (some a) ∧ f a = some (some b) := by
  constructor
  · intro h
    match x with
    | none => cases h
    | some none => cases h
    | some (some a) => exact ⟨a, rfl, h⟩
  · rintro ⟨a, rfl, h⟩
    exact h

/-! ### Results in every state -/

theorem Steady.map_toOption {x : EvalM α} (steady : Steady x.run) (s : EvalState) :
    (x s).map (fun r ↦ r.1.toOption) = x.resultAt s.pending := by
  obtain ⟨result, blind⟩ := steady.blind
  have same : (x s).map Prod.fst = (x ⟨s.pending, [], 0⟩).map Prod.fst :=
    (blind s).trans (blind ⟨s.pending, [], 0⟩).symm
  have result (t : EvalState) :
      (x t).map (fun r ↦ r.1.toOption) = ((x t).map Prod.fst).map Except.toOption := by
    rw [Option.map_map]
    rfl
  rw [EvalM.resultAt, result, result, same]

theorem Steady.map_fst {x : BoundM α} (steady : Steady x.run) (s : EvalState) :
    (x s).map Prod.fst = x.resultAt s.pending := by
  obtain ⟨result, blind⟩ := steady.blind
  exact (blind s).trans (blind ⟨s.pending, [], 0⟩).symm

theorem resultAt_eq_some_iff {x : EvalM α} {a : α} (steady : Steady x.run) :
    x.resultAt p = some (some a) ↔ GivesAt p x a := by
  constructor
  · intro h
    obtain ⟨⟨r, t⟩, run, eq⟩ := Option.map_eq_some_iff.1 h
    cases r with
    | error f => cases eq
    | ok b =>
      cases eq
      exact ⟨_, t, rfl, run⟩
  · rintro ⟨s, t, rfl, run⟩
    rw [← steady.map_toOption s, run]
    rfl

/-! ### Evaluations -/

namespace EvalM

theorem resultAt_pure (a : α) : (pure a : EvalM α).resultAt p = pure a := rfl

theorem resultAt_ofOption (cause : Cause) (o : Option α) :
    (ofOption cause o).resultAt p = found? o := by
  cases o <;> rfl

theorem resultAt_bind {x : EvalM α} {f : α → EvalM β} (hx : Steady x.run)
    (hf : ∀ a, Steady (f a).run) :
    (x >>= f).resultAt p = x.resultAt p >>= fun a ↦ (f a).resultAt p := by
  change ((x >>= f) ⟨p, [], 0⟩).map _ = ((x ⟨p, [], 0⟩).map _).bind _
  rw [bind_apply]
  cases run : x ⟨p, [], 0⟩ with
  | none => rfl
  | some r =>
    obtain ⟨r, t⟩ := r
    cases r with
    | error f => rfl
    | ok a =>
      have pending : t.pending = p := (hx.traceless _ _ _ run).pending
      exact ((hf a).map_toOption t).trans (congrArg (fun q ↦ (f a).resultAt q) pending)

theorem resultAt_map {x : EvalM α} (g : α → β) (hx : Steady x.run) :
    (g <$> x).resultAt p = g <$> x.resultAt p := by
  rw [← bind_pure_comp, ← bind_pure_comp, resultAt_bind hx fun a ↦ .ok (g a)]
  rfl

theorem resultAt_locating {x : EvalM α} : (ctx.locating e x).resultAt p = x.resultAt p := by
  rw [resultAt, resultAt, Context.locating_apply, Option.map_map]
  congr 1
  funext ⟨r, t⟩
  cases r <;> rfl

theorem resultAt_inScope {x : EvalM α} (hx : Steady x.run) :
    (inScope x).resultAt p = x.resultAt p := by
  rw [resultAt, inScope_apply, Option.map_map]
  exact hx.map_toOption _

theorem resultAt_mapM {f : α → EvalM β} (xs : List α) (hf : ∀ a, Steady (f a).run) :
    (xs.mapM f).resultAt p = xs.mapM fun a ↦ (f a).resultAt p := by
  induction xs with
  | nil => rfl
  | cons a xs ih =>
    rw [List.mapM_cons, List.mapM_cons,
      resultAt_bind (hf a) fun b ↦ (Steady.mapM xs hf).andThen fun bs ↦ .ok _]
    refine bind_congr fun b ↦ ?_
    rw [resultAt_bind (.mapM xs hf) fun bs ↦ .ok _, ih]
    rfl

theorem resultAt_foldlM {f : β → α → EvalM β} (xs : List α) (hf : ∀ b a, Steady (f b a).run)
    (b : β) : (xs.foldlM f b).resultAt p = xs.foldlM (fun b a ↦ (f b a).resultAt p) b := by
  induction xs generalizing b with
  | nil => rfl
  | cons a xs ih =>
    rw [List.foldlM_cons, List.foldlM_cons, resultAt_bind (hf b a) (Steady.foldlM xs hf)]
    exact bind_congr ih

/-- An expression that is no name comes to what its form says. -/
theorem resultAt_eval_of_form (unnamed : ∀ name resolved, ctx.model.form e ≠ .name name resolved)
    (steady : Steady (ctx.evaluator.valueByForm e).run) :
    (ctx.evaluator.eval e).resultAt p = (ctx.evaluator.valueByForm e).resultAt p := by
  have result {α : Type} (x : EvalM α) (s : EvalState) :
      (x.comesTo s).map Except.toOption = (x s).map fun r ↦ r.1.toOption := by
    rw [comesTo, Option.map_map]
    congr 1
    funext result
    obtain ⟨_ | _, t⟩ := result <;> rfl
  rw [resultAt, ← result, comesTo_eval_of_form unnamed, result]
  exact steady.map_toOption _

theorem steady_valueOfBinary (op : BinaryOp) (l r : ExprKey) :
    Steady (ctx.evaluator.valueOfBinary op l r).run := by
  refine (steady_eval l).andThen fun v ↦ ?_
  cases op.decided? v with
  | some w => exact .ok w
  | none => exact (steady_eval r).andThen fun w ↦ .ofExcept _

/-- An operation evaluates its second operand unless the first one decides. -/
theorem resultAt_binary {op : BinaryOp} {l r : ExprKey}
    (form : ctx.model.form e = .binary op l r) :
    (ctx.evaluator.eval e).resultAt p = (ctx.evaluator.eval l).resultAt p >>= fun v ↦
      match op.decided? v with
      | some w => pure w
      | none => (ctx.evaluator.eval r).resultAt p >>= fun w ↦ found? (op.apply v w).toOption := by
  have byForm : ctx.evaluator.valueByForm e = ctx.evaluator.valueOfBinary op l r := by
    have form' : ctx.evaluator.model.form e = .binary op l r := form
    simp only [Evaluator.valueByForm, form']
  have second (v w : Value) : Steady (EvalM.ofExcept (op.apply v w)).run := .ofExcept _
  rw [resultAt_eval_of_form (by simp [form]) (byForm ▸ steady_valueOfBinary op l r), byForm,
    Evaluator.valueOfBinary, resultAt_bind (steady_eval l) fun v ↦ ?_]
  · refine bind_congr fun v ↦ ?_
    cases op.decided? v with
    | some w => rfl
    | none => exact resultAt_bind (steady_eval r) (second v)
  · cases op.decided? v with
    | some w => exact .ok w
    | none => exact (steady_eval r).andThen (second v)

/-! ### Values of a kind -/

theorem resultAt_intOf (e : ExprKey) : (ctx.evaluator.intOf e).resultAt p =
    (ctx.evaluator.eval e).resultAt p >>= fun v ↦ found? v.asInt.toOption := by
  unfold Evaluator.intOf
  rw [resultAt_bind (steady_eval e) fun v ↦ (Steady.ofExcept v.asInt).locating e]
  exact bind_congr fun v ↦ resultAt_locating

theorem resultAt_boolOf (e : ExprKey) : (ctx.evaluator.boolOf e).resultAt p =
    (ctx.evaluator.eval e).resultAt p >>= fun v ↦ found? v.asBool.toOption := by
  unfold Evaluator.boolOf
  rw [resultAt_bind (steady_eval e) fun v ↦ (Steady.ofExcept v.asBool).locating e]
  exact bind_congr fun v ↦ resultAt_locating

/-- What is evaluated to an integer is that integer. -/
theorem resultAt_intOf_of_eval {r : OptionT Option Integer}
    (h : (ctx.evaluator.eval e).resultAt p = Value.int <$> r) :
    (ctx.evaluator.intOf e).resultAt p = r := by
  rw [resultAt_intOf, h, bind_map_left]
  exact bind_pure r

theorem resultAt_boolOf_of_eval {r : OptionT Option Bool}
    (h : (ctx.evaluator.eval e).resultAt p = Value.bool <$> r) :
    (ctx.evaluator.boolOf e).resultAt p = r := by
  rw [resultAt_boolOf, h, bind_map_left]
  exact bind_pure r

theorem resultAt_boolOf_eq_some_iff {b : Bool} :
    (ctx.evaluator.boolOf e).resultAt p = some (some b) ↔
      (ctx.evaluator.eval e).resultAt p = some (some (.bool b)) := by
  rw [resultAt_boolOf, bind_eq_some_iff]
  constructor
  · rintro ⟨v, value, h⟩
    cases v <;> cases h
    exact value
  · intro value
    exact ⟨_, value, rfl⟩

end EvalM

/-! ### Searches for bounds -/

namespace Steady

theorem findNone : Steady (failure : BoundM α).run := pure none

theorem find (a : α) : Steady (Pure.pure a : BoundM α).run := pure (some a)

theorem findIn (o : Option α) : Steady (BoundM.ofOption o).run := pure o

theorem findThen {x : BoundM α} {f : α → BoundM β} (hx : Steady x.run)
    (hf : ∀ a, Steady (f a).run) : Steady (x >>= f).run := by
  rw [OptionT.run_bind]
  refine bind hx fun r ↦ ?_
  cases r with
  | none => exact pure none
  | some a => exact hf a

theorem findMapM (xs : List α) {f : α → BoundM β} (hf : ∀ a, Steady (f a).run) :
    Steady (xs.mapM f).run := by
  induction xs with
  | nil => exact find []
  | cons a xs ih =>
    rw [List.mapM_cons]
    exact (hf a).findThen fun b ↦ ih.findThen fun bs ↦ find _

theorem findElse {x y : BoundM α} (hx : Steady x.run) (hy : Steady y.run) :
    Steady (x <|> y).run := by
  rw [OptionT.run_orElse]
  refine bind hx fun r ↦ ?_
  cases r with
  | none => exact hy
  | some a => exact pure (some a)

theorem findValue {x : EvalM α} (hx : Steady x.run) : Steady x.bounds.run := hx.map _

end Steady

namespace BoundM

theorem resultAt_pure (a : α) : (pure a : BoundM α).resultAt p = pure a := rfl

theorem resultAt_ofOption (o : Option α) : (ofOption o).resultAt p = found? o := rfl

theorem resultAt_bounds {x : EvalM α} : x.bounds.resultAt p = x.resultAt p := by
  rw [resultAt, EvalM.bounds_apply, Option.map_map]
  rfl

theorem resultAt_bind {x : BoundM α} {f : α → BoundM β} (hx : Steady x.run)
    (hf : ∀ a, Steady (f a).run) :
    (x >>= f).resultAt p = x.resultAt p >>= fun a ↦ (f a).resultAt p := by
  change ((x >>= f) ⟨p, [], 0⟩).map _ = ((x ⟨p, [], 0⟩).map _).bind _
  rw [bind_apply]
  cases run : x ⟨p, [], 0⟩ with
  | none => rfl
  | some r =>
    obtain ⟨r, t⟩ := r
    cases r with
    | none => rfl
    | some a =>
      have pending : t.pending = p := (hx.traceless _ _ _ run).pending
      exact ((hf a).map_fst t).trans (congrArg (fun q ↦ (f a).resultAt q) pending)

theorem resultAt_mapM {f : α → BoundM β} (xs : List α) (hf : ∀ a, Steady (f a).run) :
    (xs.mapM f).resultAt p = xs.mapM fun a ↦ (f a).resultAt p := by
  induction xs with
  | nil => rfl
  | cons a xs ih =>
    rw [List.mapM_cons, List.mapM_cons,
      resultAt_bind (hf a) fun b ↦ (Steady.findMapM xs hf).findThen fun bs ↦ .find _]
    refine bind_congr fun b ↦ ?_
    rw [resultAt_bind (.findMapM xs hf) fun bs ↦ .find _, ih]
    rfl

theorem resultAt_orElse {x y : BoundM α} (hx : Steady x.run) (hy : Steady y.run) :
    (x <|> y).resultAt p = (x.resultAt p <|> y.resultAt p) := by
  change ((x <|> y) ⟨p, [], 0⟩).map _ = ((x ⟨p, [], 0⟩).map _).bind _
  rw [orElse_apply]
  cases run : x ⟨p, [], 0⟩ with
  | none => rfl
  | some r =>
    obtain ⟨r, t⟩ := r
    cases r with
    | some a => rfl
    | none =>
      have pending : t.pending = p := (hx.traceless _ _ _ run).pending
      exact (hy.map_fst t).trans (congrArg (fun q ↦ y.resultAt q) pending)

theorem resultAt_inScope {x : BoundM α} (hx : Steady x.run) :
    (inScope x).resultAt p = x.resultAt p := by
  rw [resultAt, inScope_apply, Option.map_map]
  exact hx.map_fst _

/-- Where bounds are needed there are those that are found. -/
theorem resultAt_orFail {x : BoundM α} (cause : Cause) :
    (x.orFail (ctx.failureAt e cause)).resultAt p = x.resultAt p := by
  rw [EvalM.resultAt, orFail_apply, resultAt]
  cases x ⟨p, [], 0⟩ with
  | none => rfl
  | some r =>
    obtain ⟨r, t⟩ := r
    cases r <;> rfl

end BoundM

end ConstraintEval
