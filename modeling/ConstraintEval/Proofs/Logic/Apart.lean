import ConstraintEval.Proofs.AtPending

/-!
# Evaluations that come to the same

Two evaluations come to the same if they give the same result, fail for the same cause or both do
not end. Where and with which trail a failure is reported does not count.

Evaluation without a limit on nesting uses what is pending only to refuse visits. So it does not
matter whether variables are pending of which no name can come up. This is a logic of evaluation.
-/

namespace ConstraintEval

open Pending

variable {ctx : Context} {α β : Type} {R : Pending → Pending → Prop} {p q : Pending}
  {us : List VarKey} {e : ExprKey}

/-! ### Coming to the same -/

/-- What an evaluation comes to in a state, if it ends: its result or the cause of its failure. -/
def EvalM.comesTo (x : EvalM α) (s : EvalState) : Option (Except Cause α) :=
  (x s).map fun r ↦ r.1.mapError Failure.cause

/-- Two evaluations come to the same where what is pending for them is related. -/
def Alike (R : Pending → Pending → Prop) (x y : EvalM α) : Prop :=
  ∀ s t, R s.pending t.pending → x.comesTo s = y.comesTo t

/-- Two searches for bounds find the same where what is pending for them is related. -/
def FindAlike (R : Pending → Pending → Prop) (x y : BoundM α) : Prop :=
  ∀ s t, R s.pending t.pending → (x s).map Prod.fst = (y t).map Prod.fst

namespace EvalM

theorem comesTo_of_run {x : EvalM α} {a : α} {s t : EvalState} (run : x s = some (.ok a, t)) :
    x.comesTo s = some (.ok a) := by
  rw [comesTo, run]
  rfl

theorem comesTo_failAt (e : ExprKey) (cause : Cause) (s : EvalState) :
    (ctx.failAt e cause : EvalM α).comesTo s = some (.error cause) :=
  congrArg (fun c ↦ some (Except.error c)) (Context.cause_locate e (.of cause) s)

theorem exists_run_of_comesTo {x : EvalM α} {a : α} {s : EvalState}
    (h : x.comesTo s = some (.ok a)) : ∃ t, x s = some (.ok a, t) := by
  obtain ⟨⟨r, t⟩, run, eq⟩ := Option.map_eq_some_iff.1 h
  cases r with
  | error f => cases eq
  | ok b =>
    cases eq
    exact ⟨t, run⟩

/-- Where a first part gives a result, the whole comes to what the rest does. -/
theorem comesTo_bind {x : EvalM α} {a : α} {s t : EvalState} (run : x s = some (.ok a, t))
    (f : α → EvalM β) : (x >>= f).comesTo s = (f a).comesTo t := by
  rw [comesTo, EvalM.bind_apply, run]
  rfl

theorem comesTo_locating (x : EvalM α) (s : EvalState) :
    (ctx.locating e x).comesTo s = x.comesTo s := by
  rw [comesTo, comesTo, Context.locating_apply, Option.map_map]
  congr 1
  funext ⟨r, t⟩
  cases r with
  | ok a => rfl
  | error f => exact congrArg Except.error (Context.cause_locate e f t)

theorem comesTo_inScope (x : EvalM α) (s : EvalState) :
    (EvalM.inScope x).comesTo s = x.comesTo s.openScope := by
  rw [comesTo, comesTo, EvalM.inScope_apply, Option.map_map]
  rfl

/-- What is evaluated after following a chain of names comes to what it does at the chain's end. -/
theorem comesTo_chain (e : ExprKey) (f : ChainEnd → EvalM α) (s : EvalState) :
    (EvalM.inScope (ctx.locating e (ctx.chainEnd e >>= f))).comesTo s =
      match ctx.followChain true (ctx.model.declared.size + 1) s.pending e with
      | (.ok c, p) => (f c).comesTo { s.openScope with pending := p }
      | (.error g, _) => some (.error g.cause) := by
  have opened : s.openScope.pending = s.pending := rfl
  rw [comesTo_inScope, comesTo_locating, comesTo, EvalM.bind_apply, Context.chainEnd_apply, opened]
  generalize ctx.followChain true (ctx.model.declared.size + 1) s.pending e = r
  obtain ⟨end?, p⟩ := r
  cases end? <;> rfl

private theorem comesTo_keep (x : EvalM Value) (s : EvalState) :
    (x >>= fun v ↦ do modify (EvalState.keep v); return v).comesTo s = x.comesTo s := by
  rw [comesTo, comesTo, EvalM.bind_apply]
  cases x s with
  | none => rfl
  | some r =>
    obtain ⟨r, t⟩ := r
    cases r <;> rfl

/-- An expression comes to what the end of its chain of names comes to. -/
theorem comesTo_eval (e : ExprKey) (s : EvalState) :
    (ctx.evaluator.eval e).comesTo s =
      match ctx.followChain true (ctx.model.declared.size + 1) s.pending e with
      | (.ok c, p) => (ctx.evaluator.valueOfEnd c).comesTo { s.openScope with pending := p }
      | (.error g, _) => some (.error g.cause) := by
  rw [Context.eval_evaluator]
  exact (comesTo_keep _ s).trans (comesTo_chain e ctx.evaluator.valueOfEnd s)

/-- An expression that is no name comes to what its form says. -/
theorem comesTo_eval_of_form (unnamed : ∀ name resolved, ctx.model.form e ≠ .name name resolved)
    (s : EvalState) :
    (ctx.evaluator.eval e).comesTo s = (ctx.evaluator.valueByForm e).comesTo s.openScope := by
  rw [comesTo_eval, Context.followChain_unnamed unnamed]
  rfl

/-- An expression comes to what its chain of names comes to at its end. -/
theorem comesTo_eval_of_follow {z : ExprKey}
    (follow : ctx.followChain true (ctx.model.declared.size + 1) p e = (.ok (.expression z), q))
    {s : EvalState} (pending : s.pending = p) :
    (ctx.evaluator.eval e).comesTo s = (ctx.evaluator.eval z).comesTo { s with pending := q } := by
  rw [comesTo_eval_of_form (leads_of_followChain follow).unnamed, comesTo_eval, pending, follow]
  rfl

end EvalM

/-- A steady evaluation comes to the same wherever the same is pending. -/
theorem Steady.alike {x : EvalM α} (steady : Steady x.run) : Alike (· = ·) x x := by
  obtain ⟨result, blind⟩ := steady.blind
  intro s t same
  have comes (s : EvalState) :
      x.comesTo s = (result s.pending).map fun r ↦ r.mapError Failure.cause := by
    rw [← blind s, Option.map_map]
    rfl
  rw [comes, comes, same]

theorem Steady.keepsPending {x : StepM α} (steady : Steady x) : KeepsPending x :=
  fun s a t run ↦ (steady.traceless s a t run).pending

namespace Alike

variable {x y : EvalM α}

theorem ofExcept (r : Except Failure α) : Alike R (EvalM.ofExcept r) (EvalM.ofExcept r) :=
  fun _ _ _ ↦ rfl

theorem failAt (e e' : ExprKey) (cause : Cause) :
    Alike R (ctx.failAt e cause : EvalM α) (ctx.failAt e' cause) := by
  intro s t _
  rw [EvalM.comesTo_failAt, EvalM.comesTo_failAt]

/-- What comes to the same ends in the same way. -/
private theorem cases_of_comesTo {s t : EvalState} (h : x.comesTo s = y.comesTo t) :
    (x s = none ∧ y t = none) ∨
    (∃ f g s' t', x s = some (.error f, s') ∧ y t = some (.error g, t') ∧ f.cause = g.cause) ∨
    ∃ a s' t', x s = some (.ok a, s') ∧ y t = some (.ok a, t') := by
  unfold EvalM.comesTo at h
  cases run : x s with
  | none =>
    rw [run] at h
    exact .inl ⟨rfl, Option.map_eq_none_iff.1 h.symm⟩
  | some r =>
    obtain ⟨r, s'⟩ := r
    rw [run] at h
    obtain ⟨⟨r', t'⟩, run', eq⟩ := Option.map_eq_some_iff.1 h.symm
    cases r with
    | ok a =>
      cases r' with
      | ok b =>
        cases eq
        exact .inr (.inr ⟨a, s', t', rfl, run'⟩)
      | error g => cases eq
    | error f =>
      cases r' with
      | ok b => cases eq
      | error g => exact .inr (.inl ⟨f, g, s', t', rfl, run', (Except.error.inj eq).symm⟩)

theorem bind {f g : α → EvalM β} (keeps : KeepsPending x.run) (keeps' : KeepsPending y.run)
    (h : Alike R x y) (next : ∀ a, Gives x a → Alike R (f a) (g a)) :
    Alike R (x >>= f) (y >>= g) := by
  intro s t rel
  obtain ⟨none, none'⟩ | ⟨f', g', s', t', run, run', cause⟩ | ⟨a, s', t', run, run'⟩ :=
    cases_of_comesTo (h s t rel)
  · simp only [EvalM.comesTo, EvalM.bind_apply, none, none', Option.bind_none, Option.map_none]
  · simp only [EvalM.comesTo, EvalM.bind_apply, run, run', Option.bind_some, Option.map_some]
    exact congrArg (fun c ↦ some (Except.error c)) cause
  · rw [EvalM.comesTo_bind run, EvalM.comesTo_bind run']
    refine next a ⟨s, s', run⟩ s' t' ?_
    rw [keeps s _ s' run, keeps' t _ t' run']
    exact rel

/-- Two evaluations go on alike from the results that they give first. -/
theorem bind_of_givesAt {a b : α} {f g : α → EvalM β} (h : GivesAt p x a) (h' : GivesAt p y b)
    (steady : Steady x.run) (steady' : Steady y.run) (next : Alike (· = ·) (f a) (g b)) :
    Alike (fun q q' ↦ q = p ∧ q' = p) (x >>= f) (y >>= g) := by
  rintro s t ⟨pending, pending'⟩
  obtain ⟨s', kept, run⟩ := h.run steady pending
  obtain ⟨t', kept', run'⟩ := h'.run steady' pending'
  rw [EvalM.comesTo_bind run, EvalM.comesTo_bind run']
  exact next s' t' (kept.trans kept'.symm)

theorem map (g : α → β) (keeps : KeepsPending x.run) (keeps' : KeepsPending y.run)
    (h : Alike R x y) : Alike R (g <$> x) (g <$> y) := by
  rw [← bind_pure_comp, ← bind_pure_comp]
  exact .bind keeps keeps' h fun a _ ↦ .ofExcept (.ok (g a))

theorem locating (e e' : ExprKey) (h : Alike R x y) :
    Alike R (ctx.locating e x) (ctx.locating e' y) := by
  intro s t rel
  rw [EvalM.comesTo_locating, EvalM.comesTo_locating]
  exact h s t rel

theorem inScope (h : Alike R x y) : Alike R (EvalM.inScope x) (EvalM.inScope y) := by
  intro s t rel
  rw [EvalM.comesTo_inScope, EvalM.comesTo_inScope]
  exact h s.openScope t.openScope rel

theorem bounds (h : Alike R x y) : FindAlike R x.bounds y.bounds := by
  intro s t rel
  rw [EvalM.bounds_apply, EvalM.bounds_apply]
  obtain ⟨none, none'⟩ | ⟨f, g, s', t', run, run', -⟩ | ⟨a, s', t', run, run'⟩ :=
    cases_of_comesTo (h s t rel)
  · rw [none, none', Option.map_none, Option.map_none]
  · rw [run, run']
    rfl
  · rw [run, run']
    rfl

end Alike

namespace FindAlike

variable {x y : BoundM α}

theorem ofOption (o : Option α) : FindAlike R (BoundM.ofOption o) (BoundM.ofOption o) :=
  fun _ _ _ ↦ rfl

theorem cases_of_find {s t : EvalState} (h : (x s).map Prod.fst = (y t).map Prod.fst) :
    (x s = none ∧ y t = none) ∨ ∃ o s' t', x s = some (o, s') ∧ y t = some (o, t') := by
  cases run : x s with
  | none =>
    rw [run] at h
    exact .inl ⟨rfl, Option.map_eq_none_iff.1 h.symm⟩
  | some r =>
    obtain ⟨o, s'⟩ := r
    rw [run] at h
    obtain ⟨⟨o', t'⟩, run', eq⟩ := Option.map_eq_some_iff.1 h.symm
    cases eq
    exact .inr ⟨o, s', t', rfl, run'⟩

theorem bind {f g : α → BoundM β} (keeps : KeepsPending x.run) (keeps' : KeepsPending y.run)
    (h : FindAlike R x y) (next : ∀ a, Offers x a → FindAlike R (f a) (g a)) :
    FindAlike R (x >>= f) (y >>= g) := by
  intro s t rel
  rw [BoundM.bind_apply, BoundM.bind_apply]
  obtain ⟨none, none'⟩ | ⟨o, s', t', run, run'⟩ := cases_of_find (h s t rel)
  · rw [none, none']
    rfl
  · rw [run, run']
    cases o with
    | none => rfl
    | some a =>
      refine next a ⟨s, s', run⟩ s' t' ?_
      rw [keeps s _ s' run, keeps' t _ t' run']
      exact rel

theorem orElse {x' y' : BoundM α} (keeps : KeepsPending x.run) (keeps' : KeepsPending y.run)
    (h : FindAlike R x y) (h' : FindAlike R x' y') : FindAlike R (x <|> x') (y <|> y') := by
  intro s t rel
  rw [BoundM.orElse_apply, BoundM.orElse_apply]
  obtain ⟨none, none'⟩ | ⟨o, s', t', run, run'⟩ := cases_of_find (h s t rel)
  · rw [none, none']
    rfl
  · rw [run, run']
    cases o with
    | some a => rfl
    | none =>
      refine h' s' t' ?_
      rw [keeps s _ s' run, keeps' t _ t' run']
      exact rel

theorem inScope (h : FindAlike R x y) : FindAlike R (BoundM.inScope x) (BoundM.inScope y) := by
  intro s t rel
  rw [BoundM.inScope_apply, BoundM.inScope_apply, Option.map_map, Option.map_map]
  exact h s.openScope t.openScope rel

theorem succeeds (h : FindAlike R x y) : Alike R x.succeeds y.succeeds := by
  intro s t rel
  unfold EvalM.comesTo
  rw [BoundM.succeeds_apply, BoundM.succeeds_apply]
  obtain ⟨none, none'⟩ | ⟨o, s', t', run, run'⟩ := cases_of_find (h s t rel)
  · rw [none, none']
  · rw [run, run']
    rfl

theorem orFail (e e' : ExprKey) (cause : Cause) (h : FindAlike R x y) :
    Alike R (x.orFail (ctx.failureAt e cause)) (y.orFail (ctx.failureAt e' cause)) := by
  intro s t rel
  unfold EvalM.comesTo
  rw [BoundM.orFail_apply, BoundM.orFail_apply]
  obtain ⟨none, none'⟩ | ⟨o, s', t', run, run'⟩ := cases_of_find (h s t rel)
  · rw [none, none']
    rfl
  · rw [run, run']
    cases o with
    | some a => rfl
    | none =>
      exact (EvalM.comesTo_failAt e cause s').trans (EvalM.comesTo_failAt e' cause t').symm

end FindAlike

/-! ### Variables that cannot be come to -/

/-- The same is pending apart from some variables, and nesting has no limit. -/
structure Pending.Apart (us : List VarKey) (p q : Pending) : Prop where
  unlimited : p.limit = none
  unlimited' : q.limit = none
  holds : ∀ u, u ∉ us → p.holds u = q.holds u

namespace Pending.Apart

theorem symm (h : p.Apart us q) : q.Apart us p :=
  ⟨h.unlimited', h.unlimited, fun u other ↦ (h.holds u other).symm⟩

theorem add {v : Visit} {nested : Bool} (h : p.Apart us q) :
    (p.add v nested).Apart us (q.add v nested) where
  unlimited := h.unlimited
  unlimited' := h.unlimited'
  holds u other := by
    rw [Bool.eq_iff_iff, holds_add, holds_add, h.holds u other]

/-- Where only some variables are pending, the same is pending apart from them as at the start. -/
theorem of_empty (unlimited : q.limit = none) (only : ∀ u, q.holds u = true → u ∈ us) :
    (Pending.empty none).Apart us q where
  unlimited := rfl
  unlimited' := unlimited
  holds u other := by
    have fresh : q.holds u = false := by
      rw [← Bool.not_eq_true]
      exact fun held ↦ other (only u held)
    exact fresh.symm

/-- A visit to another variable begins, or is refused, whichever of them are pending. -/
theorem enter {v : Visit} (nested : Bool) (h : p.Apart us q) (other : v.key ∉ us) :
    (p.enter v nested = .error (p.selfDependence v) ∧
      q.enter v nested = .error (q.selfDependence v)) ∨
    p.enter v nested = .ok (p.add v nested) ∧ q.enter v nested = .ok (q.add v nested) := by
  cases held : p.holds v.key with
  | true => simp [Pending.enter, held, (h.holds _ other).symm.trans held]
  | false =>
    have held' := (h.holds _ other).symm.trans held
    exact .inr ⟨enter_of_fresh h.unlimited held, enter_of_fresh h.unlimited' held'⟩

end Pending.Apart

/-- No expression of a region is the name of one of some variables. -/
def Context.Spares (ctx : Context) (us : List VarKey) (P : ExprKey → Prop) : Prop :=
  ∀ e name v, P e → ctx.model.form e = .name name (some v) → v ∉ us

theorem Context.Spares.mono {P P' : ExprKey → Prop} (h : ctx.Spares us P')
    (le : ∀ e, P e → P' e) : ctx.Spares us P :=
  fun e name v he form ↦ h e name v (le e he) form

theorem Context.spares_nil (P : ExprKey → Prop) : ctx.Spares [] P :=
  fun _ _ _ _ _ ↦ List.not_mem_nil

private theorem cause_selfDependence_eq (p q : Pending) (v : Visit) :
    (p.selfDependence v).cause = (q.selfDependence v).cause := by
  rw [cause_selfDependence, cause_selfDependence]

/-- A chain of names that comes by none of some variables ends in the same way whichever of them
are pending, and then the same is pending apart from them. -/
theorem followChain_apart {steps : Nat} (nested : Bool) (apart : p.Apart us q)
    (spares : ctx.Spares us (ctx.Reaches e)) :
    (ctx.followChain nested steps p e).1.mapError Failure.cause =
      (ctx.followChain nested steps q e).1.mapError Failure.cause ∧
    (ctx.followChain nested steps p e).2.Apart us (ctx.followChain nested steps q e).2 := by
  induction steps generalizing nested p q e with
  | zero =>
    unfold Context.followChain
    split
    · exact ⟨rfl, apart⟩
    · exact ⟨congrArg Except.error (cause_selfDependence_eq p q _), apart⟩
    · exact ⟨rfl, apart⟩
  | succ steps ih =>
    unfold Context.followChain
    split
    · exact ⟨rfl, apart⟩
    · next name v form =>
      have other : (ctx.visitTo v (ctx.model.span e)).key ∉ us := spares e name v .refl form
      simp only
      obtain ⟨refused, refused'⟩ | ⟨entered, entered'⟩ := apart.enter nested other
      · rw [refused, refused']
        exact ⟨congrArg Except.error (cause_selfDependence_eq p q _), apart⟩
      · rw [entered, entered']
        simp only
        split
        · exact ⟨rfl, apart.add⟩
        · next d defined =>
          have hd : ctx.Reaches e d := (closed_reaches ctx e).definition .refl form defined
          exact ih false apart.add (spares.mono fun x hx ↦ hd.trans hx)
    · exact ⟨rfl, apart⟩

/-- What follows a chain of names comes to the same if the chain comes by none of the variables. -/
theorem Alike.chain {f : ChainEnd → EvalM α} (spares : ctx.Spares us (ctx.Reaches e))
    (h : ∀ c, Leads ctx e c → Alike (Pending.Apart us) (f c) (f c)) :
    Alike (Pending.Apart us) (EvalM.inScope (ctx.locating e (ctx.chainEnd e >>= f)))
      (EvalM.inScope (ctx.locating e (ctx.chainEnd e >>= f))) := by
  intro s t rel
  obtain ⟨same, apart⟩ := followChain_apart true rel spares
  rw [EvalM.comesTo_chain, EvalM.comesTo_chain]
  cases follow : ctx.followChain true (ctx.model.declared.size + 1) s.pending e with
  | mk end? p =>
    cases follow' : ctx.followChain true (ctx.model.declared.size + 1) t.pending e with
    | mk end?' q =>
      rw [follow, follow'] at same apart
      cases end? with
      | error g =>
        cases end?' with
        | error g' => exact congrArg (fun c ↦ some (Except.error c)) (Except.error.inj same)
        | ok c => cases same
      | ok c =>
        cases end?' with
        | error g' => cases same
        | ok c' =>
          cases same
          exact h c (leads_of_followChain follow) _ _ apart

/-- What follows the visit to another variable finds the same. -/
theorem FindAlike.visit {v : VarKey} {span : Span} {x y : BoundM α} (other : v ∉ us)
    (keeps : KeepsPending x.run) (hx : FindAlike (Pending.Apart us) x x)
    (hy : FindAlike (Pending.Apart us) y y) :
    FindAlike (Pending.Apart us)
      (BoundM.inScope (x <|> ((ctx.enter v span).bounds >>= fun _ ↦ y)))
      (BoundM.inScope (x <|> ((ctx.enter v span).bounds >>= fun _ ↦ y))) := by
  intro s t rel
  rw [Context.visit_apply, Context.visit_apply]
  obtain ⟨none, none'⟩ | ⟨o, s', t', run, run'⟩ := cases_of_find (hx s.openScope t.openScope rel)
  · rw [none, none']
    rfl
  · rw [run, run']
    cases o with
    | some a => rfl
    | none =>
      have apart : s'.pending.Apart us t'.pending := by
        rw [keeps _ _ s' run, keeps _ _ t' run']
        exact rel
      have other' : (ctx.visitTo v span).key ∉ us := other
      simp only [Option.bind_some, enterNested]
      obtain ⟨refused, refused'⟩ | ⟨entered, entered'⟩ := apart.enter true other'
      · rw [refused, refused']
        rfl
      · rw [entered, entered', Option.map_map, Option.map_map]
        exact hy _ _ apart.add

/-! ### The logic -/

/-- That steps come to the same whichever of some variables are pending is passed on by all ways of
putting them together in a region without names of these variables. -/
def apartFrom (ctx : Context) (us : List VarKey) : EvalLogic ctx where
  Evals P _ x := KeepsPending x.run ∧ (ctx.Spares us P → Alike (Pending.Apart us) x x)
  Bounds P _ x := KeepsPending x.run ∧ (ctx.Spares us P → FindAlike (Pending.Apart us) x x)
  Searches _ := True
  weaken le h := ⟨h.1, fun spares ↦ h.2 (spares.mono le)⟩
  ofExcept _ := ⟨.pure _, fun _ ↦ .ofExcept _⟩
  failAt e cause _ := ⟨.failAt e cause, fun _ ↦ .failAt e e cause⟩
  bind hx hf := ⟨hx.1.bind fun a gives ↦ (hf a gives).1, fun spares ↦
    .bind hx.1 hx.1 (hx.2 spares) fun a gives ↦ (hf a gives).2 spares⟩
  locating e _ hx := ⟨hx.1.locating e, fun spares ↦ (hx.2 spares).locating e e⟩
  inScope hx := ⟨hx.1.inScope, fun spares ↦ (hx.2 spares).inScope⟩
  keep v := ⟨.keep v, fun _ _ _ _ ↦ rfl⟩
  chain e _ hf := by
    have next (c : ChainEnd) (leads : Leads ctx e c) :=
      hf c (ctx.Reaches e) leads (closed_reaches ctx e)
        ((closed_reaches ctx e).chainEnd .refl leads)
    exact ⟨.chain e fun c leads ↦ (next c leads).1, fun spares ↦
      .chain spares fun c leads ↦ (next c leads).2 spares⟩
  weaken_bounds le h := ⟨h.1, fun spares ↦ h.2 (spares.mono le)⟩
  ofOption r := ⟨.pure r, fun _ ↦ .ofOption r⟩
  bind_bounds hx hf := ⟨hx.1.bind_bounds fun a offers ↦ (hf a offers).1, fun spares ↦
    .bind hx.1 hx.1 (hx.2 spares) fun a offers ↦ (hf a offers).2 spares⟩
  orElse hx hy := ⟨hx.1.orElse hy.1, fun spares ↦
    .orElse hx.1 hx.1 (hx.2 spares) (hy.2 spares)⟩
  inScope_bounds hx := ⟨hx.1.inScope_bounds, fun spares ↦ (hx.2 spares).inScope⟩
  bounds hx := ⟨hx.1.bounds, fun spares ↦ (hx.2 spares).bounds⟩
  visit {_ e _ _ _ _} form hx hy := by
    have rest := hy (ctx.Reaches e) (closed_reaches ctx e)
      ((closed_reaches ctx e).declaration .refl form)
    exact ⟨hx.1.visit rest.1, fun spares ↦
      .visit (spares e _ _ .refl form) hx.1 (hx.2 spares) (rest.2 spares)⟩
  succeeds _ hx := ⟨hx.1.succeeds, fun spares ↦ (hx.2 spares).succeeds⟩
  orFail e cause _ _ hx := ⟨hx.1.orFail e cause, fun spares ↦ (hx.2 spares).orFail e e cause⟩

/-- The logic judges every level. -/
theorem apartFrom_handles_ofLevels (us : List VarKey) (n : Nat) :
    Evaluator.Handles ⟨ctx, (Evaluator.ofLevels ctx n).eval, (Evaluator.ofLevels ctx n).bounds⟩
      (apartFrom ctx us) fun _ ↦ True := by
  have keeps (n : Nat) := keepsElements_ofLevels ctx n
  induction n with
  | zero =>
    have keepsPending {α : Type} : KeepsPending (StepM.diverge : StepM α) :=
      fun _ _ _ h ↦ nomatch h
    exact ⟨fun _ _ _ _ ↦ trivial, keeps 0, fun _ _ ↦ ⟨keepsPending, fun _ _ _ _ ↦ rfl⟩,
      fun _ _ ↦ ⟨keepsPending, fun _ _ _ _ ↦ rfl⟩⟩
  | succ n ih =>
    have below (x : ExprKey) := ih.mono (closed_below ctx x) fun _ _ ↦ trivial
    refine ⟨fun _ _ _ _ ↦ trivial, keeps (n + 1), fun x _ ↦ ?_, fun x _ ↦ ?_⟩
    · rw [Evaluator.eval_ofLevels_succ, Evaluator.ofLevels_eq_mk ctx n]
      exact Evaluator.evals_valueStep (below x) fun _ _ _ ↦ trivial
    · rw [Evaluator.bounds_ofLevels_succ, Evaluator.ofLevels_eq_mk ctx n]
      exact Evaluator.bounds_boundsStep (below x) (ih.evals x trivial)

/-- What a judged evaluation gives it gives whichever of the variables are pending. -/
theorem GivesAt.apart {P : ExprKey → Prop} {x : EvalM α} {a : α}
    (judged : (apartFrom ctx us).Evals P x) (spares : ctx.Spares us P)
    (apart : p.Apart us q) (h : GivesAt p x a) : GivesAt q x a := by
  obtain ⟨s, t, rfl, run⟩ := h
  let s' : EvalState := ⟨q, [], 0⟩
  have same : x.comesTo s = x.comesTo s' := judged.2 spares s s' apart
  obtain ⟨t', run'⟩ := EvalM.exists_run_of_comesTo (same.symm.trans (EvalM.comesTo_of_run run))
  exact ⟨s', t', rfl, run'⟩

/-- The value of an expression is the same whichever variables are pending of which no name can
come up. -/
theorem GivesAt.eval_apart {v : Value} (spares : ctx.Spares us (ctx.Reaches e))
    (apart : p.Apart us q) (h : GivesAt p (ctx.evaluator.eval e) v) :
    GivesAt q (ctx.evaluator.eval e) v :=
  h.apart ((apartFrom_handles_ofLevels us ctx.levels).evals e trivial) spares apart

/-- The domain of an expression is the same whichever variables are pending of which no name can
come up. -/
theorem GivesAt.domainOf_apart {set : IntegerSet} (spares : ctx.Spares us (ctx.Reaches e))
    (apart : p.Apart us q) (h : GivesAt p (ctx.evaluator.domainOf e) set) :
    GivesAt q (ctx.evaluator.domainOf e) set := by
  refine h.apart ?_ spares apart
  rw [Context.evaluator, Evaluator.ofLevels_eq_mk]
  exact ((apartFrom_handles_ofLevels us ctx.levels).mono (closed_reaches ctx e)
    fun _ _ ↦ trivial).domainOf .refl

end ConstraintEval
