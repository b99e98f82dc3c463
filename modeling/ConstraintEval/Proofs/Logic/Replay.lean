import ConstraintEval.Proofs.Logic.Pending
import ConstraintEval.Proofs.Logic.Rules

/-!
# Replaying an evaluation with other declarations pending

Evaluation uses what is pending only to refuse visits. So when a second run can begin every visit
that a first one can, it comes to every value that the first one comes to. Only a search for bounds
goes on after a refusal: where one is looked for, the second run must refuse what the first one
refuses as well.
-/

namespace ConstraintEval

open Pending

/-- A relation between what is pending in two runs: the second one can begin every visit that the
first one can. -/
structure Replay (ctx : Context) where
  Rel : Pending → Pending → Prop
  /-- The variables of which the runs refuse the same visits. -/
  Agrees : VarKey → Prop
  enter : ∀ {p q o : Pending} {v : Visit} {nested : Bool}, ctx.model.Names v.key → Rel p q →
    p.enter v nested = .ok o → ∃ o', q.enter v nested = .ok o' ∧ Rel o o'
  refuse : ∀ {p q : Pending} {v : Visit} {nested : Bool} {f : Failure}, ctx.model.Names v.key →
    Agrees v.key → Rel p q → p.enter v nested = .error f → ∃ f', q.enter v nested = .error f'

namespace Replay

variable {ctx : Context} (R : Replay ctx) {α β : Type}

/-- The runs refuse the same visits to the variables that are named in a region. -/
def AgreesOn (P : ExprKey → Prop) : Prop :=
  ∀ e name v, P e → ctx.model.form e = .name name (some v) → R.Agrees v

variable {R}

theorem AgreesOn.mono {P P' : ExprKey → Prop} (h : R.AgreesOn P') (le : ∀ e, P e → P' e) :
    R.AgreesOn P := fun e name v he form ↦ h e name v (le e he) form

/-! ### Chains of names -/

variable {nested nested' : Bool} {steps steps' : Nat} {p q o : Pending} {e : ExprKey}

/-- A chain that is followed to its end in the first run is in the second one, if that may take as
many steps and can begin the first visit on the way. -/
theorem followChain_ok {c : ChainEnd} (rel : R.Rel p q) (le : steps ≤ steps')
    (first : ∀ {v : Visit} {o : Pending}, ctx.model.Names v.key → p.enter v nested = .ok o →
      ∃ o', q.enter v nested' = .ok o' ∧ R.Rel o o')
    (follow : ctx.followChain nested steps p e = (.ok c, o)) :
    ∃ o', ctx.followChain nested' steps' q e = (.ok c, o') ∧ R.Rel o o' := by
  induction steps generalizing nested nested' p q e steps' with
  | zero =>
    unfold Context.followChain at follow ⊢
    split at follow
    · cases follow
    · cases follow
    · cases follow
      exact ⟨q, rfl, rel⟩
  | succ steps ih =>
    unfold Context.followChain at follow ⊢
    split at follow
    · cases follow
    · next name v form =>
      obtain ⟨steps', rfl⟩ : ∃ n, steps' = n + 1 := ⟨steps' - 1, by omega⟩
      simp only at follow ⊢
      split at follow
      · cases follow
      · next entered enter =>
        obtain ⟨o', enter', rel'⟩ := first ⟨e, name, form⟩ enter
        rw [enter']
        simp only
        split at follow
        · cases follow
          exact ⟨o', rfl, rel'⟩
        · exact ih rel' (by omega) (fun named ↦ R.enter named rel') follow
    · cases follow
      exact ⟨q, rfl, rel⟩

/-- A chain that is not followed to its end in the first run is not in the second one, if the runs
agree on its variables. -/
theorem followChain_error {f : Failure} (rel : R.Rel p q) (agrees : R.AgreesOn (ctx.Reaches e))
    (follow : ctx.followChain nested steps p e = (.error f, o)) :
    ∃ f' o', ctx.followChain nested steps q e = (.error f', o') := by
  induction steps generalizing nested p q e with
  | zero =>
    unfold Context.followChain at follow ⊢
    split at follow
    · exact ⟨_, _, rfl⟩
    · exact ⟨_, _, rfl⟩
    · cases follow
  | succ steps ih =>
    unfold Context.followChain at follow ⊢
    split at follow
    · exact ⟨_, _, rfl⟩
    · next name v form =>
      simp only at follow ⊢
      split at follow
      · next refuse =>
        obtain ⟨f', refuse'⟩ := R.refuse ⟨e, name, form⟩ (agrees e name v .refl form) rel refuse
        rw [refuse']
        exact ⟨_, _, rfl⟩
      · next entered enter =>
        obtain ⟨o', enter', rel'⟩ := R.enter ⟨e, name, form⟩ rel enter
        rw [enter']
        simp only
        split at follow
        · cases follow
        · next d defined =>
          have hd : ctx.Reaches e d := (closed_reaches ctx e).definition .refl form defined
          exact ih rel' (agrees.mono fun x hx ↦ hd.trans hx) follow
    · cases follow

variable (R)

/-! ### Steps -/

/-- An evaluation gives in a second run what it gives in a first one; if it is to be `strict`, it
also fails in the second run where it fails in the first one. -/
def Replays (strict : Prop) (x : EvalM α) : Prop :=
  ∀ s s' r t, R.Rel s.pending s'.pending → x s = some (r, t) → (r.toOption = none → strict) →
    ∃ r' t', x s' = some (r', t') ∧ r'.toOption = r.toOption

/-- A search for bounds finds in a second run what it finds in a first one. -/
def Refinds (x : BoundM α) : Prop :=
  ∀ s s' o t, R.Rel s.pending s'.pending → x s = some (o, t) → ∃ t', x s' = some (o, t')

variable {R} {strict : Prop}

theorem Replays.ofExcept (r : Except Failure α) : R.Replays strict (EvalM.ofExcept r) := by
  intro s s' r' t _ h _
  cases h
  exact ⟨r, s', rfl, rfl⟩

theorem Replays.failAt (e : ExprKey) (cause : Cause) :
    R.Replays strict (ctx.failAt e cause : EvalM α) := by
  intro s s' r t _ h _
  cases h
  exact ⟨_, s', rfl, rfl⟩

private theorem rel_after {γ : Type} {x : StepM γ} {s s' t t' : EvalState} {a a' : γ}
    (keeps : KeepsPending x) (rel : R.Rel s.pending s'.pending) (run : x s = some (a, t))
    (run' : x s' = some (a', t')) : R.Rel t.pending t'.pending := by
  rw [keeps s a t run, keeps s' a' t' run']
  exact rel

theorem Replays.bind {x : EvalM α} {f : α → EvalM β} (keeps : KeepsPending x.run)
    (hx : R.Replays strict x) (hf : ∀ a, Gives x a → R.Replays strict (f a)) :
    R.Replays strict (x >>= f) := by
  intro s s' r u rel h ok
  rw [EvalM.bind_apply] at h ⊢
  obtain ⟨⟨r₁, t⟩, run, next⟩ := Option.bind_eq_some_iff.1 h
  cases r₁ with
  | error g =>
    cases next
    obtain ⟨r', t', run', eq⟩ := hx s s' (.error g) _ rel run (fun _ ↦ ok rfl)
    rw [run']
    cases r' with
    | error g' => exact ⟨.error g', t', rfl, rfl⟩
    | ok a => cases eq
  | ok a =>
    obtain ⟨r', t', run', eq⟩ := hx s s' (.ok a) t rel run (fun h ↦ nomatch h)
    rw [run']
    cases r' with
    | error g' => cases eq
    | ok a' =>
      cases eq
      exact hf a ⟨s, t, run⟩ t t' r u (rel_after keeps rel run run') next ok

private theorem toOption_mapError (r : Except Failure α) (g : Failure → Failure) :
    (r.mapError g).toOption = r.toOption := by
  cases r <;> rfl

theorem Replays.locating (e : ExprKey) {x : EvalM α} (hx : R.Replays strict x) :
    R.Replays strict (ctx.locating e x) := by
  intro s s' r t rel h ok
  rw [Context.locating_apply] at h ⊢
  obtain ⟨⟨r₁, u⟩, run, h⟩ := Option.map_eq_some_iff.1 h
  cases h
  rw [toOption_mapError] at ok
  obtain ⟨r', t', run', eq⟩ := hx s s' r₁ u rel run ok
  refine ⟨_, t', congrArg (Option.map _) run', ?_⟩
  rw [toOption_mapError, toOption_mapError]
  exact eq

theorem Replays.inScope {x : EvalM α} (hx : R.Replays strict x) :
    R.Replays strict (EvalM.inScope x) := by
  intro s s' r t rel h ok
  rw [EvalM.inScope_apply] at h ⊢
  obtain ⟨⟨r₁, u⟩, run, h⟩ := Option.map_eq_some_iff.1 h
  cases h
  obtain ⟨r', t', run', eq⟩ := hx s.openScope s'.openScope r₁ u rel run ok
  exact ⟨r', s'.closeTo t', congrArg (Option.map _) run', eq⟩

theorem Replays.keep (v : Value) :
    R.Replays strict (do modify (EvalState.keep v); return v : EvalM Value) := by
  intro s s' r t _ h _
  cases h
  exact ⟨.ok v, s'.keep v, rfl, rfl⟩

theorem Replays.chain (e : ExprKey) {f : ChainEnd → EvalM α}
    (agrees : strict → R.AgreesOn (ctx.Reaches e))
    (hf : ∀ c, Leads ctx e c → R.Replays strict (f c)) :
    R.Replays strict (EvalM.inScope (ctx.locating e (ctx.chainEnd e >>= f))) := by
  intro s s' r t rel h ok
  rw [Context.chain_apply] at h ⊢
  cases follow : ctx.followChain true (ctx.model.declared.size + 1) s.pending e with
  | mk end? p =>
    rw [follow] at h
    cases end? with
    | error g =>
      cases h
      obtain ⟨g', q, follow'⟩ := followChain_error rel (agrees (ok rfl)) follow
      rw [follow']
      exact ⟨_, _, rfl, rfl⟩
    | ok c =>
      obtain ⟨q, follow', rel'⟩ := followChain_ok rel (Nat.le_refl _)
        (fun named ↦ R.enter named rel) follow
      rw [follow']
      obtain ⟨⟨r₁, u⟩, run, h⟩ := Option.map_eq_some_iff.1 h
      cases h
      rw [toOption_mapError] at ok
      obtain ⟨r', t', run', eq⟩ := hf c (leads_of_followChain follow)
        { s.openScope with pending := p } { s'.openScope with pending := q } r₁ u rel' run ok
      refine ⟨_, s'.closeTo t', congrArg (Option.map _) run', ?_⟩
      rw [toOption_mapError, toOption_mapError]
      exact eq

theorem Refinds.ofOption (o : Option α) : R.Refinds (BoundM.ofOption o) := by
  intro s s' o' t _ h
  cases h
  exact ⟨s', rfl⟩

theorem Refinds.bind {x : BoundM α} {f : α → BoundM β} (keeps : KeepsPending x.run)
    (hx : R.Refinds x) (hf : ∀ a, Offers x a → R.Refinds (f a)) : R.Refinds (x >>= f) := by
  intro s s' o u rel h
  rw [BoundM.bind_apply] at h ⊢
  obtain ⟨⟨o₁, t⟩, run, next⟩ := Option.bind_eq_some_iff.1 h
  obtain ⟨t', run'⟩ := hx s s' o₁ t rel run
  rw [run']
  cases o₁ with
  | none =>
    cases next
    exact ⟨t', rfl⟩
  | some a => exact hf a ⟨s, t, run⟩ t t' o u (rel_after keeps rel run run') next

theorem Refinds.orElse {x y : BoundM α} (keeps : KeepsPending x.run) (hx : R.Refinds x)
    (hy : R.Refinds y) : R.Refinds (x <|> y) := by
  intro s s' o u rel h
  rw [BoundM.orElse_apply] at h ⊢
  obtain ⟨⟨o₁, t⟩, run, next⟩ := Option.bind_eq_some_iff.1 h
  obtain ⟨t', run'⟩ := hx s s' o₁ t rel run
  rw [run']
  cases o₁ with
  | some a =>
    cases next
    exact ⟨t', rfl⟩
  | none => exact hy t t' o u (rel_after keeps rel run run') next

theorem Refinds.inScope {x : BoundM α} (hx : R.Refinds x) : R.Refinds (BoundM.inScope x) := by
  intro s s' o t rel h
  rw [BoundM.inScope_apply] at h ⊢
  obtain ⟨⟨o₁, u⟩, run, h⟩ := Option.map_eq_some_iff.1 h
  cases h
  obtain ⟨t', run'⟩ := hx s.openScope s'.openScope o₁ u rel run
  exact ⟨s'.closeTo t', congrArg (Option.map _) run'⟩

theorem Replays.bounds {x : EvalM α} (hx : R.Replays True x) : R.Refinds x.bounds := by
  intro s s' o t rel h
  rw [EvalM.bounds_apply] at h ⊢
  obtain ⟨⟨r, u⟩, run, h⟩ := Option.map_eq_some_iff.1 h
  cases h
  obtain ⟨r', t', run', eq⟩ := hx s s' r u rel run (fun _ ↦ trivial)
  refine ⟨t', ?_⟩
  rw [run', ← eq]
  rfl

theorem Refinds.visit {name : String} {v : VarKey} {x y : BoundM α}
    (form : ctx.model.form e = .name name (some v)) (agrees : R.Agrees v)
    (keeps : KeepsPending x.run) (hx : R.Refinds x) (hy : R.Refinds y) :
    R.Refinds
      (BoundM.inScope (x <|> ((ctx.enter v (ctx.model.span e)).bounds >>= fun _ ↦ y))) := by
  intro s s' o u rel h
  rw [Context.visit_apply] at h ⊢
  obtain ⟨⟨o₁, t⟩, run, next⟩ := Option.bind_eq_some_iff.1 h
  obtain ⟨t', run'⟩ := hx s.openScope s'.openScope o₁ t rel run
  rw [run']
  have opened : R.Rel s.openScope.pending s'.openScope.pending := rel
  have rel' := rel_after keeps opened run run'
  have named : ctx.model.Names v := ⟨e, name, form⟩
  cases o₁ with
  | some a =>
    cases next
    exact ⟨_, rfl⟩
  | none =>
    simp only [Option.bind_some] at next ⊢
    split at next
    · next p entered =>
      obtain ⟨q, entered', rel''⟩ := R.enter named rel' entered
      rw [enterNested, entered']
      obtain ⟨⟨o₂, w⟩, run₂, next⟩ := Option.map_eq_some_iff.1 next
      cases next
      obtain ⟨w', run₂'⟩ := hy { t with pending := p } { t' with pending := q } o₂ w rel'' run₂
      exact ⟨_, congrArg (Option.map _) run₂'⟩
    · next f refused =>
      obtain ⟨f', refused'⟩ := R.refuse named agrees rel' refused
      rw [enterNested, refused']
      cases next
      exact ⟨_, rfl⟩

theorem Refinds.succeeds {x : BoundM α} (hx : R.Refinds x) : R.Replays strict x.succeeds := by
  intro s s' r t rel h _
  obtain ⟨⟨b, u⟩, run, h⟩ := Option.bind_eq_some_iff.1 h
  obtain ⟨⟨o, w⟩, run, eq⟩ := Option.bind_eq_some_iff.1 run
  cases eq
  cases h
  obtain ⟨t', run'⟩ := hx s s' o _ rel run
  refine ⟨.ok o.isSome, t', ?_, rfl⟩
  change (Option.bind (Option.bind (x s') _) _) = _
  rw [run']
  rfl

theorem Refinds.orFail {x : BoundM α} (e : ExprKey) (cause : Cause) (hx : R.Refinds x) :
    R.Replays strict (x.orFail (ctx.failureAt e cause)) := by
  intro s s' r t rel h _
  rw [BoundM.orFail_apply] at h ⊢
  obtain ⟨⟨o, u⟩, run, h⟩ := Option.bind_eq_some_iff.1 h
  obtain ⟨t', run'⟩ := hx s s' o u rel run
  rw [run']
  cases o with
  | some a =>
    cases h
    exact ⟨_, _, rfl, rfl⟩
  | none =>
    cases h
    exact ⟨_, _, rfl, rfl⟩

/-! ### The logic -/

variable (R)

/-- That steps can be replayed is passed on by all ways of putting them together, where the runs
refuse the same visits within a search for bounds. -/
def logic : EvalLogic ctx where
  Evals P _ x := KeepsPending x.run ∧ ∀ strict : Prop, (strict → R.AgreesOn P) → R.Replays strict x
  Bounds P _ x := KeepsPending x.run ∧ (R.AgreesOn P → R.Refinds x)
  Searches := R.AgreesOn
  weaken le h := ⟨h.1, fun strict agrees ↦ h.2 strict fun hs ↦ (agrees hs).mono le⟩
  ofExcept _ := ⟨.pure _, fun _ _ ↦ .ofExcept _⟩
  failAt e cause _ := ⟨.failAt e cause, fun _ _ ↦ .failAt e cause⟩
  bind hx hf := ⟨hx.1.bind fun a gives ↦ (hf a gives).1, fun strict agrees ↦
    .bind hx.1 (hx.2 strict agrees) fun a gives ↦ (hf a gives).2 strict agrees⟩
  locating e _ hx := ⟨hx.1.locating e, fun strict agrees ↦ (hx.2 strict agrees).locating e⟩
  inScope hx := ⟨hx.1.inScope, fun strict agrees ↦ (hx.2 strict agrees).inScope⟩
  keep v := ⟨.keep v, fun _ _ ↦ .keep v⟩
  chain e _ hf := by
    have next (c : ChainEnd) (leads : Leads ctx e c) :=
      hf c (ctx.Reaches e) leads (closed_reaches ctx e)
        ((closed_reaches ctx e).chainEnd .refl leads)
    exact ⟨.chain e fun c leads ↦ (next c leads).1, fun strict agrees ↦
      .chain e agrees fun c leads ↦ (next c leads).2 strict agrees⟩
  weaken_bounds le h := ⟨h.1, fun agrees ↦ h.2 (agrees.mono le)⟩
  ofOption r := ⟨.pure r, fun _ ↦ .ofOption r⟩
  bind_bounds hx hf := ⟨hx.1.bind_bounds fun a offers ↦ (hf a offers).1, fun agrees ↦
    .bind hx.1 (hx.2 agrees) fun a offers ↦ (hf a offers).2 agrees⟩
  orElse hx hy := ⟨hx.1.orElse hy.1, fun agrees ↦ .orElse hx.1 (hx.2 agrees) (hy.2 agrees)⟩
  inScope_bounds hx := ⟨hx.1.inScope_bounds, fun agrees ↦ (hx.2 agrees).inScope⟩
  bounds hx := ⟨hx.1.bounds, fun agrees ↦ (hx.2 True fun _ ↦ agrees).bounds⟩
  visit {_ e _ _ _ _} form hx hy := by
    have rest := hy (ctx.Reaches e) (closed_reaches ctx e)
      ((closed_reaches ctx e).declaration .refl form)
    exact ⟨hx.1.visit rest.1, fun agrees ↦
      .visit form (agrees e _ _ .refl form) hx.1 (hx.2 agrees) (rest.2 agrees)⟩
  succeeds agrees hx := ⟨hx.1.succeeds, fun _ _ ↦ (hx.2 agrees).succeeds⟩
  orFail e cause _ agrees hx := ⟨hx.1.orFail e cause, fun _ _ ↦ (hx.2 agrees).orFail e cause⟩

/-- The runs refuse the same visits wherever bounds are looked for on the way to a value. -/
def AgreesOnSearches (e : ExprKey) : Prop :=
  ∀ x, ctx.Reaches e x → ctx.LooksForBounds x → R.AgreesOn (ctx.Below x)

theorem closed_agreesOnSearches : ctx.Closed R.AgreesOnSearches :=
  fun _ _ agrees mentioned y reaches ↦ agrees y (.head mentioned reaches)

/-- The logic judges every level on the expressions where the runs agree on searches. -/
theorem handles_ofLevels (n : Nat) :
    Evaluator.Handles ⟨ctx, (Evaluator.ofLevels ctx n).eval, (Evaluator.ofLevels ctx n).bounds⟩
      R.logic R.AgreesOnSearches := by
  have keeps (n : Nat) := keepsElements_ofLevels ctx n
  induction n with
  | zero =>
    have keepsPending {α : Type} : KeepsPending (StepM.diverge : StepM α) :=
      fun _ _ _ h ↦ nomatch h
    refine ⟨R.closed_agreesOnSearches, keeps 0, fun x _ ↦ ⟨keepsPending, ?_⟩,
      fun x _ ↦ ⟨keepsPending, ?_⟩⟩
    · exact fun _ _ _ _ _ _ _ h ↦ nomatch h
    · exact fun _ _ _ _ _ _ h ↦ nomatch h
  | succ n ih =>
    have below {x : ExprKey} (hx : R.AgreesOnSearches x) :=
      ih.mono (closed_below ctx x) fun y below ↦
        R.closed_agreesOnSearches.reaches hx below.to_reflTransGen
    refine ⟨R.closed_agreesOnSearches, keeps (n + 1), fun x hx ↦ ?_, fun x hx ↦ ?_⟩
    · rw [Evaluator.eval_ofLevels_succ, Evaluator.ofLevels_eq_mk ctx n]
      exact Evaluator.evals_valueStep (below hx) hx
    · rw [Evaluator.bounds_ofLevels_succ, Evaluator.ofLevels_eq_mk ctx n]
      exact Evaluator.bounds_boundsStep (below hx) (ih.evals x hx)

/-- The value of the end of a chain can be replayed. -/
theorem replays_valueOfEnd {c : ChainEnd} (agrees : R.AgreesOnSearches e) (leads : Leads ctx e c) :
    R.Replays False (ctx.evaluator.valueOfEnd c) := by
  rw [Context.evaluator, Evaluator.ofLevels_eq_mk]
  cases c with
  | undefined v => exact .ofExcept (.error _)
  | expression x =>
    have agrees' := R.closed_agreesOnSearches.reaches agrees leads.reaches
    exact ((R.handles_ofLevels ctx.levels).valueByForm leads.unnamed
      (R.closed_agreesOnSearches x · agrees') (agrees x leads.reaches)).2 False False.elim

/-- What a judged evaluation gives in one run it gives in every run that replays it. -/
theorem run_of_run {P : ExprKey → Prop} {x : EvalM α} {a : α} {s s' t : EvalState}
    (judged : R.logic.Evals P x) (rel : R.Rel s.pending s'.pending) (h : x s = some (.ok a, t)) :
    ∃ t', x s' = some (.ok a, t') := by
  obtain ⟨r, t', run, eq⟩ := judged.2 False False.elim s s' _ t rel h (fun h ↦ nomatch h)
  cases r with
  | error f => cases eq
  | ok b =>
    cases eq
    exact ⟨t', run⟩

/-- A value that the evaluator of a model gives in one run it gives in every run that replays it. -/
theorem eval_of_eval {v : Value} {s s' t : EvalState} (agrees : R.AgreesOnSearches e)
    (rel : R.Rel s.pending s'.pending) (h : ctx.evaluator.eval e s = some (.ok v, t)) :
    ∃ t', ctx.evaluator.eval e s' = some (.ok v, t') :=
  R.run_of_run ((R.handles_ofLevels ctx.levels).evals e agrees) rel h

end Replay

/-! ### Less pending -/

/-- One lot of pending declarations is no more than another one, and without a limit. -/
structure Pending.Relaxed (p q : Pending) : Prop where
  unlimited : q.limit = none
  le : ∀ u, q.holds u = true → p.holds u = true

namespace Pending

variable {p q o : Pending} {v : Visit} {nested nested' : Bool}

theorem Relaxed.add (h : p.Relaxed q) : (p.add v nested).Relaxed (q.add v nested') where
  unlimited := h.unlimited
  le u held := holds_add.2 ((holds_add.1 held).imp_right (h.le u))

/-- A visit that may begin may begin with less pending. -/
theorem Relaxed.enter_eq_ok (h : p.Relaxed q) (entered : p.enter v nested = .ok o) :
    q.enter v nested' = .ok (q.add v nested') := by
  obtain ⟨fresh, -, -⟩ := enter_eq_ok_iff.1 entered
  apply enter_of_fresh h.unlimited
  rw [← Bool.not_eq_true] at fresh ⊢
  exact fun held ↦ fresh (h.le _ held)

end Pending

/-- Runs are replayed with less pending, but they do not refuse the same visits. -/
def Replay.relaxing (ctx : Context) : Replay ctx where
  Rel := Pending.Relaxed
  Agrees _ := False
  enter _ rel entered := by
    obtain ⟨-, -, rfl⟩ := enter_eq_ok_iff.1 entered
    exact ⟨_, rel.enter_eq_ok entered, rel.add⟩
  refuse _ agrees := agrees.elim

/-- A value that the evaluator of a model gives in some state it gives to begin with, when nothing
is pending and nesting has no limit, if no bounds are looked for on the way. -/
theorem eval_fresh_of_eval {ctx : Context} {e : ExprKey} {v : Value} {s t : EvalState}
    (boundless : ctx.Boundless e) (h : ctx.evaluator.eval e s = some (.ok v, t)) :
    ∃ t, ctx.evaluator.eval e (.fresh none) = some (.ok v, t) := by
  have agrees : (Replay.relaxing ctx).AgreesOnSearches e := by
    rintro x reaches ⟨name, f, args, b, form, bound, looks⟩
    exact (boundless x reaches name f args b form bound looks).elim
  exact Replay.eval_of_eval _ agrees ⟨rfl, fun _ held ↦ nomatch held⟩ h

end ConstraintEval
