import ConstraintEval.Proofs.Evaluation.Levels
import ConstraintEval.Proofs.Failures.Bare
import ConstraintEval.Proofs.Semantics.Gives

/-!
# Evaluations that relay failures

An evaluation over a table of answers can fail by itself, or because a value that it asks for has
failed. In the second case it passes that failure on, whatever it is: the cause stays, and so does
the place if there is one; otherwise the failure is placed at the innermost of the expressions
that it passes through, as far as these have places. All ways of putting evaluations together keep
it so.
-/

namespace ConstraintEval

variable {ctx : Context} {α β : Type} {Own Own' : Failure → Prop} {e : ExprKey} {p : Pending}
  {f g : Failure}

/-! ### Tables without values and with a failure -/

namespace Answers

/-- The table without the values that failed. -/
def values (T : Answers) : Answers
  | .value e p => (T (.value e p) : Option (Except Failure Value)).filter Except.isOk
  | .bounds e p => T (.bounds e p)

/-- The table in which the value of an expression has failed. -/
def failing (T : Answers) (e : ExprKey) (p : Pending) (f : Failure) : Answers :=
  Function.update T (.value e p) (some (.error f))

variable {T T' : Answers}

theorem values_eq_some_iff {r : Except Failure Value} :
    T.values (.value e p) = some r ↔ T (.value e p) = some r ∧ ∃ v, r = .ok v := by
  refine Option.filter_eq_some_iff.trans (and_congr_right fun _ ↦ ?_)
  cases r with
  | ok v => exact ⟨fun _ ↦ ⟨v, rfl⟩, fun _ ↦ rfl⟩
  | error f => exact ⟨fun ok ↦ (nomatch ok), fun ⟨_, eq⟩ ↦ (nomatch eq)⟩

theorem values_le (T : Answers) : T.values ≤ T := by
  intro q a ha
  cases q with
  | value e p => exact (values_eq_some_iff.1 ha).1
  | bounds e p => exact ha

theorem values_mono (le : T ≤ T') : T.values ≤ T'.values := by
  intro q a ha
  cases q with
  | value e p =>
    obtain ⟨value, ok⟩ := values_eq_some_iff.1 ha
    exact values_eq_some_iff.2 ⟨le _ _ value, ok⟩
  | bounds e p => exact le _ _ ha

theorem failing_self (T : Answers) (e : ExprKey) (p : Pending) (f : Failure) :
    T.failing e p f (.value e p) = some (.error f) := Function.update_self ..

theorem failing_mono (le : T ≤ T') (e : ExprKey) (p : Pending) (f : Failure) :
    T.failing e p f ≤ T'.failing e p f := by
  intro q a ha
  by_cases eq : q = .value e p
  · subst eq
    rw [failing_self] at ha ⊢
    exact ha
  · rw [failing, Function.update_of_ne eq] at ha ⊢
    exact le q a ha

theorem failing_eq_self (failed : T (.value e p) = some (.error f)) : T.failing e p f = T := by
  rw [failing, ← failed, Function.update_eq_self]

/-- What has a value does not depend on how another value has failed. -/
theorem values_le_failing (failed : T (.value e p) = some (.error f)) (g : Failure) :
    T.values ≤ T.failing e p g := by
  intro q a ha
  have ne : q ≠ .value e p := by
    rintro rfl
    obtain ⟨value, v, rfl⟩ := values_eq_some_iff.1 ha
    rw [failed] at value
    cases value
  rw [failing, Function.update_of_ne ne]
  exact T.values_le q a ha

end Answers

/-! ### Places -/

namespace Model

/-- The place of an expression, if it has one. -/
def place? (m : Model) (e : ExprKey) : Option Span :=
  if (m.span e).isNowhere then none else some (m.span e)

/-- The place of the first of some expressions that has one. -/
def firstPlace? (m : Model) (es : List ExprKey) : Option Span := es.findSome? m.place?

/-- A failure is another one, placed at the first of some expressions unless it has a place. -/
def Relayed (m : Model) (es : List ExprKey) (g f : Failure) : Prop :=
  f.cause = g.cause ∧ f.span = g.span.or (m.firstPlace? es)

variable {m : Model} {es ds : List ExprKey} {h : Failure}

theorem firstPlace?_append : m.firstPlace? (es ++ ds) = (m.firstPlace? es).or (m.firstPlace? ds) :=
  List.findSome?_append

theorem relayed_nil : m.Relayed [] f f := ⟨rfl, by cases f.span <;> rfl⟩

theorem Relayed.trans (first : m.Relayed es h g) (second : m.Relayed ds g f) :
    m.Relayed (es ++ ds) h f := by
  obtain ⟨cause, span⟩ := first
  obtain ⟨cause', span'⟩ := second
  refine ⟨cause'.trans cause, ?_⟩
  rw [span', span, Option.or_assoc, firstPlace?_append]

end Model

theorem Pending.span_addTrail (p : Pending) (f : Failure) : (p.addTrail f).span = f.span := by
  unfold addTrail
  split <;> rfl

/-- To place a failure at an expression is to relay it. -/
theorem relayed_locate (e : ExprKey) (f : Failure) (s : EvalState) :
    ctx.model.Relayed [e] f (ctx.locate e f s) := by
  refine ⟨ctx.cause_locate e f s, ?_⟩
  unfold Context.locate
  rw [Pending.span_addTrail]
  simp only [Model.firstPlace?, List.findSome?_cons, List.findSome?_nil, Model.place?]
  split
  · cases f.span <;> rfl
  · rfl

/-! ### The judgement -/

/-- An evaluation over a table relays failures: it fails by itself only in certain ways, and
passes on the failures of the values that it asks for. -/
structure Relays (ctx : Context) (Own : Failure → Prop) (x : Answers → EvalM α) : Prop where
  mono : ∀ {T T' : Answers} {s : EvalState} {r : Except Failure α × EvalState}, T ≤ T' →
    x T s = some r → x T' s = some r
  /-- Where it gives a result it needs no value that failed. -/
  values : ∀ {T : Answers} {s t : EvalState} {a : α}, x T s = some (.ok a, t) →
    x T.values s = some (.ok a, t)
  origin : ∀ {T : Answers} {s t : EvalState} {f : Failure}, x T s = some (.error f, t) →
    (Own f ∧ x T.values s = some (.error f, t)) ∨
    ∃ e p g es, T (.value e p) = some (.error g) ∧
      ∀ g', ∃ f' t', x (T.failing e p g') s = some (.error f', t') ∧ ctx.model.Relayed es g' f'

namespace Relays

/-- A step that asks nothing fails by itself. -/
theorem of_const {x : EvalM α} (own : ∀ {s f t}, x s = some (.error f, t) → Own f) :
    Relays ctx Own fun _ ↦ x where
  mono _ run := run
  values run := run
  origin run := .inl ⟨own run, run⟩

theorem ofExcept {r : Except Failure α} (own : ∀ f, r = .error f → Own f) :
    Relays ctx Own fun _ ↦ EvalM.ofExcept r :=
  of_const fun run ↦ own _ (congrArg Prod.fst (Option.some.inj run))

theorem pure (a : α) : Relays ctx Own fun _ ↦ (Pure.pure a : EvalM α) :=
  ofExcept fun _ eq ↦ nomatch eq

theorem throw (own : Own f) : Relays ctx Own fun _ ↦ (throw f : EvalM α) := by
  refine ofExcept (r := .error f) fun _ eq ↦ ?_
  cases eq
  exact own

theorem imp {x : Answers → EvalM α} (hx : Relays ctx Own x) (own : ∀ f, Own f → Own' f) :
    Relays ctx Own' x where
  mono := hx.mono
  values := hx.values
  origin run := (hx.origin run).imp_left fun ⟨h, run⟩ ↦ ⟨own _ h, run⟩

theorem bind_of_gives {x : Answers → EvalM α} {f : Answers → α → EvalM β} (hx : Relays ctx Own x)
    (hf : ∀ a T, Gives (x T) a → Relays ctx Own fun T ↦ f T a) :
    Relays ctx Own fun T ↦ x T >>= f T where
  mono {T T' s r} le run := by
    rw [EvalM.bind_apply] at run ⊢
    obtain ⟨⟨b, t⟩, first, run⟩ := Option.bind_eq_some_iff.1 run
    rw [hx.mono le first, Option.bind_some]
    cases b with
    | error g => exact run
    | ok a => exact (hf a T ⟨s, t, first⟩).mono le run
  values {T s t b} run := by
    rw [EvalM.bind_apply] at run ⊢
    obtain ⟨⟨c, u⟩, first, run⟩ := Option.bind_eq_some_iff.1 run
    cases c with
    | error g => cases run
    | ok a =>
      rw [hx.values first, Option.bind_some]
      exact (hf a T ⟨s, u, first⟩).values run
  origin {T s t g} run := by
    simp only [EvalM.bind_apply] at run ⊢
    obtain ⟨⟨c, u⟩, first, run⟩ := Option.bind_eq_some_iff.1 run
    cases c with
    | error h =>
      obtain ⟨rfl, rfl⟩ : h = g ∧ u = t := by simpa using run
      rcases hx.origin first with ⟨own, first⟩ | ⟨e, p, h, es, failed, relays⟩
      · refine .inl ⟨own, ?_⟩
        rw [first]
        rfl
      · refine .inr ⟨e, p, h, es, failed, fun g' ↦ ?_⟩
        obtain ⟨f', t', first, relayed⟩ := relays g'
        refine ⟨f', t', ?_, relayed⟩
        rw [first]
        rfl
    | ok a =>
      have rest := hf a T ⟨s, u, first⟩
      have first := hx.values first
      rcases rest.origin run with ⟨own, run⟩ | ⟨e, p, h, es, failed, relays⟩
      · refine .inl ⟨own, ?_⟩
        rw [first]
        exact run
      · -- the first step has the same value whatever the failure is
        refine .inr ⟨e, p, h, es, failed, fun g' ↦ ?_⟩
        obtain ⟨f', t', run, relayed⟩ := relays g'
        refine ⟨f', t', ?_, relayed⟩
        rw [hx.mono (Answers.values_le_failing failed g') first]
        exact run

theorem bind {x : Answers → EvalM α} {f : Answers → α → EvalM β} (hx : Relays ctx Own x)
    (hf : ∀ a, Relays ctx Own fun T ↦ f T a) : Relays ctx Own fun T ↦ x T >>= f T :=
  hx.bind_of_gives fun a _ _ ↦ hf a

/-- What is done with the outcome of a step, be it a result or a failure, without asking more. -/
private theorem outcome {x : Answers → EvalM α} (hx : Relays ctx Own x)
    (before : EvalState → EvalState)
    (after : EvalState → Except Failure α → EvalState → Except Failure α × EvalState)
    (place : List ExprKey)
    (ok : ∀ s a t, ∃ t', after s (.ok a) t = (.ok a, t'))
    (error : ∀ s f t, ∃ f' t', after s (.error f) t = (.error f', t') ∧
      ctx.model.Relayed place f f' ∧ (Own f → Own' f'))
    {y : Answers → EvalM α}
    (run : ∀ T s, y T s = (x T (before s)).map fun r ↦ after s r.1 r.2) : Relays ctx Own' y where
  mono {T T' s r} le eq := by
    rw [run] at eq ⊢
    obtain ⟨r', first, rfl⟩ := Option.map_eq_some_iff.1 eq
    rw [hx.mono le first, Option.map_some]
  values {T s t a} eq := by
    rw [run] at eq ⊢
    obtain ⟨⟨c, u⟩, first, eq⟩ := Option.map_eq_some_iff.1 eq
    cases c with
    | error f =>
      obtain ⟨f', t', h, -⟩ := error s f u
      rw [h] at eq
      cases eq
    | ok b => rw [hx.values first, Option.map_some, eq]
  origin {T s t f} eq := by
    simp only [run] at eq ⊢
    obtain ⟨⟨c, u⟩, first, eq⟩ := Option.map_eq_some_iff.1 eq
    cases c with
    | ok a =>
      obtain ⟨t', h⟩ := ok s a u
      rw [h] at eq
      cases eq
    | error h =>
      rcases hx.origin first with ⟨own, first⟩ | ⟨e, p, g, es, failed, relays⟩
      · obtain ⟨f', t', located, -, own'⟩ := error s h u
        rw [located] at eq
        cases eq
        refine .inl ⟨own' own, ?_⟩
        rw [first, Option.map_some, located]
      · refine .inr ⟨e, p, g, es ++ place, failed, fun g' ↦ ?_⟩
        obtain ⟨f', t', first, relayed⟩ := relays g'
        obtain ⟨f'', t'', located, relayed', -⟩ := error s f' t'
        refine ⟨f'', t'', ?_, relayed.trans relayed'⟩
        rw [first, Option.map_some, located]

theorem locating (e : ExprKey) {x : Answers → EvalM α} (hx : Relays ctx Own x)
    (own : ∀ f s, Own f → Own' (ctx.locate e f s)) :
    Relays ctx Own' fun T ↦ ctx.locating e (x T) :=
  hx.outcome id (fun _ r t ↦ (r.mapError fun f ↦ ctx.locate e f t, t)) [e]
    (fun _ _ t ↦ ⟨t, rfl⟩) (fun _ f t ↦ ⟨_, t, rfl, relayed_locate e f t, own f t⟩)
    fun T s ↦ Context.locating_apply e (x T) s

theorem inScope {x : Answers → EvalM α} (hx : Relays ctx Own x) :
    Relays ctx Own fun T ↦ EvalM.inScope (x T) :=
  hx.outcome EvalState.openScope (fun s r t ↦ (r, s.closeTo t)) [] (fun _ _ _ ↦ ⟨_, rfl⟩)
    (fun _ _ _ ↦ ⟨_, _, rfl, Model.relayed_nil, id⟩) fun T s ↦ EvalM.inScope_apply (x T) s

theorem map {x : Answers → EvalM α} (f : α → β) (hx : Relays ctx Own x) :
    Relays ctx Own fun T ↦ f <$> x T := by
  have h : Relays ctx Own fun T ↦ x T >>= fun a ↦ Pure.pure (f a) := hx.bind fun a ↦ pure (f a)
  simpa only [bind_pure_comp] using h

theorem mapM (xs : List α) {f : Answers → α → EvalM β} (hf : ∀ a, Relays ctx Own fun T ↦ f T a) :
    Relays ctx Own fun T ↦ xs.mapM (f T) := by
  induction xs with
  | nil => exact pure []
  | cons a xs ih =>
    simp only [List.mapM_cons]
    exact (hf a).bind fun b ↦ ih.bind fun bs ↦ pure (b :: bs)

theorem foldlM (xs : List α) (b : β) {f : Answers → β → α → EvalM β}
    (hf : ∀ b a, Relays ctx Own fun T ↦ f T b a) : Relays ctx Own fun T ↦ xs.foldlM (f T) b := by
  induction xs generalizing b with
  | nil => exact pure b
  | cons a xs ih =>
    simp only [List.foldlM_cons]
    exact (hf b a).bind ih

theorem allM (xs : List α) {f : Answers → α → EvalM Bool}
    (hf : ∀ a, Relays ctx Own fun T ↦ f T a) : Relays ctx Own fun T ↦ xs.allM (f T) := by
  induction xs with
  | nil => exact pure true
  | cons a xs ih =>
    refine (hf a).bind fun b ↦ ?_
    cases b with
    | false => exact pure false
    | true => exact ih

theorem anyM (xs : List α) {f : Answers → α → EvalM Bool}
    (hf : ∀ a, Relays ctx Own fun T ↦ f T a) : Relays ctx Own fun T ↦ xs.anyM (f T) := by
  induction xs with
  | nil => exact pure false
  | cons a xs ih =>
    refine (hf a).bind fun b ↦ ?_
    cases b with
    | false => exact ih
    | true => exact pure true

theorem ite (c : Bool) {x y : Answers → EvalM α} (hx : Relays ctx Own x) (hy : Relays ctx Own y) :
    Relays ctx Own fun T ↦ if c then x T else y T := by
  cases c with
  | true => exact hx
  | false => exact hy

/-! ### Questions -/

/-- To ask for a value is to relay its failure. -/
theorem eval (e : ExprKey) : Relays ctx Own fun T ↦ (T.evaluator ctx).eval e where
  mono le run := by
    rw [Answers.eval_evaluator] at run ⊢
    obtain ⟨r, value, eq⟩ := Option.map_eq_some_iff.1 run
    rw [le _ _ value]
    exact congrArg some eq
  values run := by
    rw [Answers.eval_evaluator] at run ⊢
    obtain ⟨r, value, eq⟩ := Option.map_eq_some_iff.1 run
    obtain ⟨rfl, rfl⟩ := Prod.mk.inj eq
    rw [Answers.values_eq_some_iff.2 ⟨value, _, rfl⟩]
    rfl
  origin {T s t f} run := by
    simp only [Answers.eval_evaluator] at run ⊢
    obtain ⟨r, value, eq⟩ := Option.map_eq_some_iff.1 run
    obtain ⟨rfl, rfl⟩ := Prod.mk.inj eq
    refine .inr ⟨e, s.pending, f, [], value, fun g ↦ ⟨g, s, ?_, Model.relayed_nil⟩⟩
    rw [Answers.failing_self]
    rfl

/-- What looks for bounds asks for no value itself. -/
private theorem of_bounds {e : ExprKey}
    (after : Option Interval → EvalState → Except Failure α × EvalState)
    (own : ∀ r s f t, after r s = (.error f, t) → Own f) {x : Answers → EvalM α}
    (run : ∀ T s, x T s = (T (.bounds e s.pending)).map fun r ↦ after r s) :
    Relays ctx Own x where
  mono le eq := by
    rw [run] at eq ⊢
    obtain ⟨r, found, eq⟩ := Option.map_eq_some_iff.1 eq
    rw [le _ _ found]
    exact congrArg some eq
  values eq := by
    rw [run] at eq ⊢
    exact eq
  origin eq := by
    simp only [run] at eq ⊢
    obtain ⟨r, -, after⟩ := Option.map_eq_some_iff.1 eq
    exact .inl ⟨own _ _ _ _ after, eq⟩

theorem succeeds (e : ExprKey) : Relays ctx Own fun T ↦ ((T.evaluator ctx).bounds e).succeeds := by
  refine of_bounds (e := e) (fun r s ↦ (.ok r.isSome, s)) (fun _ _ _ _ eq ↦ nomatch eq)
    fun T s ↦ ?_
  rw [BoundM.succeeds_apply, Answers.bounds_evaluator]
  cases T (.bounds e s.pending) <;> rfl

theorem orFail (e : ExprKey) {cause : Cause} (own : ∀ s, Own (ctx.locate e (.of cause) s)) :
    Relays ctx Own fun T ↦ ((T.evaluator ctx).bounds e).orFail (ctx.failureAt e cause) := by
  refine of_bounds (e := e)
    (fun r s ↦ r.elim (.error (ctx.locate e (.of cause) s), s) fun a ↦ (.ok a, s)) ?_ fun T s ↦ ?_
  · intro r s f t eq
    cases r with
    | some a => cases eq
    | none =>
      cases eq
      exact own s
  · rw [BoundM.orFail_apply, Answers.bounds_evaluator]
    cases T (.bounds e s.pending) with
    | none => rfl
    | some r => cases r <;> rfl

end Relays

end ConstraintEval
