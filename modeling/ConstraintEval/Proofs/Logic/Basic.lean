import ConstraintEval.Proofs.Bounds.Offers
import ConstraintEval.Proofs.Failures.Bare
import ConstraintEval.Proofs.Semantics.Elements

/-!
# Logics of evaluation

Much of what can be said about evaluation holds of every rule because all ways of putting steps
together pass it on. A logic of evaluation is such a judgement on evaluations and on searches for
bounds, with the laws by which it is passed on. It may depend on the region that a step stays in:
the expressions that can come up in it. `Rules` derives the judgement on every rule from the laws.
-/

namespace ConstraintEval

/-- Whether a cause is about the declarations that are pending. -/
def Cause.aboutPending : Cause → Bool
  | .selfDependence _ | .excessDepth _ => true
  | _ => false

/-- If a result is a failure, then one that would be the same whatever is pending. -/
def Settled {α : Type} (r : Except Failure α) : Prop :=
  ∀ f, r = .error f → f.cause.aboutPending = false

/-- A judgement on the steps of evaluation that is passed on by the ways of putting them
together. -/
structure EvalLogic (ctx : Context) where
  /-- The judgement on an evaluation that stays in a region. -/
  Evals : (ExprKey → Prop) → {α : Type} → EvalM α → Prop
  /-- The judgement on a search for bounds that stays in a region. -/
  Bounds : (ExprKey → Prop) → {α : Type} → BoundM α → Prop
  /-- Whether values may depend on which bounds are found in a region. -/
  Searches : (ExprKey → Prop) → Prop
  weaken : ∀ {P P' : ExprKey → Prop} {α : Type} {x : EvalM α}, (∀ y, P y → P' y) → Evals P x →
    Evals P' x
  ofExcept : ∀ {P : ExprKey → Prop} {α : Type} {r : Except Failure α}, Settled r →
    Evals P (EvalM.ofExcept r)
  failAt : ∀ {P : ExprKey → Prop} {α : Type} (e : ExprKey) {cause : Cause},
    cause.aboutPending = false → Evals P (ctx.failAt e cause : EvalM α)
  bind : ∀ {P : ExprKey → Prop} {α β : Type} {x : EvalM α} {f : α → EvalM β}, Evals P x →
    (∀ a, Gives x a → Evals P (f a)) → Evals P (x >>= f)
  locating : ∀ {P : ExprKey → Prop} {α : Type} (e : ExprKey) {x : EvalM α}, Evals P x →
    Evals P (ctx.locating e x)
  inScope : ∀ {P : ExprKey → Prop} {α : Type} {x : EvalM α}, Evals P x → Evals P (EvalM.inScope x)
  keep : ∀ {P : ExprKey → Prop} (v : Value),
    Evals P (do modify (EvalState.keep v); return v : EvalM Value)
  /-- What follows a chain of names stays in a smaller region, as the variables along the chain
  are pending. -/
  chain : ∀ {α : Type} (e : ExprKey) {f : ChainEnd → EvalM α},
    (∀ c P, Leads ctx e c → ctx.Closed P → c.In ctx P → Evals P (f c)) →
    Evals (ctx.Reaches e) (EvalM.inScope (ctx.locating e (ctx.chainEnd e >>= f)))
  weaken_bounds : ∀ {P P' : ExprKey → Prop} {α : Type} {x : BoundM α}, (∀ y, P y → P' y) →
    Bounds P x → Bounds P' x
  ofOption : ∀ {P : ExprKey → Prop} {α : Type} (r : Option α), Bounds P (BoundM.ofOption r)
  bind_bounds : ∀ {P : ExprKey → Prop} {α β : Type} {x : BoundM α} {f : α → BoundM β}, Bounds P x →
    (∀ a, Offers x a → Bounds P (f a)) → Bounds P (x >>= f)
  orElse : ∀ {P : ExprKey → Prop} {α : Type} {x y : BoundM α}, Bounds P x → Bounds P y →
    Bounds P (x <|> y)
  inScope_bounds : ∀ {P : ExprKey → Prop} {α : Type} {x : BoundM α}, Bounds P x →
    Bounds P (BoundM.inScope x)
  bounds : ∀ {P : ExprKey → Prop} {α : Type} {x : EvalM α}, Evals P x → Bounds P x.bounds
  /-- What follows the visit to a variable stays in a smaller region, as the variable is
  pending. -/
  visit : ∀ {α : Type} {e : ExprKey} {name : String} {v : VarKey} {x y : BoundM α},
    ctx.model.form e = .name name (some v) → Bounds (ctx.Reaches e) x →
    (∀ P, ctx.Closed P → (∀ d ∈ ctx.model.mentionedBy v, P d) → Bounds P y) →
    Bounds (ctx.Reaches e)
      (BoundM.inScope (x <|> ((ctx.enter v (ctx.model.span e)).bounds >>= fun _ ↦ y)))
  succeeds : ∀ {P : ExprKey → Prop} {α : Type} {x : BoundM α}, Searches P → Bounds P x →
    Evals P x.succeeds
  orFail : ∀ {P : ExprKey → Prop} {α : Type} {x : BoundM α} (e : ExprKey) {cause : Cause},
    cause.aboutPending = false → Searches P → Bounds P x →
    Evals P (x.orFail (ctx.failureAt e cause))

/-- A call of a builtin that looks for bounds. -/
def Context.LooksForBounds (ctx : Context) (e : ExprKey) : Prop :=
  ∃ name f args b, ctx.model.form e = .call name (some f) args ∧
    ctx.registry.builtin? f = some b ∧ b.looksForBounds = true

/-! ### Results of operations -/

variable {α β : Type}

theorem settled_ok (a : α) : Settled (.ok a) := fun _ h ↦ nomatch h

theorem settled_error {f : Failure} (h : f.cause.aboutPending = false) :
    Settled (.error f : Except Failure α) := by
  intro g eq
  cases eq
  exact h

theorem Cause.aboutPending_of_bringsPlace {cause : Cause} (h : cause.bringsPlace = false) :
    cause.aboutPending = false := by
  cases cause with
  | selfDependence | excessDepth => cases h
  | _ => rfl

/-- Operations fail for causes that are not about what is pending. -/
theorem Bare.settled {r : Except Failure α} (h : Bare r) : Settled r :=
  fun f eq ↦ Cause.aboutPending_of_bringsPlace (h f eq).2

/-! ### Laws that follow from others -/

namespace EvalLogic

variable {ctx : Context} (L : EvalLogic ctx) {P : ExprKey → Prop}

theorem pure (a : α) : L.Evals P (Pure.pure a : EvalM α) := L.ofExcept (settled_ok a)

theorem throw {f : Failure} (h : f.cause.aboutPending = false) :
    L.Evals P (throw f : EvalM α) := L.ofExcept (settled_error h)

theorem fail {cause : Cause} (h : cause.aboutPending = false) :
    L.Evals P (EvalM.fail cause : EvalM α) := L.throw h

theorem ofOption_eval {cause : Cause} (h : cause.aboutPending = false) (o : Option α) :
    L.Evals P (EvalM.ofOption cause o) := by
  cases o with
  | none => exact L.fail h
  | some a => exact L.pure a

theorem map {x : EvalM α} (f : α → β) (hx : L.Evals P x) : L.Evals P (f <$> x) := by
  rw [← bind_pure_comp]
  exact L.bind hx fun a _ ↦ L.pure (f a)

theorem mapM {xs : List α} {f : α → EvalM β} (hf : ∀ a ∈ xs, L.Evals P (f a)) :
    L.Evals P (xs.mapM f) := by
  induction xs with
  | nil => exact L.pure []
  | cons a xs ih =>
    obtain ⟨head, tail⟩ := List.forall_mem_cons.1 hf
    rw [List.mapM_cons]
    exact L.bind head fun b _ ↦ L.bind (ih tail) fun bs _ ↦ L.pure (b :: bs)

theorem foldlM {xs : List α} {f : β → α → EvalM β} {b : β}
    (hf : ∀ b, ∀ a ∈ xs, L.Evals P (f b a)) : L.Evals P (xs.foldlM f b) := by
  induction xs generalizing b with
  | nil => exact L.pure b
  | cons a xs ih =>
    rw [List.foldlM_cons]
    refine L.bind (hf b a List.mem_cons_self) fun c _ ↦ ih fun b a ha ↦ ?_
    exact hf b a (List.mem_cons_of_mem _ ha)

theorem allM {xs : List α} {f : α → EvalM Bool} (hf : ∀ a ∈ xs, L.Evals P (f a)) :
    L.Evals P (xs.allM f) := by
  induction xs with
  | nil => exact L.pure true
  | cons a xs ih =>
    obtain ⟨head, tail⟩ := List.forall_mem_cons.1 hf
    refine L.bind head fun b _ ↦ ?_
    cases b with
    | false => exact L.pure false
    | true => exact ih tail

theorem anyM {xs : List α} {f : α → EvalM Bool} (hf : ∀ a ∈ xs, L.Evals P (f a)) :
    L.Evals P (xs.anyM f) := by
  induction xs with
  | nil => exact L.pure false
  | cons a xs ih =>
    obtain ⟨head, tail⟩ := List.forall_mem_cons.1 hf
    refine L.bind head fun b _ ↦ ?_
    cases b with
    | false => exact ih tail
    | true => exact L.pure true

theorem pure_bounds (a : α) : L.Bounds P (Pure.pure a : BoundM α) := L.ofOption (some a)

theorem failure : L.Bounds P (failure : BoundM α) := L.ofOption none

theorem mapM_bounds {xs : List α} {f : α → BoundM β} (hf : ∀ a ∈ xs, L.Bounds P (f a)) :
    L.Bounds P (xs.mapM f) := by
  induction xs with
  | nil => exact L.pure_bounds []
  | cons a xs ih =>
    obtain ⟨head, tail⟩ := List.forall_mem_cons.1 hf
    rw [List.mapM_cons]
    exact L.bind_bounds head fun b _ ↦ L.bind_bounds (ih tail) fun bs _ ↦ L.pure_bounds (b :: bs)

end EvalLogic

end ConstraintEval
