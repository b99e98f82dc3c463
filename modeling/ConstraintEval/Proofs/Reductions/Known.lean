import ConstraintEval.Proofs.Reductions.Results

/-!
# Bounds of known integers

The bounds of a known integer are its exact value where it has one, and are worked out from its
form where it has none. An operation on integers is such that the second way leads to the first:
where its value is found, so are bounds for its operands, and they are the values alone. So it
does not matter that the exact value is tried first.
-/

namespace ConstraintEval

variable {ctx : Context} {p : Pending} {e : ExprKey}

/-- A search for bounds finds what a computation of an integer comes to, and does not end where the
computation does not. Where the computation fails anything may be found. -/
structure Foretells (k : OptionT Option Integer) (f : OptionT Option Interval) : Prop where
  endless : k = none → f = none
  exact : ∀ v, k = some (some v) → f = some (some (.point v))

namespace Foretells

variable {k : OptionT Option Integer} {f : OptionT Option Interval}

/-- To try the exact value first does not matter. -/
theorem orElse (h : Foretells k f) : (Interval.point <$> k <|> f) = f := by
  match k, h with
  | none, h => exact (h.endless rfl).symm
  | some none, _ => rfl
  | some (some v), h => exact (h.exact v rfl).symm

theorem of_endless : Foretells none none :=
  ⟨fun _ ↦ rfl, fun _ h ↦ absurd h.symm (Option.some_ne_none _)⟩

theorem of_failed (f : OptionT Option Interval) : Foretells (some none) f :=
  ⟨fun h ↦ absurd h (Option.some_ne_none _),
    fun v h ↦ absurd (Option.some.inj h).symm (Option.some_ne_none v)⟩

theorem of_value (v : Integer) : Foretells (some (some v)) (some (some (.point v))) :=
  ⟨fun h ↦ absurd h (Option.some_ne_none _), fun w h ↦ by
    rw [Option.some.inj (Option.some.inj h)]⟩

theorem found (o : Option Integer) : Foretells (found? o) (found? (o.map .point)) := by
  cases o with
  | none => exact .of_failed _
  | some v => exact .of_value v

theorem bind {g : Integer → OptionT Option Integer} {g' : Interval → OptionT Option Interval}
    (h : Foretells k f) (next : ∀ v, Foretells (g v) (g' (.point v))) :
    Foretells (k >>= g) (f >>= g') := by
  match k, h with
  | none, h =>
    rw [h.endless rfl]
    exact .of_endless
  | some none, _ => exact .of_failed _
  | some (some v), h =>
    rw [h.exact v rfl]
    exact next v

/-- What is found first does not matter, as long as it is the same. -/
theorem after {γ : Type} {o : OptionT Option γ} {g : γ → OptionT Option Integer}
    {g' : γ → OptionT Option Interval} (next : ∀ c, o = some (some c) → Foretells (g c) (g' c)) :
    Foretells (o >>= g) (o >>= g') := by
  match o, next with
  | none, _ => exact .of_endless
  | some none, _ => exact .of_failed _
  | some (some c), next => exact next c rfl

end Foretells

/-! ### Operations on single values -/

namespace Interval

theorem add?_point (a b : Integer) : (point a).add? (point b) = (a.add? b).map point := by
  simp only [add?, point]
  cases a.add? b <;> rfl

end Interval

namespace Side

/-- Bounds of the value nearer to one end. -/
def pickBounds : Side → Interval → Interval → Interval
  | .low => Interval.minOf
  | .high => Interval.maxOf

theorem pickBounds_point (side : Side) (a b : Integer) :
    side.pickBounds (.point a) (.point b) = .point (side.pick a b) := by
  cases side <;> rfl

theorem endOf_pickBounds (side : Side) (r s : Interval) :
    side.endOf (side.pickBounds r s) = side.pick (side.endOf r) (side.endOf s) := by
  cases side <;> rfl

instance (side : Side) : Std.Associative side.pick where
  assoc a b c := by
    cases side <;> simp only [pick, Integer.ext_iff, Integer.val_min, Integer.val_max] <;> omega

instance (side : Side) : Std.Associative side.pickBounds where
  assoc r s t := by
    cases side <;>
      simp only [pickBounds, Interval.minOf, Interval.maxOf, Interval.mk.injEq, Integer.ext_iff,
        Integer.val_min, Integer.val_max] <;>
      omega

end Side

/-! ### Known integers -/

/-- The value of a known integer is its bounds. -/
theorem foretells_of_known (known : ctx.model.ty e = .int .par) :
    Foretells ((ctx.evaluator.intOf e).resultAt p) ((ctx.evaluator.bounds e).resultAt p) := by
  rw [Context.bounds_evaluator]
  unfold Evaluator.boundsStep
  split
  · next v form =>
    have value : (ctx.evaluator.intOf e).resultAt p = some (some v) :=
      (resultAt_eq_some_iff (steady_intOf e)).2 (givesAt_intOf form)
    rw [value]
    exact .of_value v
  · -- the value is looked for in a scope
    let s : EvalState := ⟨p, [], 1⟩
    have tried : ctx.evaluator.boundsOfKnown e =
        (do return .point (← (ctx.evaluator.intOf e).bounds)) := by
      have ty : ctx.evaluator.model.ty e = .int .par := known
      simp only [Evaluator.boundsOfKnown, ty]
      rfl
    have value : (ctx.evaluator.intOf e s).map (fun r ↦ r.1.toOption) =
        (ctx.evaluator.intOf e).resultAt p := (steady_intOf e).map_toOption s
    change Foretells _ ((BoundM.inScope _ ⟨p, [], 0⟩).map Prod.fst)
    rw [BoundM.inScope_apply, Option.map_map, BoundM.orElse_apply, tried, BoundM.bind_apply,
      EvalM.bounds_apply]
    change Foretells _ (Option.map _ (((Option.map _ (ctx.evaluator.intOf e s)).bind _).bind _))
    rw [← value]
    cases ctx.evaluator.intOf e s with
    | none => exact .of_endless
    | some r =>
      obtain ⟨r, t⟩ := r
      cases r with
      | error f => exact .of_failed _
      | ok v => exact .of_value v

/-- The bounds of an operation are those that its form gives, if these are its value where it is
known and has one. -/
theorem resultAt_bounds_of_form {mode : Mode} (form : ∀ v, ctx.model.form e ≠ .int v)
    (ty : ctx.model.ty e = .int mode) (steady : Steady (ctx.evaluator.boundsByForm e).run)
    (foretells : mode = .par → Foretells ((ctx.evaluator.intOf e).resultAt p)
      ((ctx.evaluator.boundsByForm e).resultAt p)) :
    (ctx.evaluator.bounds e).resultAt p = (ctx.evaluator.boundsByForm e).resultAt p := by
  have ty' : ctx.evaluator.model.ty e = .int mode := ty
  rw [Context.bounds_evaluator]
  unfold Evaluator.boundsStep
  split
  · next v form' => exact (form v form').elim
  · cases mode with
    | var =>
      have unknown : ctx.evaluator.boundsOfKnown e = failure := by
        simp only [Evaluator.boundsOfKnown, ty']
        rfl
      rw [unknown, BoundM.resultAt_inScope (Steady.findNone.findElse steady),
        BoundM.resultAt_orElse .findNone steady]
      rfl
    | par =>
      have tried : ctx.evaluator.boundsOfKnown e =
          (do return .point (← (ctx.evaluator.intOf e).bounds)) := by
        simp only [Evaluator.boundsOfKnown, ty']
        rfl
      have value := (@steady_intOf ctx e).findValue
      have known := value.findThen fun v ↦ Steady.find (Interval.point v)
      rw [tried, BoundM.resultAt_inScope (known.findElse steady),
        BoundM.resultAt_orElse known steady, BoundM.resultAt_bind value fun v ↦ .find _,
        BoundM.resultAt_bounds]
      exact (foretells rfl).orElse

end ConstraintEval
