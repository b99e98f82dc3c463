import ConstraintEval.Proofs.Failures.Relays

/-!
# Places of failures

A failure gets its place from the expression at which it comes up, if that has one. Some failures
bring a place along: where a variable without a value is declared, or where the name stands that
leads to a pending declaration. Those places are taken as they are, also where they are nowhere in
the source.
-/

namespace ConstraintEval

variable {ctx : Context} {e : ExprKey} {f g : Failure} {cause : Cause} {α : Type}

/-- A failure for a cause may bring a place along. -/
inductive Context.Brings (ctx : Context) : Cause → Span → Prop
  /-- A variable that needs a value and has none, at its declaration. -/
  | missingValue {v : VarKey} (undefined : (ctx.model.variableAt v).definition = none) :
    Brings ctx (.missingValue (ctx.model.variableAt v).name) (ctx.model.variableAt v).span
  /-- A variable that needs a domain and has none, at its declaration. -/
  | unknownBounds {v : VarKey} (operation : String)
    (undefined : (ctx.model.variableAt v).definition = none)
    (unrestricted : (ctx.model.variableAt v).domain = none) :
    Brings ctx (.unknownBounds operation) (ctx.model.variableAt v).span
  /-- A variable that needs its own value, at the name that leads to it. -/
  | selfDependence {y : ExprKey} {name : String} {v : VarKey}
    (form : ctx.model.form y = .name name (some v)) :
    Brings ctx (.selfDependence (ctx.model.variableAt v).name) (ctx.model.span y)
  /-- A variable that is nested too deeply, at the name that leads to it. -/
  | excessDepth {y : ExprKey} {name : String} {v : VarKey} (limit : Nat)
    (form : ctx.model.form y = .name name (some v)) :
    Brings ctx (.excessDepth limit) (ctx.model.span y)

/-- The place of a failure is brought along by its cause, or else, if it has one, somewhere in the
source. -/
def Context.Lawful (ctx : Context) (f : Failure) : Prop :=
  (∃ span, f.span = some span ∧ ctx.Brings f.cause span) ∨
    f.cause.bringsPlace = false ∧ ∀ span, f.span = some span → span.isNowhere = false

/-- A failure that brings no place along and, if an operation fails on its operands, has none. -/
structure Failure.Plain (f : Failure) : Prop where
  brings : f.cause.bringsPlace = false
  somewhere : ∀ span, f.span = some span → span.isNowhere = false
  unplaced : f.cause.ofOperation = true → f.span = none

theorem Failure.Plain.lawful (h : f.Plain) : ctx.Lawful f := .inr ⟨h.brings, h.somewhere⟩

theorem plain_of (h : cause.bringsPlace = false) : (Failure.of cause).Plain :=
  ⟨h, fun _ eq ↦ (nomatch eq), fun _ ↦ rfl⟩

theorem lawful_of (h : cause.bringsPlace = false) : ctx.Lawful (.of cause) := (plain_of h).lawful

theorem lawful_missingValue {v : VarKey}
    (undefined : (ctx.model.variableAt v).definition = none) : ctx.Lawful (ctx.missingValue v) :=
  .inl ⟨_, rfl, .missingValue undefined⟩

namespace Model

variable {m : Model} {es : List ExprKey} {span : Span}

theorem isNowhere_of_place? (h : m.place? e = some span) : span.isNowhere = false := by
  unfold place? at h
  split at h
  · cases h
  · next somewhere =>
    cases h
    exact Bool.eq_false_iff.2 somewhere

theorem isNowhere_of_firstPlace? (h : m.firstPlace? es = some span) : span.isNowhere = false := by
  obtain ⟨e, -, place⟩ := List.exists_of_findSome?_eq_some h
  exact isNowhere_of_place? place

end Model

/-- A failure that is relayed stays lawful: only expressions that are somewhere in the source place
it. -/
theorem Context.Lawful.relayed {es : List ExprKey} (h : ctx.Lawful g)
    (relayed : ctx.model.Relayed es g f) : ctx.Lawful f := by
  obtain ⟨cause, span⟩ := relayed
  unfold Context.Lawful
  rw [cause, span]
  rcases h with ⟨place, placed, brings⟩ | ⟨brings, somewhere⟩
  · exact .inl ⟨place, by rw [placed]; rfl, brings⟩
  · refine .inr ⟨brings, fun place eq ↦ ?_⟩
    rcases Option.or_eq_some_iff.1 eq with eq | ⟨-, eq⟩
    · exact somewhere place eq
    · exact Model.isNowhere_of_firstPlace? eq

theorem Context.Lawful.locate (h : ctx.Lawful f) (e : ExprKey) (s : EvalState) :
    ctx.Lawful (ctx.locate e f s) := h.relayed (relayed_locate e f s)

/-! ### Chains of names -/

section Visits

variable {name : String} {v : VarKey} {p : Pending} {nested : Bool}
  (form : ctx.model.form e = .name name (some v))

include form

private theorem lawful_selfDependence :
    ctx.Lawful (p.selfDependence (ctx.visitTo v (ctx.model.span e))) ∧
      (p.selfDependence (ctx.visitTo v (ctx.model.span e))).cause.ofOperation = false := by
  unfold Context.Lawful Pending.selfDependence
  rw [Pending.cause_addTrail, Pending.span_addTrail]
  exact ⟨.inl ⟨_, rfl, .selfDependence form⟩, rfl⟩

private theorem lawful_excessDepth (limit : Nat) :
    ctx.Lawful (p.excessDepth limit (ctx.visitTo v (ctx.model.span e))) ∧
      (p.excessDepth limit (ctx.visitTo v (ctx.model.span e))).cause.ofOperation = false := by
  unfold Context.Lawful Pending.excessDepth
  rw [Pending.cause_addTrail, Pending.span_addTrail]
  exact ⟨.inl ⟨_, rfl, .excessDepth limit form⟩, rfl⟩

/-- A visit that is refused brings the place of the name that leads to it. -/
private theorem lawful_enter
    (refused : p.enter (ctx.visitTo v (ctx.model.span e)) nested = .error f) :
    ctx.Lawful f ∧ f.cause.ofOperation = false := by
  unfold Pending.enter at refused
  split at refused
  · cases refused
    exact lawful_selfDependence form
  · split at refused
    · cases refused
    · split at refused
      · cases refused
        exact lawful_excessDepth form _
      · cases refused

end Visits

/-- Following a chain of names fails lawfully, and not by an operation. -/
theorem lawful_followChain {nested : Bool} {steps : Nat} {p : Pending}
    (h : (ctx.followChain nested steps p e).1 = .error f) :
    ctx.Lawful f ∧ f.cause.ofOperation = false := by
  induction steps generalizing nested p e with
  | zero =>
    unfold Context.followChain at h
    split at h
    · cases h
      exact ⟨lawful_of rfl, rfl⟩
    · next form =>
      cases h
      exact lawful_selfDependence form
    · cases h
  | succ steps ih =>
    unfold Context.followChain at h
    split at h
    · cases h
      exact ⟨lawful_of rfl, rfl⟩
    · next form =>
      simp only at h
      split at h
      · next refused =>
        cases h
        exact lawful_enter form refused
      · split at h
        · cases h
        · exact ih h
    · cases h

end ConstraintEval
