import ConstraintEval.Proofs.Bounds.Monotonicity
import ConstraintEval.Proofs.Bounds.Offers
import ConstraintEval.Proofs.Rearrangement

/-!
# Bounds are in order

The lower bound that is found for an expression is never greater than the upper one. Every rule
keeps to that: the hull of a set is found only if the set has members, and where bounds are worked
out from others, they cover what they are worked out from. So the domain that stands in for bounds
is never empty, and the builtins that ask for one of the two bounds and for their existence agree.
-/

namespace ConstraintEval

variable {ctx : Context}

/-! ### Intervals -/

theorem Interval.covers_self {r : Interval} (h : r.lo ≤ r.hi) : r.Covers r :=
  ⟨Int.le_refl _, h, Int.le_refl _⟩

/-- An operation on intervals in order has bounds in order. -/
theorem ArithOp.ordered_bounds? {op : ArithOp} {r s t : Interval} (hr : r.lo ≤ r.hi)
    (hs : s.lo ≤ s.hi) (h : op.bounds? r s = some t) : t.lo ≤ t.hi :=
  (covers_bounds? (Interval.covers_self hr) (Interval.covers_self hs) h h).ordered

theorem IntegerSet.ordered_hull? {s : IntegerSet} {r : Interval} (h : s.hull? = some r) :
    r.lo ≤ r.hi :=
  (hull?_covers (fun _ mem ↦ mem) h h).ordered

/-- The values between two bounds in order are some. -/
theorem IntegerSet.isEmpty_range {lo hi : Integer} (h : lo ≤ hi) :
    (range lo hi).isEmpty = false := by
  have mem : lo ∈ range lo hi := mem_range.2 ⟨Int.le_refl _, h⟩
  obtain ⟨run, found, -⟩ := mem
  rw [isEmpty, List.isEmpty_eq_false_iff]
  exact List.ne_nil_of_mem found

/-! ### The rules -/

namespace Evaluator

/-- Bounds that an evaluator finds are in order. -/
def Orders (ev : Evaluator) : Prop := ∀ e r, Offers (ev.bounds e) r → r.lo ≤ r.hi

variable {ev : Evaluator} {e x : ExprKey} {r : Interval}

theorem ordered_of_boundsOfDomain {domain : Option ExprKey}
    (h : Offers (ev.boundsOfDomain domain) r) : r.lo ≤ r.hi := by
  unfold boundsOfDomain at h
  split at h
  · obtain ⟨s, -, h⟩ := h.of_bind
    exact IntegerSet.ordered_hull? h.of_ofOption
  · exact h.not_failure.elim

theorem ordered_of_boundsOfKnown (h : Offers (ev.boundsOfKnown e) r) : r.lo ≤ r.hi := by
  unfold boundsOfKnown at h
  simp only at h
  split at h
  · obtain ⟨i, -, h⟩ := h.of_bind
    rw [h.of_pure]
    exact Int.le_refl _
  · exact h.not_failure.elim

section

variable (orders : ev.Orders)

include orders

theorem ordered_of_boundsOfEntered {v : VarKey} {span : Span}
    (h : Offers (ev.boundsOfEntered v span) r) : r.lo ≤ r.hi := by
  obtain ⟨-, -, h⟩ := h.of_bind
  rcases h.of_orElse with h | h
  · exact ordered_of_boundsOfDomain h
  · split at h
    · exact orders _ r h
    · exact h.not_failure.elim

/-- Bounds in order cover themselves. -/
private theorem covers_of_offers {xs : List ExprKey} {rs : List Interval}
    (found : List.Forall₂ (fun x r ↦ Offers (ev.bounds x) r) xs rs) :
    List.Forall₂ Interval.Covers rs rs := by
  induction found with
  | nil => exact .nil
  | cons head _ ih => exact .cons (Interval.covers_self (orders _ _ head)) ih

theorem covers_of_boundsOfElements {rs : List Interval} (h : Offers (ev.boundsOfElements x) rs) :
    List.Forall₂ Interval.Covers rs rs := by
  obtain ⟨a, -, h⟩ := h.of_bind
  exact covers_of_offers orders h.of_mapM

theorem ordered_of_hullOfElements (h : Offers (ev.hullOfElements x) r) : r.lo ≤ r.hi := by
  rcases h.of_orElse with h | h
  · exact ordered_of_boundsOfDomain h
  · obtain ⟨rs, elements, h⟩ := h.of_bind
    have covers := covers_of_boundsOfElements orders elements
    exact (Interval.Covers.reduce? .hull covers h.of_ofOption h.of_ofOption).ordered

theorem ordered_of_boundsOfCall {name : String} {args : List ExprKey}
    (h : Offers (ev.boundsOfCall name args) r) : r.lo ≤ r.hi := by
  have two {g : Interval → Interval → Interval} {x y : ExprKey}
      (hg : ∀ {r s r' s'}, Interval.Covers r s → Interval.Covers r' s' → (g r r').Covers (g s s'))
      (h : Offers (do return g (← ev.bounds x) (← ev.bounds y)) r) : r.lo ≤ r.hi := by
    obtain ⟨s, first, h⟩ := h.of_bind
    obtain ⟨t, second, h⟩ := h.of_bind
    rw [h.of_pure]
    exact (hg (Interval.covers_self (orders x s first))
      (Interval.covers_self (orders y t second))).ordered
  have elements {f : List Interval → Option Interval} {x : ExprKey}
      (hf : ∀ {rs t}, List.Forall₂ Interval.Covers rs rs → f rs = some t → t.Covers t)
      (h : Offers (do BoundM.ofOption (f (← ev.boundsOfElements x))) r) : r.lo ≤ r.hi := by
    obtain ⟨rs, elements, h⟩ := h.of_bind
    exact (hf (covers_of_boundsOfElements orders elements) h.of_ofOption).ordered
  have point {g : Interval → Integer} {x : ExprKey}
      (h : Offers (do return .point (g (← ev.bounds x))) r) : r.lo ≤ r.hi := by
    obtain ⟨s, -, h⟩ := h.of_bind
    rw [h.of_pure]
    exact Int.le_refl _
  unfold boundsOfCall at h
  split at h
  · rw [h.of_pure]
    decide
  · exact two .minOf h
  · exact two .maxOf h
  · exact elements (fun covers found ↦ .reduce? .minOf covers found found) h
  · exact elements (fun covers found ↦ .reduce? .maxOf covers found found) h
  · exact point h
  · exact point h
  · exact elements (fun covers found ↦ .foldlM_add? covers (Interval.covers_point _) found found) h
  · exact h.not_failure.elim

theorem ordered_of_boundsByForm (h : Offers (ev.boundsByForm e) r) : r.lo ≤ r.hi := by
  unfold boundsByForm at h
  split at h
  · exact ordered_of_boundsOfEntered orders h
  · obtain ⟨s, left, h⟩ := h.of_bind
    obtain ⟨t, right, h⟩ := h.of_bind
    exact ArithOp.ordered_bounds? (orders _ s left) (orders _ t right) h.of_ofOption
  · obtain ⟨s, operand, h⟩ := h.of_bind
    have covers := Interval.covers_self (orders _ s operand)
    exact (covers.neg? h.of_ofOption h.of_ofOption).ordered
  · obtain ⟨s, yes, h⟩ := h.of_bind
    obtain ⟨t, no, h⟩ := h.of_bind
    rw [h.of_pure]
    exact ((Interval.covers_self (orders _ s yes)).hull
      (Interval.covers_self (orders _ t no))).ordered
  · exact ordered_of_hullOfElements orders h
  · split at h
    · exact ordered_of_boundsOfCall orders h
    · exact h.not_failure.elim
  · exact h.not_failure.elim

theorem ordered_of_boundsStep (h : Offers (ev.boundsStep e) r) : r.lo ≤ r.hi := by
  have h := h.of_inScope
  split at h
  · rw [h.of_pure]
    exact Int.le_refl _
  · rcases h.of_orElse with h | h
    · exact ordered_of_boundsOfKnown h
    · exact ordered_of_boundsByForm orders h

end

/-- Every number of levels makes an evaluator that finds bounds in order. -/
theorem orders_ofLevels (ctx : Context) (n : Nat) : (ofLevels ctx n).Orders := by
  induction n with
  | zero =>
    rintro e r ⟨s, t, h⟩
    cases h
  | succ n ih =>
    intro e r h
    exact ordered_of_boundsStep ih h

end Evaluator

/-! ### Calls -/

/-- An expression is a call that computes a builtin from some arguments. -/
def Context.Calls (ctx : Context) (c : ExprKey) (b : Builtin) (args : List ExprKey) : Prop :=
  ∃ name f, ctx.model.form c = .call name (some f) args ∧ ctx.registry.builtin? f = some b

section Calls

variable {α : Type} {b : Builtin} {c e : ExprKey} {args : List ExprKey} {s : EvalState}

/-- The result of an evaluation in some state, or none if it fails, or nothing if it does not come
to an end. -/
private def resultIn (x : EvalM α) (s : EvalState) : Option (Option α) :=
  (x s).map fun r ↦ r.1.toOption

private theorem exists_of_resultIn_some {x : EvalM α} {a : α} (h : resultIn x s = some (some a)) :
    ∃ t, x s = some (.ok a, t) := by
  obtain ⟨⟨r, t⟩, run, eq⟩ := Option.map_eq_some_iff.1 h
  cases r with
  | error f => cases eq
  | ok a' =>
    cases eq
    exact ⟨t, run⟩

private theorem exists_of_resultIn_none {x : EvalM α} (h : resultIn x s = some none) :
    ∃ f t, x s = some (.error f, t) := by
  obtain ⟨⟨r, t⟩, run, eq⟩ := Option.map_eq_some_iff.1 h
  cases r with
  | error f => exact ⟨f, t, run⟩
  | ok a => cases eq

/-- A call comes to what its builtin computes, in scopes of its own. -/
private theorem resultIn_call (call : ctx.Calls c b args) :
    resultIn (ctx.evaluator.eval c) s =
      resultIn (ctx.evaluator.apply args b) s.openScope.openScope := by
  obtain ⟨name, f, form, bound⟩ := call
  unfold resultIn
  rw [Context.eval_evaluator]
  change Option.map _ ((EvalM.inScope
    (ctx.locating c (ctx.chainEnd c >>= ctx.evaluator.valueOfEnd)) >>= _) s) = _
  rw [EvalM.bind_apply, Context.chain_apply, followChain_call form]
  simp only
  rw [valueOfEnd_call form bound, EvalM.inScope_apply]
  change Option.map _ (Option.bind (Option.map _ (Option.map _
    (ctx.evaluator.apply args b s.openScope.openScope))) _) = _
  cases ctx.evaluator.apply args b s.openScope.openScope with
  | none => rfl
  | some r =>
    obtain ⟨r, t⟩ := r
    cases r <;> rfl

private theorem resultIn_bound (side : Side) :
    resultIn (ctx.evaluator.apply [e] (.bound side)) s =
      (ctx.evaluator.bounds e s).map fun r ↦ r.1.map fun r ↦ .int (side.endOf r) := by
  simp only [Evaluator.apply, Evaluator.bound, soleArg, pure_bind, map_bind, map_pure]
  unfold resultIn Evaluator.requiredBounds
  rw [EvalM.bind_apply, BoundM.orFail_apply]
  cases ctx.evaluator.bounds e s with
  | none => rfl
  | some r =>
    obtain ⟨o, t⟩ := r
    cases o <;> rfl

private theorem resultIn_isBounded :
    resultIn (ctx.evaluator.apply [e] .isBounded) s =
      (ctx.evaluator.bounds e s).map fun r ↦ some (.bool r.1.isSome) := by
  simp only [Evaluator.apply, soleArg, pure_bind]
  unfold resultIn Evaluator.isBounded
  rw [EvalM.bind_apply, BoundM.succeeds_apply]
  cases ctx.evaluator.bounds e s <;> rfl

/-- Bounds are found alike in the scopes of a call. -/
private theorem exists_bounds_openScope {o : Option Interval} {t : EvalState}
    (found : ctx.evaluator.bounds e s = some (o, t)) :
    ∃ u, ctx.evaluator.bounds e s.openScope.openScope = some (o, u) := by
  have steady : Steady (ctx.evaluator.bounds e).run := steady_bounds e
  obtain ⟨result, blind⟩ := steady.blind
  have same : (ctx.evaluator.bounds e s.openScope.openScope).map Prod.fst =
      (ctx.evaluator.bounds e s).map Prod.fst :=
    (blind _).trans (blind s).symm
  rw [found] at same
  obtain ⟨⟨o', u⟩, found', rfl⟩ := Option.map_eq_some_iff.1 same
  exact ⟨u, found'⟩

end Calls

/-- Bounds are never inverted. Whatever is pending, the bounds that are found for an expression or
for a variable are in order. So of two calls that ask for the lower and for the upper bound of an
expression both have values, which are in order, or both fail, and a call that asks whether there
are bounds tells which; and a variable without a declared domain never has an empty one. -/
theorem bounds_in_order (ctx : Context) (s : EvalState) :
    (∀ e r t, ctx.evaluator.bounds e s = some (some r, t) → r.lo ≤ r.hi) ∧
    (∀ v r t, ctx.evaluator.boundsOfVariable v s = some (some r, t) → r.lo ≤ r.hi) ∧
    (∀ e low high asks o t, ctx.Calls low (.bound .low) [e] → ctx.Calls high (.bound .high) [e] →
      ctx.Calls asks .isBounded [e] → ctx.evaluator.bounds e s = some (o, t) →
        match o with
        | some r => r.lo ≤ r.hi ∧
          (∃ t, ctx.evaluator.eval asks s = some (.ok (.bool true), t)) ∧
          (∃ t, ctx.evaluator.eval low s = some (.ok (.int r.lo), t)) ∧
          ∃ t, ctx.evaluator.eval high s = some (.ok (.int r.hi), t)
        | none =>
          (∃ t, ctx.evaluator.eval asks s = some (.ok (.bool false), t)) ∧
          (∃ f t, ctx.evaluator.eval low s = some (.error f, t)) ∧
          ∃ f t, ctx.evaluator.eval high s = some (.error f, t)) ∧
    ∀ v set t, (ctx.model.variableAt v).domain = none →
      ctx.evaluator.domainOfVariable v s = some (.ok set, t) → set.isEmpty = false := by
  have orders := Evaluator.orders_ofLevels ctx ctx.levels
  have ofVariable (v : VarKey) (r : Interval) (h : Offers (ctx.evaluator.boundsOfVariable v) r) :
      r.lo ≤ r.hi :=
    Evaluator.ordered_of_boundsOfEntered orders h.of_inScope
  refine ⟨fun e r t found ↦ orders e r ⟨s, t, found⟩, fun v r t found ↦ ofVariable v r ⟨s, t, found⟩,
    fun e low high asks o t callsLow callsHigh callsAsks found ↦ ?calls,
    fun v set t undeclared shown ↦ ?domain⟩
  case calls =>
    obtain ⟨u, inside⟩ := exists_bounds_openScope found
    have bound {c : ExprKey} {side : Side} (calls : ctx.Calls c (.bound side) [e]) :
        resultIn (ctx.evaluator.eval c) s = some (o.map fun r ↦ .int (side.endOf r)) := by
      rw [resultIn_call calls, resultIn_bound, inside]
      rfl
    have asked : resultIn (ctx.evaluator.eval asks) s = some (some (.bool o.isSome)) := by
      rw [resultIn_call callsAsks, resultIn_isBounded, inside]
      rfl
    cases o with
    | some r =>
      exact ⟨orders e r ⟨s, t, found⟩, exists_of_resultIn_some asked,
        exists_of_resultIn_some (bound callsLow), exists_of_resultIn_some (bound callsHigh)⟩
    | none =>
      exact ⟨exists_of_resultIn_some asked, exists_of_resultIn_none (bound callsLow),
        exists_of_resultIn_none (bound callsHigh)⟩
  case domain =>
    unfold Evaluator.domainOfVariable at shown
    rw [show (ctx.evaluator.model.variableAt v).domain = none from undeclared] at shown
    obtain ⟨r, found, shown⟩ := Gives.of_bind ⟨s, t, shown⟩
    rw [shown.of_pure]
    exact IntegerSet.isEmpty_range (ofVariable v r (Offers.of_orFail found))

/-! ### The distance of a bounded variable to a number -/

/-- The model of a variable that is by how much another one between 1 and 5 is less than 7, and of
calls that ask for its bounds. -/
def distanceToSeven : Model :=
  let build : Build Unit := do
    Library.declareAll
    let domain ← Build.literalRange .one (.ofByte 5)
    let x ← Build.addVariable
      { name := "x", span := .nowhere, ty := .int .var, domain := some domain, indexSets := [],
        definition := none }
    let distance ← Build.binary (.arith .sub) (← Build.int (.ofByte 7)) (← Build.name x)
    let y ← Build.name <| ← Build.addVariable
      { name := "y", span := .nowhere, ty := .int .var, domain := none, indexSets := [],
        definition := some distance }
    let _ ← Build.call "lb" [y]
    let _ ← Build.call "ub" [y]
    let _ ← Build.call "has_bounds" [y]
  (build.run .empty).2

/-- The model with the standard library. -/
def distanceContext : Context where
  model := distanceToSeven
  registry := ((Registry.ofLibrary distanceToSeven).toOption).getD .empty

/-- The bounds of the distance are 2 and 6, in this order, and so is its domain. -/
theorem bounds_of_distance_in_order :
    let low : Integer := .ofByte 2
    let high : Integer := .ofByte 6
    Registry.ofLibrary distanceContext.model = .ok distanceContext.registry ∧
    distanceContext.evaluator.bounds ⟨6⟩ (.fresh none) = some (some ⟨low, high⟩, .fresh none) ∧
    (∃ t, distanceContext.evaluator.eval ⟨7⟩ (.fresh none) = some (.ok (.int low), t)) ∧
    (∃ t, distanceContext.evaluator.eval ⟨8⟩ (.fresh none) = some (.ok (.int high), t)) ∧
    low ≤ high ∧ (IntegerSet.range low high).isEmpty = false := by
  intro low high
  obtain ⟨-, -, calls, domain⟩ := bounds_in_order distanceContext (.fresh none)
  have found : distanceContext.evaluator.bounds ⟨6⟩ (.fresh none) =
      some (some ⟨low, high⟩, .fresh none) := by
    decide +kernel
  -- all three at once, so that the registry is looked at only once
  obtain ⟨⟨formLow, boundLow⟩, ⟨formHigh, boundHigh⟩, formAsks, boundAsks⟩ :
      (distanceContext.model.form ⟨7⟩ = .call "lb" (some ⟨21⟩) [⟨6⟩] ∧
        distanceContext.registry.builtin? ⟨21⟩ = some (.bound .low)) ∧
      (distanceContext.model.form ⟨8⟩ = .call "ub" (some ⟨22⟩) [⟨6⟩] ∧
        distanceContext.registry.builtin? ⟨22⟩ = some (.bound .high)) ∧
      distanceContext.model.form ⟨9⟩ = .call "has_bounds" (some ⟨18⟩) [⟨6⟩] ∧
        distanceContext.registry.builtin? ⟨18⟩ = some .isBounded := by
    decide +kernel
  have callsLow : distanceContext.Calls ⟨7⟩ (.bound .low) [⟨6⟩] := ⟨_, _, formLow, boundLow⟩
  have callsHigh : distanceContext.Calls ⟨8⟩ (.bound .high) [⟨6⟩] := ⟨_, _, formHigh, boundHigh⟩
  have asks : distanceContext.Calls ⟨9⟩ .isBounded [⟨6⟩] := ⟨_, _, formAsks, boundAsks⟩
  obtain ⟨ordered, -, lower, upper⟩ := calls ⟨6⟩ ⟨7⟩ ⟨8⟩ ⟨9⟩ _ _ callsLow callsHigh asks found
  have undeclared : (distanceContext.model.variableAt ⟨1⟩).domain = none := by decide +kernel
  have shown : distanceContext.evaluator.domainOfVariable ⟨1⟩ (.fresh none) =
      some (.ok (.range low high), .fresh none) := by
    decide +kernel
  exact ⟨by decide +kernel, found, lower, upper, ordered, domain ⟨1⟩ _ _ undeclared shown⟩

end ConstraintEval
