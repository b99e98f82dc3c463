import ConstraintEval.Proofs.Queries
import ConstraintEval.Proofs.Bounds.Offers

/-!
# Two searches for bounds side by side

Two searches that begin with the same declarations pending are compared by what they find. They are
paired if their results are related wherever both find something, and aligned if moreover one finds
something exactly where the other does. Pairs are put together from pairs, except that at a choice
between two ways the first ones have to be aligned, or else the searches could take different ways.
-/

namespace ConstraintEval

variable {α β α' β' : Type}

/-- Two searches for bounds that begin with the same declarations pending: if both find something,
their results are related, and they leave the same declarations pending. -/
def Paired (R : α → β → Prop) (x : BoundM α) (y : BoundM β) : Prop :=
  ∀ s s' a b t t', s.pending = s'.pending → x s = some (some a, t) → y s' = some (some b, t') →
    R a b ∧ t.pending = t'.pending

/-- Two searches for bounds that begin with the same declarations pending: both find something, with
related results, or neither does, and they leave the same declarations pending. -/
def Aligned (R : α → β → Prop) (x : BoundM α) (y : BoundM β) : Prop :=
  ∀ s s' o o' t t', s.pending = s'.pending → x s = some (o, t) → y s' = some (o', t') →
    Option.Rel R o o' ∧ t.pending = t'.pending

section Laws

variable {R : α → β → Prop} {S : α' → β' → Prop} {x : BoundM α} {y : BoundM β}

namespace Aligned

theorem paired (h : Aligned R x y) : Paired R x y := by
  intro s s' a b t t' pending run run'
  obtain ⟨related, pending⟩ := h s s' _ _ t t' pending run run'
  cases related with
  | some related => exact ⟨related, pending⟩

theorem ofOption {o : Option α} {o' : Option β} (h : Option.Rel R o o') :
    Aligned R (BoundM.ofOption o) (BoundM.ofOption o') := by
  intro s s' _ _ t t' pending run run'
  cases run
  cases run'
  exact ⟨h, pending⟩

theorem failure : Aligned R (failure : BoundM α) (failure : BoundM β) := ofOption .none

/-- An evaluation that leaves no trace is aligned with itself, as a search for bounds. -/
theorem bounds {x : EvalM α} (steady : Steady x.run) : Aligned Eq x.bounds x.bounds := by
  intro s s' o o' t t' pending run run'
  rw [EvalM.bounds_apply] at run run'
  obtain ⟨⟨r, u⟩, found, eq⟩ := Option.map_eq_some_iff.1 run
  obtain ⟨⟨r', u'⟩, found', eq'⟩ := Option.map_eq_some_iff.1 run'
  obtain ⟨rfl, rfl⟩ := Prod.mk.inj eq
  obtain ⟨rfl, rfl⟩ := Prod.mk.inj eq'
  obtain ⟨result, blind⟩ := steady.blind
  have same : (x s).map Prod.fst = (x s').map Prod.fst :=
    (blind s).trans ((congrArg result pending).trans (blind s').symm)
  rw [found, found'] at same
  obtain rfl : r = r' := Option.some.inj same
  have before := (steady.traceless s _ u found).pending
  have before' := (steady.traceless s' _ u' found').pending
  refine ⟨?_, before.trans (pending.trans before'.symm)⟩
  cases r with
  | error f => exact .none
  | ok a => exact .some rfl

theorem bind {f : α → BoundM α'} {g : β → BoundM β'} (h : Aligned R x y)
    (next : ∀ a b, R a b → Aligned S (f a) (g b)) : Aligned S (x >>= f) (y >>= g) := by
  intro s s' o o' t t' pending run run'
  rw [BoundM.bind_apply] at run run'
  obtain ⟨⟨r, u⟩, first, run⟩ := Option.bind_eq_some_iff.1 run
  obtain ⟨⟨r', u'⟩, first', run'⟩ := Option.bind_eq_some_iff.1 run'
  obtain ⟨related, pending⟩ := h s s' r r' u u' pending first first'
  cases related with
  | none =>
    cases run
    cases run'
    exact ⟨.none, pending⟩
  | some related => exact next _ _ related u u' o o' t t' pending run run'

end Aligned

namespace Paired

theorem ofOption {o : Option α} {o' : Option β} (h : ∀ a b, o = some a → o' = some b → R a b) :
    Paired R (BoundM.ofOption o) (BoundM.ofOption o') := by
  intro s s' a b t t' pending run run'
  obtain ⟨found, rfl⟩ := Prod.mk.inj (Option.some.inj run)
  obtain ⟨found', rfl⟩ := Prod.mk.inj (Option.some.inj run')
  exact ⟨h a b found found', pending⟩

theorem pure {a : α} {b : β} (h : R a b) :
    Paired R (Pure.pure a : BoundM α) (Pure.pure b : BoundM β) :=
  (Aligned.ofOption (.some h)).paired

theorem failure : Paired R (Alternative.failure : BoundM α) (Alternative.failure : BoundM β) :=
  Aligned.failure.paired

theorem bind {f : α → BoundM α'} {g : β → BoundM β'} (h : Paired R x y)
    (next : ∀ a b, R a b → Offers x a → Paired S (f a) (g b)) :
    Paired S (x >>= f) (y >>= g) := by
  intro s s' a b t t' pending run run'
  rw [BoundM.bind_apply] at run run'
  obtain ⟨⟨r, u⟩, first, run⟩ := Option.bind_eq_some_iff.1 run
  obtain ⟨⟨r', u'⟩, first', run'⟩ := Option.bind_eq_some_iff.1 run'
  cases r with
  | none => cases run
  | some c =>
    cases r' with
    | none => cases run'
    | some d =>
      obtain ⟨related, pending⟩ := h s s' c d u u' pending first first'
      exact next c d related ⟨s, u, first⟩ u u' a b t t' pending run run'

/-- Where the first ways are aligned, both searches take the first way or both the second. -/
theorem orElse {x' : BoundM α} {y' : BoundM β} (first : Aligned R x y) (second : Paired R x' y') :
    Paired R (x <|> x') (y <|> y') := by
  intro s s' a b t t' pending run run'
  rw [BoundM.orElse_apply] at run run'
  obtain ⟨⟨r, u⟩, found, run⟩ := Option.bind_eq_some_iff.1 run
  obtain ⟨⟨r', u'⟩, found', run'⟩ := Option.bind_eq_some_iff.1 run'
  obtain ⟨related, pending⟩ := first s s' r r' u u' pending found found'
  cases related with
  | none => exact second u u' a b t t' pending run run'
  | some related =>
    cases run
    cases run'
    exact ⟨related, pending⟩

theorem inScope (h : Paired R x y) : Paired R (BoundM.inScope x) (BoundM.inScope y) := by
  intro s s' a b t t' pending run run'
  rw [BoundM.inScope_apply] at run run'
  obtain ⟨⟨r, u⟩, found, eq⟩ := Option.map_eq_some_iff.1 run
  obtain ⟨⟨r', u'⟩, found', eq'⟩ := Option.map_eq_some_iff.1 run'
  obtain ⟨rfl, rfl⟩ := Prod.mk.inj eq
  obtain ⟨rfl, rfl⟩ := Prod.mk.inj eq'
  obtain ⟨related, after⟩ := h s.openScope s'.openScope a b u u' pending found found'
  refine ⟨related, ?_⟩
  simp only [EvalState.closeTo, pending, after]

theorem mapM {as : List α'} {f : α' → BoundM α} {g : α' → BoundM β}
    (h : ∀ a ∈ as, Paired R (f a) (g a)) : Paired (List.Forall₂ R) (as.mapM f) (as.mapM g) := by
  induction as with
  | nil => exact .pure .nil
  | cons a as ih =>
    obtain ⟨head, tail⟩ := List.forall_mem_cons.1 h
    rw [List.mapM_cons, List.mapM_cons]
    exact head.bind fun b c related _ ↦ (ih tail).bind fun bs cs rest _ ↦
      .pure (.cons related rest)

/-- The same visit begins alike. -/
theorem enter (ctx : Context) (v : VarKey) (span : Span) :
    Paired Eq (ctx.enter v span).bounds (ctx.enter v span).bounds := by
  intro s s' a b t t' pending run run'
  rw [EvalM.bounds_apply, Context.enter_apply] at run run'
  rw [← pending] at run'
  cases entered : s.pending.enterNested (ctx.visitTo v span) with
  | error f =>
    rw [entered] at run
    cases run
  | ok p =>
    rw [entered] at run run'
    cases run
    cases run'
    exact ⟨rfl, rfl⟩

end Paired

end Laws

end ConstraintEval
