import ConstraintEval.Proofs.AtPending
import ConstraintEval.Proofs.Bounds.Arithmetic
import ConstraintEval.Proofs.Limits

/-!
# Domains and bounds of variables

A solver asks for the domain of a variable and for its bounds. While the domain is worked out on its
own nothing is pending, and while bounds are looked for the variable itself is; if its domain has no
value then, the bounds of its definition stand in. So both answers agree where the domain has a
value with the variable pending as well, as this is then the same value: what is pending only
refuses visits, except where bounds are looked for on the way.
-/

namespace ConstraintEval

open Pending

variable {α : Type} {ctx : Context} {p q o : Pending}

/-! ### Bounds of variables -/

/-- The hull of a set is found where the set has a value and members. -/
theorem Evaluator.boundsOfSet_apply (ev : Evaluator) (d : ExprKey) (s : EvalState) :
    ev.boundsOfSet d s =
      (ev.setOf d s).map fun r ↦ (r.1.toOption.bind IntegerSet.hull?, r.2) := by
  unfold Evaluator.boundsOfSet
  rw [BoundM.bind_apply, EvalM.bounds_apply]
  cases ev.setOf d s with
  | none => rfl
  | some r =>
    obtain ⟨r, t⟩ := r
    cases r <;> rfl

/-- Bounds of a variable are the hull of its domain or else bounds of its definition, in either case
while the variable is pending. -/
theorem Evaluator.cases_of_boundsOfVariable {ev : Evaluator}
    (steady : ∀ d, Steady (ev.setOf d).run) {v : VarKey} {r : Interval}
    (h : FindsAt p (ev.boundsOfVariable v) r) :
    (∃ d set, (ev.model.variableAt v).domain = some d ∧ set.hull? = some r ∧
      GivesAt (p.add (ev.visitTo v (ev.model.variableAt v).span) true) (ev.setOf d) set) ∨
    (ev.model.variableAt v).definition ≠ none ∧
      ∀ d set, (ev.model.variableAt v).domain = some d →
        GivesAt (p.add (ev.visitTo v (ev.model.variableAt v).span) true) (ev.setOf d) set →
        set.hull? = none := by
  obtain ⟨s, u, pending, found⟩ := h
  unfold boundsOfVariable at found
  rw [BoundM.inScope_apply] at found
  obtain ⟨⟨o, t⟩, run, eq⟩ := Option.map_eq_some_iff.1 found
  obtain ⟨rfl, rfl⟩ := Prod.mk.inj eq
  unfold boundsOfEntered at run
  rw [BoundM.bind_apply, EvalM.bounds_apply, Context.enter_apply,
    show s.openScope.pending = p from pending] at run
  cases entered : p.enterNested (ev.visitTo v (ev.model.variableAt v).span) with
  | error f =>
    rw [entered] at run
    cases run
  | ok q =>
    obtain ⟨-, -, rfl⟩ := enter_eq_ok_iff.1 entered
    rw [entered] at run
    simp only [Option.map_some, Option.bind_some, Except.toOption, BoundM.orElse_apply] at run
    -- the search goes on in a state in which the variable is pending
    generalize hs : EvalState.mk (p.add _ true) _ _ = s' at run
    have pending' : s'.pending = p.add (ev.visitTo v (ev.model.variableAt v).span) true := by
      rw [← hs]
    obtain ⟨⟨first, w⟩, domain, next⟩ := Option.bind_eq_some_iff.1 run
    -- what the domain gives if it has a value
    have value {d : ExprKey} (declared : (ev.model.variableAt v).domain = some d) :
        (ev.setOf d s').map (fun r ↦ (r.1.toOption.bind IntegerSet.hull?, r.2)) =
          some (first, w) := by
      rw [← boundsOfSet_apply, ← domain, declared]
      rfl
    cases first with
    | some r' =>
      cases next
      left
      cases declared : (ev.model.variableAt v).domain with
      | none =>
        rw [declared] at domain
        cases domain
      | some d =>
        obtain ⟨⟨outcome, w'⟩, run', eq⟩ := Option.map_eq_some_iff.1 (value declared)
        obtain ⟨set, ok, hull⟩ := Option.bind_eq_some_iff.1 (Prod.mk.inj eq).1
        cases outcome with
        | error f => cases ok
        | ok set' =>
          cases ok
          exact ⟨d, set, rfl, hull, s', w', pending', run'⟩
    | none =>
      right
      constructor
      · intro undefined
        rw [undefined] at next
        cases next
      · intro d set declared gives
        obtain ⟨w', -, run'⟩ := gives.run (steady d) pending'
        have eq := value declared
        rw [run'] at eq
        exact congrArg Prod.fst (Option.some.inj eq)

/-! ### A variable that is pending in the first run alone -/

/-- Two lots of pending declarations are the same but for one variable, which is pending in the
first of them alone and counts against the limit there. -/
structure Pending.Released (x : VarKey) (p q : Pending) : Prop where
  limit : q.limit = p.limit
  holds : ∀ u, p.holds u = true ↔ u = x ∨ q.holds u = true
  fresh : q.holds x = false
  nesting : p.nesting = q.nesting + 1

namespace Pending

variable {x : VarKey} {v : Visit} {nested : Bool}

theorem released_add (fresh : p.holds v.key = false) : (p.add v true).Released v.key p where
  limit := rfl
  holds _ := holds_add
  fresh := fresh
  nesting := rfl

theorem Released.add (h : p.Released x q) (other : v.key ≠ x) :
    (p.add v nested).Released x (q.add v nested) where
  limit := h.limit
  holds u := by
    rw [holds_add, holds_add, h.holds]
    tauto
  fresh := by
    rw [← Bool.not_eq_true, holds_add, h.fresh]
    simpa using other.symm
  nesting := by
    have := h.nesting
    simp only [Pending.add]
    omega

/-- A variable that is fresh with more pending is another one and is fresh with less. -/
theorem Released.fresh_of_fresh (h : p.Released x q) {u : VarKey} (fresh : p.holds u = false) :
    u ≠ x ∧ q.holds u = false := by
  rw [← Bool.not_eq_true, h.holds, not_or, Bool.not_eq_true] at fresh
  exact fresh

theorem Released.nesting_lt (h : p.Released x q) {n : Nat} (within : p.nesting < n) :
    q.nesting < n := by
  have := h.nesting
  omega

/-- Where a limit has room for all that is declared, another variable can be visited while one is
pending: those visited before, the one that is pending and the one to visit are all distinct and
declared. -/
theorem Released.nesting_lt_of_roomy {m : Model} {n : Nat} {u : VarKey} (h : p.Released x q)
    (roomy : m.Roomy n) (counted : q.Counted m n) (declared : x.index < m.declared.size)
    (named : m.Names u) (other : u ≠ x) (fresh : q.holds u = false) : p.nesting < n := by
  obtain ⟨named', le⟩ := roomy
  have apart {w : VarKey} (h : q.holds w = false) : w ∉ q.visited := by
    rwa [Pending.holds, List.contains_eq_mem, decide_eq_false_iff_not] at h
  have distinct : (u :: x :: q.visited).Nodup :=
    List.nodup_cons.2 ⟨by simp [other, apart fresh],
      List.nodup_cons.2 ⟨apart h.fresh, counted.nodup⟩⟩
  have length := VarKey.length_le_of_nodup distinct (List.forall_mem_cons.2 ⟨named' _ named,
    List.forall_mem_cons.2 ⟨declared, fun w hw ↦ named' w (counted.named w hw)⟩⟩)
  have := counted.nesting
  have := h.nesting
  simp only [List.length_cons] at length
  omega

end Pending

/-- Runs in which a declared variable is pending are replayed where it is not. Both refuse the same
visits to all others, unless a limit on nesting may be reached. -/
def Replay.releasing (ctx : Context) (limit : Option Nat) (x : VarKey)
    (declared : x.index < ctx.model.declared.size) : Replay ctx where
  Rel p q := p.Released x q ∧ q.limit = limit ∧ ∀ n, limit = some n → q.Counted ctx.model n
  Agrees u := u ≠ x ∧ ∀ n, limit = some n → ctx.model.Roomy n
  enter {p q o v nested} named rel entered := by
    obtain ⟨released, limited, counted⟩ := rel
    obtain ⟨fresh, within, rfl⟩ := enter_eq_ok_iff.1 entered
    obtain ⟨other, fresh'⟩ := released.fresh_of_fresh fresh
    refine ⟨_, enter_eq_ok_iff.2 ⟨fresh', fun n limit counts ↦ ?_, rfl⟩, released.add other,
      limited, fun n limit ↦ (counted n limit).add fresh' named⟩
    exact released.nesting_lt (within n (released.limit.symm.trans limit) counts)
  refuse {p q v nested f} named agrees rel refused := by
    obtain ⟨released, limited, counted⟩ := rel
    cases entered : q.enter v nested with
    | error f' => exact ⟨f', rfl⟩
    | ok o =>
      obtain ⟨fresh, -, -⟩ := enter_eq_ok_iff.1 entered
      have fresh' : p.holds v.key = false := by
        rw [← Bool.not_eq_true, released.holds, not_or, Bool.not_eq_true]
        exact ⟨agrees.1, fresh⟩
      have room : ∀ n, p.limit = some n → nested = true → p.nesting < n := by
        intro n limit _
        rw [← released.limit, limited] at limit
        exact released.nesting_lt_of_roomy (agrees.2 n limit) (counted n limit) declared named
          agrees.1 fresh
      rw [enter_eq_ok_iff.2 ⟨fresh', room, rfl⟩] at refused
      cases refused

/-! ### Agreement -/

/-- What is declared has a place among the declarations. -/
theorem Model.index_lt_of_domain {m : Model} {v : VarKey} {d : ExprKey}
    (declared : (m.variableAt v).domain = some d) : v.index < m.declared.size := by
  by_contra outside
  rw [Model.variableAt_of_size_le (Nat.le_of_not_lt outside)] at declared
  cases declared

/-- The least and the greatest member of an interval that is not empty are its ends. -/
theorem IntegerSet.ends_of_range {lo hi : Integer} (inhabited : (range lo hi).isEmpty = false) :
    (range lo hi).min? = some lo ∧ (range lo hi).max? = some hi := by
  unfold range isEmpty min? max? runsBetween at *
  split
  · exact ⟨rfl, rfl⟩
  · simp_all

/-- A domain that has a value while the variable is pending has the same value on its own. -/
private theorem domain_of_pending {limit : Option Nat} {v : VarKey} {d : ExprKey}
    {set set' : IntegerSet} (declared : (ctx.model.variableAt v).domain = some d)
    (searches : ∀ y, ctx.Reaches d y → ctx.LooksForBounds y → ∀ z name u, ctx.Below y z →
      ctx.model.form z = .name name (some u) → u ≠ v ∧ ∀ n, limit = some n → ctx.model.Roomy n)
    (own : GivesAt (.empty limit) (ctx.evaluator.setOf d) set)
    (pending : GivesAt
      ((Pending.empty limit).add (ctx.visitTo v (ctx.model.variableAt v).span) true)
      (ctx.evaluator.setOf d) set') : set' = set := by
  obtain ⟨s, t, pending, run⟩ := pending.of_setOf
  have rel : (Replay.releasing ctx limit v (Model.index_lt_of_domain declared)).Rel s.pending
      (EvalState.fresh limit).pending := by
    rw [pending]
    refine ⟨released_add (v := ctx.visitTo v (ctx.model.variableAt v).span) rfl, rfl, ?_⟩
    exact fun n limit ↦ ⟨limit, List.nodup_nil, fun _ h ↦ (nomatch h), Nat.le_refl 0⟩
  obtain ⟨t', run'⟩ := Replay.eval_of_eval _
    (fun y reaches looks z name u below form ↦ searches y reaches looks z name u below form) rel run
  have same : Value.set set' = .set set :=
    GivesAt.unique ⟨_, t', rfl, run'⟩ own.of_setOf (steady_eval d)
  exact Value.set.inj same

/-- Where a variable has a domain that is not empty and bounds are found for it, the bounds are the
least and the greatest member of the domain, provided that a declared domain has a value while the
variable is pending too, or there is no definition to fall back on, and that no builtin that looks
for bounds comes to a name of the variable while the domain is worked out, nor to any other name if
a limit on nesting may be reached. -/
theorem domain_agrees_with_bounds (ctx : Context) (limit : Option Nat) (v : VarKey)
    (set : IntegerSet) (r : Interval)
    (shown : GivesAt (.empty limit) (ctx.evaluator.domainOfVariable v) set)
    (inhabited : set.isEmpty = false)
    (found : FindsAt (.empty limit) (ctx.evaluator.boundsOfVariable v) r)
    (known : ∀ d, (ctx.model.variableAt v).domain = some d →
      (ctx.model.variableAt v).definition = none ∨
        ∃ set', GivesAt ((Pending.empty limit).add
          (ctx.visitTo v (ctx.model.variableAt v).span) true) (ctx.evaluator.setOf d) set')
    (searches : ∀ d, (ctx.model.variableAt v).domain = some d → ∀ y, ctx.Reaches d y →
      ctx.LooksForBounds y → ∀ z name u, ctx.Below y z → ctx.model.form z = .name name (some u) →
        u ≠ v ∧ ∀ n, limit = some n → ctx.model.Roomy n) :
    set.min? = some r.lo ∧ set.max? = some r.hi := by
  unfold Evaluator.domainOfVariable at shown
  simp only at shown
  split at shown
  · next d declared =>
    have agree {set' : IntegerSet} :=
      @domain_of_pending _ _ _ _ _ set' declared (searches d declared) shown
    obtain ⟨d', set', declared', hull, gives⟩ | ⟨defined, none⟩ :=
      Evaluator.cases_of_boundsOfVariable steady_setOf found
    · cases declared.symm.trans declared'
      obtain rfl := agree gives
      exact IntegerSet.hull?_eq_some_iff.1 hull
    · obtain ⟨set', gives⟩ := (known d declared).resolve_left defined
      obtain rfl := agree gives
      obtain ⟨hull, some⟩ := IntegerSet.exists_hull? inhabited
      rw [none d set' declared gives] at some
      cases some
  · next declared =>
    obtain ⟨r', own, shown⟩ := shown.of_bind
      (Steady.orFail (steady_boundsOfVariable v) (.pure _))
    obtain rfl := shown.gives.of_pure
    obtain rfl := own.of_orFail.unique found (steady_boundsOfVariable v)
    exact IntegerSet.ends_of_range inhabited

/-! ### A domain that depends on another variable -/

/-- The model of a variable with the value 5 and the domain from 1 to another variable. -/
def domainUpToName : Model :=
  let build : Build Unit := do
    Library.declareAll
    let ten ← Build.int (.ofByte 10)
    let n ← Build.addVariable
      { name := "n", span := .nowhere, ty := .int .par, domain := none, indexSets := [],
        definition := some ten }
    let domain ← Build.between (← Build.int .one) (← Build.name n)
    let five ← Build.int (.ofByte 5)
    let _ ← Build.addVariable
      { name := "v", span := .nowhere, ty := .int .var, domain := some domain, indexSets := [],
        definition := some five }
  (build.run .empty).2

/-- The model with the standard library. -/
def upToNameContext : Context where
  model := domainUpToName
  registry := ((Registry.ofLibrary domainUpToName).toOption).getD .empty

/-- If only one declaration may nest, then the other variable cannot be visited while bounds are
looked for, and the bounds of the definition stand in for those of the domain. -/
theorem domain_differs_from_bounds :
    let ten : Integer := .ofByte 10
    let five : Integer := .ofByte 5
    Registry.ofLibrary upToNameContext.model = .ok upToNameContext.registry ∧
    upToNameContext.evaluator.domainOfVariable ⟨1⟩ (.fresh (some 1)) =
      some (.ok (.range .one ten), .fresh (some 1)) ∧
    upToNameContext.evaluator.boundsOfVariable ⟨1⟩ (.fresh (some 1)) =
      some (some (.point five), .fresh (some 1)) ∧
    (IntegerSet.range .one ten).isEmpty = false ∧
    (IntegerSet.range .one ten).min? ≠ some five := by
  decide +kernel

/-- If two declarations may nest, then the domain has a value while its variable is pending, and
its ends are the bounds. -/
theorem domain_agrees_up_to_ten :
    let ten : Integer := .ofByte 10
    let pending := (Pending.empty (some 2)).add
      (upToNameContext.visitTo ⟨1⟩ (upToNameContext.model.variableAt ⟨1⟩).span) true
    (upToNameContext.model.variableAt ⟨1⟩).domain = some ⟨3⟩ ∧
    GivesAt (.empty (some 2)) (upToNameContext.evaluator.domainOfVariable ⟨1⟩)
      (.range .one ten) ∧
    FindsAt (.empty (some 2)) (upToNameContext.evaluator.boundsOfVariable ⟨1⟩) ⟨.one, ten⟩ ∧
    GivesAt pending (upToNameContext.evaluator.setOf ⟨3⟩) (.range .one ten) ∧
    (∀ y, ¬upToNameContext.LooksForBounds y) ∧
    (IntegerSet.range .one ten).min? = some .one ∧
    (IntegerSet.range .one ten).max? = some ten := by
  intro ten pending
  have declared : (upToNameContext.model.variableAt ⟨1⟩).domain = some ⟨3⟩ := by decide +kernel
  have shown : GivesAt (.empty (some 2)) (upToNameContext.evaluator.domainOfVariable ⟨1⟩)
      (.range .one ten) :=
    ⟨.fresh (some 2), .fresh (some 2), rfl, by decide +kernel⟩
  have found : FindsAt (.empty (some 2)) (upToNameContext.evaluator.boundsOfVariable ⟨1⟩)
      ⟨.one, ten⟩ :=
    ⟨.fresh (some 2), .fresh (some 2), rfl, by decide +kernel⟩
  have known : GivesAt pending (upToNameContext.evaluator.setOf ⟨3⟩) (.range .one ten) := by
    refine ⟨⟨pending, [], 0⟩, ⟨pending, [], 0⟩, rfl, ?_⟩
    decide +kernel
  have searches : ∀ y, ¬upToNameContext.LooksForBounds y := by
    rintro y ⟨name, f, args, b, form, -⟩
    exact upToNameContext.model.form_ne_call (by decide +kernel) y name f args form
  refine ⟨declared, shown, found, known, searches, ?_⟩
  refine domain_agrees_with_bounds upToNameContext (some 2) ⟨1⟩ (.range .one ten) ⟨.one, ten⟩ shown
    (by decide +kernel) found ?_ fun d _ y _ looks ↦ (searches y looks).elim
  intro d declared'
  cases declared.symm.trans declared'
  exact .inr ⟨_, known⟩

end ConstraintEval
