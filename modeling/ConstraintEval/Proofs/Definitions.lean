import ConstraintEval.Proofs.Evaluation.Termination
import ConstraintEval.Proofs.Logic.Replay

/-!
# A name means its definition

While the definition of a variable is worked out for a name of the variable, the variable is
pending, and on its own the definition is worked out without that. This changes no value, unless a
search for bounds comes back to the variable: then the search goes on after a refusal that it would
not meet otherwise.
-/

namespace ConstraintEval

open Pending

/-- Two lots of pending declarations, both without a limit, are the same but for one variable,
which may be pending in the first of them alone. -/
structure Pending.Sparing (x : VarKey) (p q : Pending) : Prop extends p.Relaxed q where
  unlimited' : p.limit = none
  only : ∀ u, u ≠ x → p.holds u = true → q.holds u = true

namespace Pending

variable {x : VarKey} {p q o : Pending} {v : Visit} {nested nested' : Bool}

theorem Sparing.add (h : p.Sparing x q) : (p.add v nested).Sparing x (q.add v nested') where
  toRelaxed := h.toRelaxed.add
  unlimited' := h.unlimited'
  only u ne held := holds_add.2 ((holds_add.1 held).imp_right (h.only u ne))

theorem Sparing.enter (h : p.Sparing x q) (entered : p.enter v nested = .ok o) :
    ∃ o', q.enter v nested' = .ok o' ∧ o.Sparing x o' := by
  obtain ⟨-, -, rfl⟩ := enter_eq_ok_iff.1 entered
  exact ⟨_, h.toRelaxed.enter_eq_ok entered, h.add⟩

end Pending

/-- Runs in which one variable is pending are replayed where it is not. Both refuse the same
visits to all others. -/
def Replay.sparing (ctx : Context) (x : VarKey) : Replay ctx where
  Rel p q := p.Sparing x q
  Agrees u := u ≠ x
  enter _ rel entered := rel.enter entered
  refuse {p q v nested f} _ ne rel refused := by
    cases entered : q.enter v nested with
    | error f' => exact ⟨f', rfl⟩
    | ok o =>
      obtain ⟨fresh, -, -⟩ := enter_eq_ok_iff.1 entered
      have fresh' : p.holds v.key = false := by
        rw [← Bool.not_eq_true] at fresh ⊢
        exact fun held ↦ fresh (rel.only _ ne held)
      rw [enter_of_fresh rel.unlimited' fresh'] at refused
      cases refused

/-- An expression has a value in a state exactly if the chain of names that starts at it comes to
an end that has this value. -/
theorem Context.eval_eq_ok_iff {ctx : Context} {e : ExprKey} {v : Value} {s : EvalState} :
    (∃ t, ctx.evaluator.eval e s = some (.ok v, t)) ↔
      ∃ c p t, ctx.followChain true (ctx.model.declared.size + 1) s.pending e = (.ok c, p) ∧
        ctx.evaluator.valueOfEnd c { s.openScope with pending := p } = some (.ok v, t) := by
  let keep (v : Value) : EvalM Value := do
    modify (EvalState.keep v)
    return v
  have step : ctx.evaluator.eval e s = (EvalM.inScope
      (ctx.locating e (ctx.chainEnd e >>= ctx.evaluator.valueOfEnd)) >>= keep) s := by
    rw [Context.eval_evaluator]
    rfl
  rw [step, EvalM.bind_apply, Context.chain_apply]
  constructor
  · rintro ⟨t, h⟩
    cases follow : ctx.followChain true (ctx.model.declared.size + 1) s.pending e with
    | mk end? p =>
      rw [follow] at h
      cases end? with
      | error f => cases h
      | ok c =>
        obtain ⟨⟨r, u⟩, run, h⟩ := Option.bind_eq_some_iff.1 h
        obtain ⟨⟨r', w⟩, value, eq⟩ := Option.map_eq_some_iff.1 run
        cases eq
        cases r' with
        | error f => cases h
        | ok v' =>
          cases h
          exact ⟨c, p, w, rfl, value⟩
  · rintro ⟨c, p, t, follow, value⟩
    rw [follow]
    simp only [value]
    exact ⟨_, rfl⟩

/-- Where a name of a variable has a value, the variable's definition has the same value on its
own, unless a builtin that looks for bounds can come to a name of the variable on the way. -/
theorem eval_definition_of_eval_name (ctx : Context) (e definition : ExprKey) (name : String)
    (x : VarKey) (v : Value) (form : ctx.model.form e = .name name (some x))
    (defined : (ctx.model.variableAt x).definition = some definition)
    (searches : ∀ y, ctx.Reaches e y → ctx.LooksForBounds y → ∀ z name', ctx.Below y z →
      ctx.model.form z ≠ .name name' (some x))
    (found : ∃ t, ctx.evaluator.eval e (.fresh none) = some (.ok v, t)) :
    ∃ t, ctx.evaluator.eval definition (.fresh none) = some (.ok v, t) := by
  obtain ⟨c, p, t, follow, value⟩ := Context.eval_eq_ok_iff.1 found
  -- The chain visits the variable first and goes on at the definition.
  unfold Context.followChain at follow
  simp only [form, defined] at follow
  split at follow
  · cases follow
  · next entered enter =>
    obtain ⟨-, -, rfl⟩ := enter_eq_ok_iff.1 enter
    have sparing : ((Pending.empty none).add (ctx.visitTo x (ctx.model.span e)) true).Sparing x
        (.empty none) := by
      refine ⟨⟨rfl, (fun u held ↦ nomatch held)⟩, rfl, fun u ne held ↦ ?_⟩
      rcases holds_add.1 held with rfl | held
      · exact (ne rfl).elim
      · exact nomatch held
    have agrees : (Replay.sparing ctx x).AgreesOnSearches e := by
      intro y reaches looks z name' u below form' eq
      exact searches y reaches looks z name' below (eq ▸ form')
    obtain ⟨q, follow', rel⟩ := Replay.followChain_ok (R := Replay.sparing ctx x) sparing
      (Nat.le_succ ctx.model.declared.size) (fun _ entered ↦ sparing.enter entered) follow
    have leads := Leads.definition form defined (leads_of_followChain follow)
    obtain ⟨r, t', value', eq⟩ := Replay.replays_valueOfEnd _ agrees leads _
      { (EvalState.fresh none).openScope with pending := q } _ t rel value (fun h ↦ nomatch h)
    cases r with
    | error f => cases eq
    | ok w =>
      cases eq
      exact Context.eval_eq_ok_iff.2 ⟨c, q, t', follow', value'⟩

/-! ### Definitions that look for bounds -/

/-- The model of a variable that asks whether another one has bounds, which is defined by a choice
on the first one. -/
def boundsOfChoice : Model :=
  let build : Build Unit := do
    Library.declareAll
    let x ← Build.addVariable
      { name := "x", span := .nowhere, ty := .bool .par, domain := none, indexSets := [],
        definition := none }
    let y ← Build.addVariable
      { name := "y", span := .nowhere, ty := .int .par, domain := none, indexSets := [],
        definition := none }
    let cond ← Build.name x
    let one ← Build.int .one
    let undefined ← Build.binary (.arith .div) one (← Build.int .zero)
    Build.define y (← Build.choice cond undefined one)
    Build.define x (← Build.call "has_bounds" [← Build.name y])
  (build.run .empty).2

/-- The model with the standard library. -/
def choiceContext : Context where
  model := boundsOfChoice
  registry := ((Registry.ofLibrary boundsOfChoice).toOption).getD .empty

/-- The name of the variable stands for false: the search for bounds comes back to the variable
and finds none. Its definition is true on its own: then the condition of the choice is false, and
the other variable is known. -/
theorem name_differs_from_definition :
    Registry.ofLibrary choiceContext.model = .ok choiceContext.registry ∧
    choiceContext.model.form ⟨0⟩ = .name "x" (some ⟨0⟩) ∧
    (choiceContext.model.variableAt ⟨0⟩).definition = some ⟨6⟩ ∧
    choiceContext.evaluator.eval ⟨0⟩ (.fresh none) = some (.ok (.bool false), .fresh none) ∧
    choiceContext.evaluator.eval ⟨6⟩ (.fresh none) = some (.ok (.bool true), .fresh none) := by
  decide +kernel

/-- The model of a variable that is defined as the least value that another one can have. -/
def leastOfDomain : Model :=
  let build : Build Unit := do
    let lb ← Build.addOverload { name := "lb", params := [.int .var], result := .int .par }
    let domain ← Build.literalRange .zero .one
    let y ← Build.addVariable
      { name := "y", span := .nowhere, ty := .int .var, domain := some domain, indexSets := [],
        definition := none }
    let least ← Build.node (.call "lb" (some lb) [← Build.name y]) .nowhere (.int .par)
    let x ← Build.addVariable
      { name := "x", span := .nowhere, ty := .int .par, domain := none, indexSets := [],
        definition := some least }
    let _ ← Build.name x
  (build.run .empty).2

/-- The model with its only builtin. -/
def leastContext : Context := ⟨leastOfDomain, ⟨[(⟨0⟩, .bound .low)]⟩⟩

/-- The definition looks for bounds and does not come back to the variable, so it has the value
that the name has. -/
theorem definition_of_least :
    leastContext.model.form ⟨5⟩ = .name "x" (some ⟨1⟩) ∧
    (leastContext.model.variableAt ⟨1⟩).definition = some ⟨4⟩ ∧
    (∀ y, leastContext.Reaches ⟨5⟩ y → leastContext.LooksForBounds y → ∀ z name,
      leastContext.Below y z → leastContext.model.form z ≠ .name name (some ⟨1⟩)) ∧
    leastContext.evaluator.eval ⟨5⟩ (.fresh none) = some (.ok (.int .zero), .fresh none) ∧
    ∃ t, leastContext.evaluator.eval ⟨4⟩ (.fresh none) = some (.ok (.int .zero), t) := by
  have form : leastContext.model.form ⟨5⟩ = .name "x" (some ⟨1⟩) := by decide +kernel
  have defined : (leastContext.model.variableAt ⟨1⟩).definition = some ⟨4⟩ := by decide +kernel
  let region : List ExprKey := [⟨0⟩, ⟨1⟩, ⟨2⟩, ⟨3⟩, ⟨4⟩]
  have start : ∀ y ∈ leastContext.mentioned ⟨5⟩, y ∈ region := by decide +kernel
  have inside : ∀ e ∈ region, ∀ y ∈ leastContext.mentioned e, y ∈ region := by decide +kernel
  have unnamed : ∀ e ∈ region, (leastContext.model.form e).resolved? ≠ some ⟨1⟩ := by
    decide +kernel
  have closed : leastContext.Closed (· ∈ region) := fun e x he hx ↦ inside e he x hx
  have searches : ∀ y, leastContext.Reaches ⟨5⟩ y → leastContext.LooksForBounds y → ∀ z name,
      leastContext.Below y z → leastContext.model.form z ≠ .name name (some ⟨1⟩) := by
    rintro y reaches ⟨_, _, _, _, call, -⟩ z name below form'
    have hz : z ∈ region := by
      rcases reaches.cases_head with rfl | ⟨w, mentioned, reaches⟩
      · rw [form] at call
        cases call
      · exact closed.reaches (closed.reaches (start w mentioned) reaches) below.to_reflTransGen
    exact unnamed z hz (by rw [form', Form.resolved?])
  have found : leastContext.evaluator.eval ⟨5⟩ (.fresh none) =
      some (.ok (.int .zero), .fresh none) := by
    decide +kernel
  exact ⟨form, defined, searches, found, eval_definition_of_eval_name leastContext ⟨5⟩ ⟨4⟩ "x" ⟨1⟩
    (.int .zero) form defined searches ⟨_, found⟩⟩

end ConstraintEval
