import ConstraintEval.Proofs.Semantics.Chains
import ConstraintEval.Proofs.VariableDomains

/-!
# Chains of aliases

The domain of a variable at the end of a chain of names is found by following the chain, of which
only the first variable counts against the limit on nesting. Bounds are looked for along the chain
one variable within another, so each of them counts. Either way the domain of the last variable is
evaluated while all variables of the chain are pending, so bounds are the ends of the domain where
the limit is higher by the number of the other variables, and with a limit that is less than the
number of all variables there are none.
-/

namespace ConstraintEval

open Pending

variable {ctx : Context} {p q o : Pending} {i j : Nat}

/-! ### The same room for nesting -/

/-- Two lots of pending declarations are of the same variables and leave the same room for nesting:
with some more nesting under a limit that is higher by as much on either side, both are the same. -/
structure Pending.Levels (i j : Nat) (p q : Pending) : Prop where
  holds : ∀ u, p.holds u = q.holds u
  nesting : p.nesting + i = q.nesting + j
  limit : p.limit.map (· + i) = q.limit.map (· + j)

namespace Pending.Levels

theorem symm (h : p.Levels i j q) : q.Levels j i p :=
  ⟨fun u ↦ (h.holds u).symm, h.nesting.symm, h.limit.symm⟩

theorem add {v : Visit} {nested : Bool} (h : p.Levels i j q) :
    (p.add v nested).Levels i j (q.add v nested) where
  holds u := by
    rw [Bool.eq_iff_iff, holds_add, holds_add, h.holds]
  nesting := by
    have := h.nesting
    simp only [Pending.add]
    omega
  limit := h.limit

theorem nesting_lt (h : p.Levels i j q) (room : ∀ n, p.limit = some n → p.nesting < n) :
    ∀ n, q.limit = some n → q.nesting < n := by
  intro n limit
  have same := h.limit
  rw [limit, Option.map_some, Option.map_eq_some_iff] at same
  obtain ⟨n', limit', same⟩ := same
  have := room n' limit'
  have := h.nesting
  omega

theorem enter {v : Visit} {nested : Bool} (h : p.Levels i j q) (entered : p.enter v nested = .ok o) :
    ∃ o', q.enter v nested = .ok o' ∧ o.Levels i j o' := by
  obtain ⟨fresh, room, rfl⟩ := enter_eq_ok_iff.1 entered
  refine ⟨_, enter_eq_ok_iff.2 ⟨(h.holds _).symm.trans fresh, fun n limit nests ↦ ?_, rfl⟩, h.add⟩
  exact h.nesting_lt (fun n limit ↦ room n limit nests) n limit

end Pending.Levels

/-- Runs with the same room for nesting begin the same visits. -/
def Replay.levelling (ctx : Context) (i j : Nat) : Replay ctx where
  Rel := Pending.Levels i j
  Agrees _ := True
  enter _ h entered := h.enter entered
  refuse {p q v nested f} _ _ h refused := by
    cases entered : q.enter v nested with
    | error f' => exact ⟨f', rfl⟩
    | ok o =>
      obtain ⟨o', entered', -⟩ := h.symm.enter entered
      rw [refused] at entered'
      cases entered'

/-- A set has the same value wherever there is the same room for nesting. -/
theorem GivesAt.setOf_levels {d : ExprKey} {set : IntegerSet} (h : p.Levels i j q)
    (gives : GivesAt p (ctx.evaluator.setOf d) set) : GivesAt q (ctx.evaluator.setOf d) set := by
  obtain ⟨s, t, rfl, run⟩ := gives.of_setOf
  have rel : (Replay.levelling ctx i j).Rel s.pending (EvalState.mk q [] 0).pending := h
  have agrees : (Replay.levelling ctx i j).AgreesOnSearches d := fun _ _ _ _ _ _ _ _ ↦ trivial
  obtain ⟨t', run'⟩ := (Replay.levelling ctx i j).eval_of_eval agrees rel run
  exact .setOf ⟨_, t', rfl, run'⟩

/-! ### Visits along a chain -/

/-- Some variables become pending as well, and `count` of the visits count against the limit. -/
structure Pending.Joins (us : List VarKey) (count : Nat) (p q : Pending) : Prop where
  holds : ∀ u, q.holds u = true ↔ u ∈ us ∨ p.holds u = true
  nesting : q.nesting = p.nesting + count
  limit : q.limit = p.limit

variable {us : List VarKey} {m n : Nat}

theorem Pending.Joins.refl (p : Pending) : p.Joins [] 0 p := ⟨by simp, rfl, rfl⟩

/-- Any variables may join, as far as what can be told from it goes. -/
theorem Pending.exists_joins (p : Pending) (us : List VarKey) (n : Nat) : ∃ q, p.Joins us n q :=
  ⟨⟨p.visits, us ++ p.visited, p.nesting + n, p.limit⟩, fun u ↦ by simp [Pending.holds], rfl, rfl⟩

theorem Pending.joins_cons_iff {v : Visit} {nested : Bool} :
    p.Joins (v.key :: us) (nested.toNat + n) q ↔ (p.add v nested).Joins us n q := by
  have holds (u : VarKey) : u ∈ v.key :: us ∨ p.holds u = true ↔
      u ∈ us ∨ (p.add v nested).holds u = true := by
    rw [holds_add, List.mem_cons]
    tauto
  have nesting : p.nesting + (nested.toNat + n) = (p.add v nested).nesting + n :=
    (Nat.add_assoc ..).symm
  constructor
  · exact fun h ↦ ⟨fun u ↦ (h.holds u).trans (holds u), h.nesting.trans nesting, h.limit⟩
  · exact fun h ↦ ⟨fun u ↦ (h.holds u).trans (holds u).symm, h.nesting.trans nesting.symm, h.limit⟩

theorem Pending.joins_add (p : Pending) (v : Visit) (nested : Bool) :
    p.Joins [v.key] nested.toNat (p.add v nested) :=
  joins_cons_iff.2 (.refl _)

/-- Where the same variables have joined, the same room is left for nesting if the limits differ by
as much as the numbers of visits that count. -/
theorem Pending.Joins.levels {p' q' : Pending} (h : p.Joins us m q) (h' : p'.Joins us n q')
    (holds : ∀ u, p.holds u = p'.holds u) (nesting : p.nesting + m + i = p'.nesting + n + j)
    (limit : p.limit.map (· + i) = p'.limit.map (· + j)) : q.Levels i j q' where
  holds u := by
    rw [Bool.eq_iff_iff, h.holds, h'.holds, holds]
  nesting := by
    rw [h.nesting, h'.nesting, nesting]
  limit := by
    rw [h.limit, h'.limit, limit]

section Chains

variable {e d : ExprKey} {v : VarKey} {c : ChainEnd} {steps : Nat}

/-- A chain that ends at a variable ends there because it has no definition. -/
private theorem Leads.undefined_of_end (h : Leads ctx e (.undefined v)) :
    (ctx.model.variableAt v).definition = none := by
  generalize last : ChainEnd.undefined v = c at h
  induction h with
  | expression => cases last
  | undefined _ undefined =>
    cases last
    exact undefined
  | definition _ _ _ ih => exact ih last

/-- A variable of a chain that has a definition is not the one at its end. -/
private theorem ne_of_defined {u : VarKey} (h : Leads ctx e (.undefined v))
    (defined : (ctx.model.variableAt u).definition = some d) : u ≠ v := by
  rintro rfl
  rw [h.undefined_of_end] at defined
  cases defined

/-- The first of some distinct variables leaves the others fresh. -/
private theorem fresh_add {x : Visit} {nested : Bool} (nodup : (x.key :: us).Nodup)
    (fresh : ∀ u ∈ x.key :: us, p.holds u = false) : ∀ u ∈ us, (p.add x nested).holds u = false := by
  intro u mem
  rw [← Bool.not_eq_true, holds_add]
  rintro (rfl | held)
  · exact (List.nodup_cons.1 nodup).1 mem
  · rw [fresh u (List.mem_cons_of_mem _ mem)] at held
    cases held

/-- Following a chain of names begins with a visit to the variable of the first one. -/
private theorem followChain_of_enter {nested : Bool} {name : String}
    (form : ctx.model.form e = .name name (some v))
    (entered : p.enter (ctx.visitTo v (ctx.model.span e)) nested = .ok q) :
    ctx.followChain nested (steps + 1) p e =
      match (ctx.model.variableAt v).definition with
      | none => (.ok (.undefined v), q)
      | some d => ctx.followChain false steps q d := by
  rw [Context.followChain]
  cases definition : (ctx.model.variableAt v).definition <;> simp only [form, entered, definition]

/-- A chain comes to a variable without a definition, if none of its variables is pending and there
is room for the first one if it counts. -/
private theorem exists_followChain (nested : Bool) (h : Passes ctx e us (.undefined v))
    (length : us.length ≤ steps) (fresh : ∀ u ∈ us, p.holds u = false)
    (room : ∀ n, p.limit = some n → nested = true → p.nesting < n) :
    ∃ q, ctx.followChain nested steps p e = (.ok (.undefined v), q) ∧
      p.Joins us nested.toNat q := by
  generalize last : ChainEnd.undefined v = c at h
  induction h generalizing nested steps p with
  | expression => cases last
  | @undefined e name u form undefined =>
    obtain ⟨steps, rfl⟩ : ∃ n, steps = n + 1 := ⟨steps - 1, by simp at length; omega⟩
    let x := ctx.visitTo u (ctx.model.span e)
    have entered : p.enter x nested = .ok (p.add x nested) :=
      enter_eq_ok_iff.2 ⟨fresh u (by simp), room, rfl⟩
    refine ⟨p.add x nested, ?_, p.joins_add x nested⟩
    rw [followChain_of_enter form entered, undefined]
  | @definition e d name u us c form defined next ih =>
    obtain ⟨steps, rfl⟩ : ∃ n, steps = n + 1 := ⟨steps - 1, by simp at length; omega⟩
    let x := ctx.visitTo u (ctx.model.span e)
    have entered : p.enter x nested = .ok (p.add x nested) :=
      enter_eq_ok_iff.2 ⟨fresh u (by simp), room, rfl⟩
    have nodup : (x.key :: us).Nodup := (Passes.definition form defined next).nodup
    obtain ⟨q, follow, joins⟩ :=
      ih false (Nat.le_of_succ_le_succ length) (fresh_add nodup fresh) nofun last
    refine ⟨q, ?_, (joins_cons_iff (v := x)).2 joins⟩
    rw [followChain_of_enter form entered, defined]
    exact follow

/-- A chain that comes to its end began with a visit for which there was room. -/
private theorem room_of_followChain (h : Passes ctx e us (.undefined v))
    (follow : ctx.followChain true steps p e = (.ok c, q)) :
    ∀ n, p.limit = some n → p.nesting < n := by
  intro n limit
  have named : ∃ name u, ctx.model.form e = .name name (some u) := by
    cases h with
    | undefined form _ => exact ⟨_, _, form⟩
    | definition form _ _ => exact ⟨_, _, form⟩
  obtain ⟨name, u, form⟩ := named
  unfold Context.followChain at follow
  simp only [form] at follow
  split at follow
  · cases follow
  · split at follow
    · cases follow
    · next entered => exact (enter_eq_ok_iff.1 entered).2.1 n limit rfl

theorem steady_domainOfDeclared (v : VarKey) (operation : String) :
    Steady (ctx.evaluator.domainOfDeclared v operation).run := by
  unfold Evaluator.domainOfDeclared
  simp only
  split
  · exact steady_setOf _
  · exact .throw _

/-- The domain of a name is that of the variable at the end of the chain, which is evaluated while
all variables of the chain are pending and the first one counts against the limit. -/
theorem givesAt_domainOf_iff (h : Passes ctx e us (.undefined v))
    (fresh : ∀ u ∈ us, p.holds u = false) {set : IntegerSet} :
    GivesAt p (ctx.evaluator.domainOf e) set ↔
      (∀ n, p.limit = some n → p.nesting < n) ∧ ∃ d q, (ctx.model.variableAt v).domain = some d ∧
        p.Joins us 1 q ∧ GivesAt q (ctx.evaluator.setOf d) set := by
  unfold Evaluator.domainOf
  constructor
  · intro gives
    obtain ⟨c, q, follow, atEnd⟩ := gives.of_chain
    have room := room_of_followChain h follow
    obtain ⟨q', follow', joins⟩ :=
      exists_followChain true h h.length_le fresh fun n limit _ ↦ room n limit
    cases follow.symm.trans follow'
    refine ⟨room, ?_⟩
    unfold Evaluator.domainOfDeclared at atEnd
    simp only at atEnd
    split at atEnd
    · next d declared => exact ⟨d, q, declared, joins, atEnd⟩
    · exact atEnd.gives.not_throw.elim
  · rintro ⟨room, d, q, declared, joins, gives⟩
    obtain ⟨q', follow, joins'⟩ :=
      exists_followChain true h h.length_le fresh fun n limit _ ↦ room n limit
    have levels : q.Levels 0 0 q' := joins.levels joins' (fun _ ↦ rfl) rfl rfl
    refine GivesAt.chain follow ?_ (steady_domainOfDeclared v "dom")
    have declared' : (ctx.evaluator.model.variableAt v).domain = some d := declared
    simp only [Evaluator.domainOfDeclared, declared']
    exact gives.setOf_levels levels

/-! ### Bounds along a chain -/

/-- A name of a variable without a value has none. -/
private theorem exists_error (h : Leads ctx e (.undefined v)) (s : EvalState) :
    ∃ f t, ctx.evaluator.eval e s = some (.error f, t) := by
  rw [Context.eval_evaluator]
  change ∃ f t, (EvalM.inScope (ctx.locating e (ctx.chainEnd e >>= ctx.evaluator.valueOfEnd)) >>= _)
    s = some (.error f, t)
  rw [EvalM.bind_apply, Context.chain_apply]
  cases follow : ctx.followChain true (ctx.model.declared.size + 1) s.pending e with
  | mk end? q =>
    cases end? with
    | error f => exact ⟨_, _, rfl⟩
    | ok c =>
      obtain rfl := h.unique (leads_of_followChain follow)
      exact ⟨_, _, rfl⟩

/-- So its bounds are not known from its value. -/
private theorem exists_boundsOfKnown (h : Leads ctx e (.undefined v)) (s : EvalState) :
    ∃ t, ctx.evaluator.boundsOfKnown e s = some (none, t) ∧ t.pending = s.pending := by
  unfold Evaluator.boundsOfKnown
  split
  · obtain ⟨f, t, run⟩ := exists_error h s
    refine ⟨t, ?_, ((steady_eval e).traceless s _ t run).pending⟩
    rw [BoundM.bind_apply, EvalM.bounds_apply]
    unfold Evaluator.intOf
    rw [EvalM.bind_apply, run]
    rfl
  · exact ⟨s, rfl, rfl⟩

/-- Where a variable lies once it is pending: in its domain, or within the bounds of its
definition. -/
private def boundsOfDeclared (ctx : Context) (v : VarKey) : BoundM Interval :=
  ctx.evaluator.boundsOfDomain (ctx.model.variableAt v).domain <|>
    match (ctx.model.variableAt v).definition with
    | some definition => ctx.evaluator.bounds definition
    | none => failure

section

variable {name : String} {u : VarKey} {s : EvalState} (h : Leads ctx e (.undefined v))
  (form : ctx.model.form e = .name name (some u))

include h form

private theorem bounds_eq :
    ∃ t, t.pending = s.pending ∧ ctx.evaluator.bounds e s =
      match s.pending.enterNested (ctx.visitTo u (ctx.model.span e)) with
      | .ok q => (boundsOfDeclared ctx u { t with pending := q }).map fun r ↦ (r.1, s.closeTo r.2)
      | .error _ => some (none, s.closeTo t) := by
  obtain ⟨t, known, pending⟩ := exists_boundsOfKnown h s.openScope
  have step : ctx.evaluator.bounds e = BoundM.inScope (ctx.evaluator.boundsOfKnown e <|>
      ((ctx.enter u (ctx.model.span e)).bounds >>= fun _ ↦ boundsOfDeclared ctx u)) := by
    rw [Context.bounds_evaluator]
    unfold Evaluator.boundsStep Evaluator.boundsByForm
    have form' : ctx.evaluator.model.form e = .name name (some u) := form
    simp only [form']
    rfl
  have pending : t.pending = s.pending := pending
  refine ⟨t, pending, ?_⟩
  rw [step, Context.visit_apply, known, Option.bind_some]
  cases entered : s.pending.enterNested (ctx.visitTo u (ctx.model.span e)) <;>
    simp only [pending, entered]

private theorem findsAt_iff (steady : Steady (boundsOfDeclared ctx u).run) {r : Interval} :
    FindsAt p (ctx.evaluator.bounds e) r ↔
      ∃ q, p.enter (ctx.visitTo u (ctx.model.span e)) true = .ok q ∧
        FindsAt q (boundsOfDeclared ctx u) r := by
  constructor
  · rintro ⟨s, t, rfl, run⟩
    obtain ⟨w, -, eq⟩ := bounds_eq (s := s) h form
    rw [run] at eq
    split at eq
    · next q entered =>
      obtain ⟨⟨o, w'⟩, run', eq⟩ := Option.map_eq_some_iff.1 eq.symm
      cases eq
      exact ⟨q, entered, _, w', rfl, run'⟩
    · cases eq
  · rintro ⟨q, entered, found⟩
    let s : EvalState := ⟨p, [], 0⟩
    obtain ⟨w, -, eq⟩ := bounds_eq (s := s) h form
    have entered' : s.pending.enterNested (ctx.visitTo u (ctx.model.span e)) = .ok q := entered
    obtain ⟨t, run⟩ := found.run steady (s := { w with pending := q }) rfl
    refine ⟨s, s.closeTo t, rfl, ?_⟩
    rw [eq, entered']
    simp only [run]
    rfl

end

section

variable {u : VarKey}

private theorem boundsOfDeclared_defined (undeclared : (ctx.model.variableAt u).domain = none)
    (defined : (ctx.model.variableAt u).definition = some d) :
    boundsOfDeclared ctx u = ctx.evaluator.bounds d := by
  funext s
  unfold boundsOfDeclared
  rw [undeclared, defined, BoundM.orElse_apply]
  rfl

private theorem boundsOfDeclared_undefined (undefined : (ctx.model.variableAt u).definition = none) :
    boundsOfDeclared ctx u = ctx.evaluator.boundsOfDomain (ctx.model.variableAt u).domain := by
  funext s
  unfold boundsOfDeclared
  rw [undefined, BoundM.orElse_apply]
  cases ctx.evaluator.boundsOfDomain (ctx.model.variableAt u).domain s with
  | none => rfl
  | some r =>
    obtain ⟨o, t⟩ := r
    cases o <;> rfl

private theorem steady_boundsOfDomain (domain : Option ExprKey) :
    Steady (ctx.evaluator.boundsOfDomain domain).run := by
  cases domain with
  | none => exact .pure none
  | some d =>
    have eq : (ctx.evaluator.boundsOfSet d).run =
        (fun r ↦ r.toOption.bind IntegerSet.hull?) <$> (ctx.evaluator.setOf d).run := by
      funext s
      refine (ctx.evaluator.boundsOfSet_apply d s).trans ?_
      change (ctx.evaluator.setOf d s).map _ = (ctx.evaluator.setOf d s).bind _
      cases ctx.evaluator.setOf d s <;> rfl
    change Steady (ctx.evaluator.boundsOfSet d).run
    rw [eq]
    exact (steady_setOf d).map _

private theorem findsAt_boundsOfDomain_iff {domain : Option ExprKey} {r : Interval} :
    FindsAt p (ctx.evaluator.boundsOfDomain domain) r ↔
      ∃ d set, domain = some d ∧ GivesAt p (ctx.evaluator.setOf d) set ∧ set.hull? = some r := by
  constructor
  · rintro ⟨s, t, pending, run⟩
    cases domain with
    | none => cases run
    | some d =>
      change ctx.evaluator.boundsOfSet d s = _ at run
      rw [Evaluator.boundsOfSet_apply] at run
      obtain ⟨⟨outcome, w⟩, value, eq⟩ := Option.map_eq_some_iff.1 run
      cases outcome with
      | error f => cases eq
      | ok set => exact ⟨d, set, rfl, ⟨s, w, pending, value⟩, (Prod.mk.inj eq).1⟩
  · rintro ⟨d, set, rfl, ⟨s, t, pending, run⟩, hull⟩
    refine ⟨s, t, pending, ?_⟩
    change ctx.evaluator.boundsOfSet d s = _
    rw [Evaluator.boundsOfSet_apply, run, ← hull]
    rfl

end

/-- Bounds of a name are the ends of the domain of the variable at the end of the chain, which is
evaluated while all variables of the chain are pending and each of them counts against the limit. -/
theorem findsAt_bounds_iff (h : Passes ctx e us (.undefined v))
    (undeclared : ∀ u ∈ us, u ≠ v → (ctx.model.variableAt u).domain = none)
    (fresh : ∀ u ∈ us, p.holds u = false) {r : Interval} :
    FindsAt p (ctx.evaluator.bounds e) r ↔
      (∀ n, p.limit = some n → p.nesting + us.length ≤ n) ∧
      ∃ d set q, (ctx.model.variableAt v).domain = some d ∧ p.Joins us us.length q ∧
        GivesAt q (ctx.evaluator.setOf d) set ∧ set.hull? = some r := by
  generalize last : ChainEnd.undefined v = c at h
  induction h generalizing p with
  | expression => cases last
  | @undefined e name u form undefined =>
    cases last
    let x := ctx.visitTo v (ctx.model.span e)
    have declared := boundsOfDeclared_undefined undefined
    have joins : p.Joins [v] 1 (p.add x true) := p.joins_add x true
    rw [findsAt_iff (.undefined form undefined) form (declared ▸ steady_boundsOfDomain _), declared]
    constructor
    · rintro ⟨q, entered, found⟩
      obtain ⟨-, room, rfl⟩ := enter_eq_ok_iff.1 entered
      obtain ⟨d, set, domain, gives, hull⟩ := findsAt_boundsOfDomain_iff.1 found
      exact ⟨fun n limit ↦ room n limit rfl, d, set, _, domain, joins, gives, hull⟩
    · rintro ⟨room, d, set, q, domain, joins', gives, hull⟩
      have levels : q.Levels 0 0 (p.add x true) := joins'.levels joins (fun _ ↦ rfl) rfl rfl
      refine ⟨p.add x true, enter_eq_ok_iff.2 ⟨fresh v (by simp), fun n limit _ ↦ room n limit, rfl⟩,
        findsAt_boundsOfDomain_iff.2 ⟨d, set, domain, gives.setOf_levels levels, hull⟩⟩
  | @definition e d name u us c form defined next ih =>
    have passes := Passes.definition form defined next
    let x := ctx.visitTo u (ctx.model.span e)
    have other : u ≠ v := ne_of_defined (last ▸ passes.leads) defined
    have declared := boundsOfDeclared_defined (undeclared u (by simp) other) defined
    have count : (u :: us).length = true.toNat + us.length := Nat.add_comm ..
    have next_iff := ih (p := p.add x true) (fun w mem ↦ undeclared w (List.mem_cons_of_mem u mem))
      (fresh_add (x := x) passes.nodup fresh) last
    rw [findsAt_iff (last ▸ passes.leads) form (declared ▸ steady_bounds d), declared]
    constructor
    · rintro ⟨q, entered, found⟩
      obtain ⟨-, -, rfl⟩ := enter_eq_ok_iff.1 entered
      obtain ⟨room, d, set, q, domain, joins, gives, hull⟩ := next_iff.1 found
      refine ⟨fun n limit ↦ ?_, d, set, q, domain, ?_, gives, hull⟩
      · rw [count, ← Nat.add_assoc]
        exact room n limit
      · rw [count]
        exact (joins_cons_iff (v := x)).2 joins
    · rintro ⟨room, d, set, q, domain, joins, gives, hull⟩
      rw [count] at room joins
      refine ⟨p.add x true, enter_eq_ok_iff.2 ⟨fresh u (by simp), fun n limit _ ↦ ?_, rfl⟩,
        next_iff.2 ⟨fun n limit ↦ ?_, d, set, q, domain, (joins_cons_iff (v := x)).1 joins, gives,
          hull⟩⟩
      · have := room n limit
        simp only [Bool.toNat_true] at this
        omega
      · have := room n limit
        rwa [← Nat.add_assoc] at this

/-- With a limit that is less than the number of variables, the search along a chain ends without
bounds. -/
private theorem exists_bounds_of_short (h : Passes ctx e us (.undefined v))
    (undeclared : ∀ u ∈ us, u ≠ v → (ctx.model.variableAt u).domain = none) {s : EvalState}
    (limit : s.pending.limit = some n) (short : n < s.pending.nesting + us.length) :
    ∃ t, ctx.evaluator.bounds e s = some (none, t) := by
  generalize last : ChainEnd.undefined v = c at h
  induction h generalizing s with
  | expression => cases last
  | @undefined e name u form undefined =>
    cases last
    obtain ⟨t, -, eq⟩ := bounds_eq (s := s) (.undefined form undefined) form
    split at eq
    · next q entered =>
      have := (enter_eq_ok_iff.1 entered).2.1 n limit rfl
      simp only [List.length_singleton] at short
      omega
    · exact ⟨_, eq⟩
  | @definition e d name u us c form defined next ih =>
    have passes := Passes.definition form defined next
    have other : u ≠ v := ne_of_defined (last ▸ passes.leads) defined
    obtain ⟨t, -, eq⟩ := bounds_eq (s := s) (last ▸ passes.leads) form
    rw [boundsOfDeclared_defined (undeclared u (by simp) other) defined] at eq
    split at eq
    · next q entered =>
      obtain ⟨-, -, rfl⟩ := enter_eq_ok_iff.1 entered
      obtain ⟨w, none⟩ := ih (fun w mem ↦ undeclared w (List.mem_cons_of_mem u mem))
        (s := { t with pending := s.pending.add (ctx.visitTo u (ctx.model.span e)) true }) limit
        (by simp only [List.length_cons, Pending.add, Bool.toNat_true] at short ⊢; omega) last
      rw [none] at eq
      exact ⟨_, eq⟩
    · exact ⟨_, eq⟩

end Chains

/-- Bounds see through chains of aliases as far as the limit on nesting allows. Let a name lead
through some variables, of which only the last one may have a domain, to this one, which has no
definition. Then bounds of the name are found exactly where its domain is found and not empty under
a limit that is lower by the number of the other variables, and they are the least and the greatest
member; without a limit they are found wherever the domain is. Under a limit that is less than the
number of all the variables the search ends without bounds, although the domain may be found. -/
theorem bounds_of_alias (ctx : Context) (e : ExprKey) (us : List VarKey) (v : VarKey)
    (passes : Passes ctx e us (.undefined v))
    (undeclared : ∀ u ∈ us, u ≠ v → (ctx.model.variableAt u).domain = none) :
    (∀ limit r, FindsAt (.empty (limit.map (· + (us.length - 1)))) (ctx.evaluator.bounds e) r ↔
      ∃ set, GivesAt (.empty limit) (ctx.evaluator.domainOf e) set ∧ set.min? = some r.lo ∧
        set.max? = some r.hi) ∧
    ∀ limit s, s.pending = .empty (some limit) → limit < us.length →
      ∃ t, ctx.evaluator.bounds e s = some (none, t) := by
  have positive : 0 < us.length := by
    cases passes with
    | undefined _ _ => exact Nat.one_pos
    | definition _ _ _ => exact Nat.succ_pos _
  refine ⟨fun limit r ↦ ?_, fun limit s pending short ↦ ?_⟩
  · have fresh {limit : Option Nat} : ∀ u ∈ us, (Pending.empty limit).holds u = false :=
      fun _ _ ↦ rfl
    -- the domain of the last variable is evaluated with the same room for nesting
    have levels {q q' : Pending} (joins : (Pending.empty limit).Joins us 1 q)
        (joins' : (Pending.empty (limit.map (· + (us.length - 1)))).Joins us us.length q') :
        q.Levels (us.length - 1) 0 q' := by
      refine joins.levels joins' (fun _ ↦ rfl) ?_ ?_
      · change 0 + 1 + (us.length - 1) = 0 + us.length + 0
        omega
      · exact Option.map_id_apply.symm
    rw [findsAt_bounds_iff passes undeclared fresh]
    simp only [givesAt_domainOf_iff passes fresh]
    constructor
    · rintro ⟨room, d, set, q', domain, joins', gives, hull⟩
      obtain ⟨q, joins⟩ := (Pending.empty limit).exists_joins us 1
      refine ⟨set, ⟨fun n some ↦ ?_, d, q, domain, joins,
        gives.setOf_levels (levels joins joins').symm⟩, IntegerSet.hull?_eq_some_iff.1 hull⟩
      have room := room (n + (us.length - 1)) (congrArg (Option.map _) some)
      change 0 + us.length ≤ n + (us.length - 1) at room
      change 0 < n
      omega
    · rintro ⟨set, ⟨room, d, q, domain, joins, gives⟩, ends⟩
      obtain ⟨q', joins'⟩ := (Pending.empty (limit.map (· + (us.length - 1)))).exists_joins us
        us.length
      refine ⟨fun n some ↦ ?_, d, set, q', domain, joins', gives.setOf_levels (levels joins joins'),
        IntegerSet.hull?_eq_some_iff.2 ends⟩
      obtain ⟨n', limit, rfl⟩ := Option.map_eq_some_iff.1 some
      have room : 0 < n' := room n' limit
      change 0 + us.length ≤ n' + (us.length - 1)
      omega
  · have pending' : s.pending.limit = some limit := by rw [pending]; rfl
    have nesting : s.pending.nesting = 0 := by rw [pending]; rfl
    exact exists_bounds_of_short passes undeclared pending' (by omega)

/-! ### An alias of a bounded variable -/

/-- The model of a variable between 1 and 10 and of another one that stands for it. -/
def aliasOfBounded : Model :=
  let build : Build Unit := do
    Library.declareAll
    let domain ← Build.literalRange .one (.ofByte 10)
    let v ← Build.addVariable
      { name := "v", span := .nowhere, ty := .int .var, domain := some domain, indexSets := [],
        definition := none }
    let v ← Build.name v
    let w ← Build.addVariable
      { name := "w", span := .nowhere, ty := .int .var, domain := none, indexSets := [],
        definition := some v }
    let _ ← Build.name w
  (build.run .empty).2

/-- The model with the standard library. -/
def aliasContext : Context where
  model := aliasOfBounded
  registry := ((Registry.ofLibrary aliasOfBounded).toOption).getD .empty

/-- If only one declaration may nest, the domain of the alias is found, but bounds are not. They are
found if two may. -/
theorem bounds_of_alias_up_to_ten :
    let ten : Integer := .ofByte 10
    Passes aliasContext ⟨4⟩ [⟨1⟩, ⟨0⟩] (.undefined ⟨0⟩) ∧
    GivesAt (.empty (some 1)) (aliasContext.evaluator.domainOf ⟨4⟩) (.range .one ten) ∧
    (∃ t, aliasContext.evaluator.bounds ⟨4⟩ (.fresh (some 1)) = some (none, t)) ∧
    FindsAt (.empty (some 2)) (aliasContext.evaluator.bounds ⟨4⟩) ⟨.one, ten⟩ := by
  intro ten
  have passes : Passes aliasContext ⟨4⟩ [⟨1⟩, ⟨0⟩] (.undefined ⟨0⟩) := by
    have form : aliasContext.model.form ⟨4⟩ = .name "w" (some ⟨1⟩) := by decide +kernel
    have form' : aliasContext.model.form ⟨3⟩ = .name "v" (some ⟨0⟩) := by decide +kernel
    exact .definition form (by decide +kernel) (.undefined form' (by decide +kernel))
  have undeclared : ∀ u ∈ [(⟨1⟩ : VarKey), ⟨0⟩], u ≠ ⟨0⟩ →
      (aliasContext.model.variableAt u).domain = none := by
    decide +kernel
  have gives : GivesAt (.empty (some 1)) (aliasContext.evaluator.domainOf ⟨4⟩) (.range .one ten) :=
    ⟨.fresh (some 1), .fresh (some 1), rfl, by decide +kernel⟩
  obtain ⟨found, short⟩ := bounds_of_alias aliasContext ⟨4⟩ _ _ passes undeclared
  exact ⟨passes, gives, short 1 (.fresh (some 1)) rfl (by decide),
    (found (some 1) ⟨.one, ten⟩).2 ⟨_, gives, by decide, by decide⟩⟩

end ConstraintEval
