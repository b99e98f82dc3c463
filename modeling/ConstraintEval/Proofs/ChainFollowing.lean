import ConstraintEval.Proofs.AtPending

/-!
# How a chain of names is followed

Following a chain of names walks through the definitions of variables, visiting each one that is
neither pending nor visited already, up to the first expression at which it has to stop. There are
five reasons to stop, and the declarations that are not pending bound the length of the walk. What
is pending afterwards is what was pending before and the visits, of which the first one alone counts
against the limit on nesting.
-/

namespace ConstraintEval

open Pending

/-- Visits that go on along a chain of names: those after the first do not count against the depth
limit. -/
def Visit.opened (nested : Bool) : List Visit → List OpenVisit
  | [] => []
  | v :: vs => ⟨v, nested⟩ :: vs.map (⟨·, false⟩)

/-- What is pending after some visits along a chain of names. -/
def Pending.along (p : Pending) (nested : Bool) (vs : List Visit) : Pending where
  visits := (Visit.opened nested vs).reverse ++ p.visits
  visited := (vs.map Visit.key).reverse ++ p.visited
  nesting := p.nesting + if vs.isEmpty then 0 else nested.toNat
  limit := p.limit

/-- Some visits may be made one after another along a chain of names: none is to a variable that is
pending or visited already, and there is room for the first one if it counts. -/
structure Pending.Admits (p : Pending) (nested : Bool) (vs : List Visit) : Prop where
  fresh : ∀ v ∈ vs, p.holds v.key = false
  nodup : (vs.map Visit.key).Nodup
  room : nested = true → vs ≠ [] → ∀ n, p.limit = some n → p.nesting < n

/-- The declared variables that are not pending. -/
def Model.idle (m : Model) (p : Pending) : List VarKey :=
  ((List.range m.declared.size).map VarKey.mk).filter fun v ↦ !p.holds v

/-- The definitions of variables lead from one expression to another, with these visits on the
way. -/
inductive Walk (ctx : Context) : ExprKey → List Visit → ExprKey → Prop where
  | here {e : ExprKey} : Walk ctx e [] e
  | definition {e d x : ExprKey} {name : String} {v : VarKey} {vs : List Visit}
      (form : ctx.model.form e = .name name (some v))
      (defined : (ctx.model.variableAt v).definition = some d) (next : Walk ctx d vs x) :
      Walk ctx e (ctx.visitTo v (ctx.model.span e) :: vs) x

/-- After the visits `vs`, following a chain of names stops at the expression `x`: what it comes to,
and the visits that it has made then. -/
inductive Stops (ctx : Context) (p : Pending) (nested : Bool) (vs : List Visit) (x : ExprKey) :
    List Visit → Except Failure ChainEnd → Prop where
  /-- The expression is no name. -/
  | expression (unnamed : ∀ name resolved, ctx.model.form x ≠ .name name resolved) :
      Stops ctx p nested vs x vs (.ok (.expression x))
  /-- It is a name that nothing declares. -/
  | undeclared {name : String} (form : ctx.model.form x = .name name none) :
      Stops ctx p nested vs x vs (.error (.of (.undeclaredName name)))
  /-- It is the name of a variable that was pending before or has been visited since. -/
  | again {name : String} {v : VarKey} (form : ctx.model.form x = .name name (some v))
      (met : p.holds v = true ∨ v ∈ vs.map Visit.key) :
      Stops ctx p nested vs x vs
        (.error ((p.along nested vs).selfDependence (ctx.visitTo v (ctx.model.span x))))
  /-- It is the name of another variable, the first visit counts, and the limit is reached. -/
  | excess {name : String} {v : VarKey} {limit : Nat}
      (form : ctx.model.form x = .name name (some v)) (fresh : p.holds v = false)
      (first : vs = []) (counts : nested = true) (limited : p.limit = some limit)
      (reached : limit ≤ p.nesting) :
      Stops ctx p nested vs x vs
        (.error (p.excessDepth limit (ctx.visitTo v (ctx.model.span x))))
  /-- It is the name of a variable without a definition, which is visited too. -/
  | undefined {name : String} {v : VarKey} (form : ctx.model.form x = .name name (some v))
      (admitted : p.Admits nested (vs ++ [ctx.visitTo v (ctx.model.span x)]))
      (undefined : (ctx.model.variableAt v).definition = none) :
      Stops ctx p nested vs x (vs ++ [ctx.visitTo v (ctx.model.span x)]) (.ok (.undefined v))

variable {ctx : Context} {p : Pending} {nested : Bool} {v : Visit} {vs ws : List Visit}
  {e x : ExprKey} {r : Except Failure ChainEnd}

/-! ### The first visit and the others -/

theorem Pending.along_nil : p.along nested [] = p := rfl

theorem Pending.along_cons : p.along nested (v :: vs) = (p.add v nested).along false vs := by
  have opened : Visit.opened false vs = vs.map (⟨·, false⟩) := by cases vs <;> rfl
  ext1
  · simp only [along, Pending.add, opened]
    simp [Visit.opened]
  · simp [along, Pending.add]
  · simp [along, Pending.add]
  · rfl

theorem Pending.admits_nil : p.Admits nested [] :=
  ⟨by simp, List.nodup_nil, fun _ h ↦ (h rfl).elim⟩

theorem Pending.admits_cons_iff :
    p.Admits nested (v :: vs) ↔ p.enter v nested = .ok (p.add v nested) ∧
      (p.add v nested).Admits false vs := by
  have add_fresh (u : Visit) : (p.add v nested).holds u.key = false ↔
      u.key ≠ v.key ∧ p.holds u.key = false := by
    rw [← Bool.not_eq_true, holds_add, not_or, Bool.not_eq_true]
  constructor
  · rintro ⟨fresh, nodup, room⟩
    rw [List.map_cons, List.nodup_cons] at nodup
    refine ⟨enter_eq_ok_iff.2 ⟨fresh v (by simp), fun n limit nests ↦ ?_, rfl⟩, ?_, nodup.2, ?_⟩
    · exact room nests (List.cons_ne_nil _ _) n limit
    · intro u mem
      refine (add_fresh u).2 ⟨?_, fresh u (List.mem_cons_of_mem v mem)⟩
      rintro same
      exact nodup.1 (same ▸ List.mem_map_of_mem mem)
    · intro nests
      cases nests
  · rintro ⟨entered, fresh, nodup, -⟩
    obtain ⟨new, room, -⟩ := enter_eq_ok_iff.1 entered
    refine ⟨?_, ?_, fun nests _ n limit ↦ room n limit nests⟩
    · exact List.forall_mem_cons.2 ⟨new, fun u mem ↦ ((add_fresh u).1 (fresh u mem)).2⟩
    · rw [List.map_cons, List.nodup_cons, List.mem_map]
      refine ⟨?_, nodup⟩
      rintro ⟨u, mem, same⟩
      exact ((add_fresh u).1 (fresh u mem)).1 same

/-- Where the rest of a walk stops, with its first variable pending, the whole walk does. -/
theorem Stops.cons (entered : p.enter v nested = .ok (p.add v nested))
    (h : Stops ctx (p.add v nested) false vs x ws r) :
    Stops ctx p nested (v :: vs) x (v :: ws) r := by
  cases h with
  | expression unnamed => exact .expression unnamed
  | undeclared form => exact .undeclared form
  | again form met =>
    rw [← along_cons]
    refine .again form ?_
    rw [holds_add] at met
    rw [List.map_cons, List.mem_cons]
    tauto
  | excess _ _ _ counts => cases counts
  | undefined form admitted undefined =>
    exact .undefined form (admits_cons_iff.2 ⟨entered, admitted⟩) undefined

/-- Where a walk stops after its first variable, its rest does with that variable pending. -/
theorem Stops.tail (h : Stops ctx p nested (v :: vs) x ws r) :
    ∃ ws', ws = v :: ws' ∧ Stops ctx (p.add v nested) false vs x ws' r := by
  cases h with
  | expression unnamed => exact ⟨vs, rfl, .expression unnamed⟩
  | undeclared form => exact ⟨vs, rfl, .undeclared form⟩
  | again form met =>
    rw [along_cons]
    refine ⟨vs, rfl, .again form ?_⟩
    rw [List.map_cons, List.mem_cons] at met
    rw [holds_add]
    tauto
  | excess _ _ first => cases first
  | undefined form admitted undefined =>
    exact ⟨_, rfl, .undefined form (admits_cons_iff.1 admitted).2 undefined⟩

/-! ### Following is walking -/

/-- Following a chain of names takes one step for each definition that it walks through, and then
stops. -/
theorem followChain_of_stops {steps : Nat} (walk : Walk ctx e vs x) (admits : p.Admits nested vs)
    (stops : Stops ctx p nested vs x ws r) (length : vs.length < steps) :
    ctx.followChain nested steps p e = (r, p.along nested ws) := by
  obtain ⟨steps, rfl⟩ : ∃ n, steps = n + 1 := ⟨steps - 1, by omega⟩
  induction walk generalizing p nested ws steps with
  | here =>
    cases stops with
    | expression unnamed => exact Context.followChain_unnamed unnamed _ _
    | undeclared form =>
      unfold Context.followChain
      rw [form]
      rfl
    | again form met =>
      have held : p.holds _ = true := met.resolve_right List.not_mem_nil
      unfold Context.followChain
      simp only [form, Pending.enter, Context.visitTo, held, if_true, along_nil]
    | excess form fresh _ counts limited reached =>
      unfold Context.followChain
      simp [form, Pending.enter, Context.visitTo, fresh, limited, counts, reached, along_nil]
    | undefined form admitted undefined =>
      obtain ⟨entered, -⟩ := admits_cons_iff.1 admitted
      unfold Context.followChain
      simp only [form, entered, undefined, List.nil_append, along_cons, along_nil]
  | definition form defined _ ih =>
    obtain ⟨ws, rfl, rest⟩ := stops.tail
    obtain ⟨entered, admits⟩ := admits_cons_iff.1 admits
    obtain ⟨steps, rfl⟩ : ∃ n, steps = n + 1 := ⟨steps - 1, by simp at length; omega⟩
    unfold Context.followChain
    simp only [form, entered, defined, along_cons]
    exact ih admits rest _ (Nat.lt_of_succ_lt_succ length)

/-! ### The walk has an end -/

/-- A variable that becomes pending is not idle any more. -/
private theorem Model.idle_add_lt {m : Model} (declared : v.key.index < m.declared.size)
    (fresh : p.holds v.key = false) :
    (m.idle (p.add v nested)).length < (m.idle p).length := by
  have mem : v.key ∈ m.idle p := by
    simpa [Model.idle, fresh] using ⟨v.key.index, declared, rfl⟩
  have erased : m.idle (p.add v nested) = (m.idle p).filter fun u ↦ u != v.key := by
    rw [Model.idle, Model.idle, List.filter_filter]
    refine List.filter_congr fun u _ ↦ ?_
    rw [Bool.eq_iff_iff, Bool.not_eq_true', ← Bool.not_eq_true, holds_add]
    simp
  rw [erased]
  exact List.length_filter_lt_length_iff_exists.2 ⟨v.key, mem, by simp⟩

/-- Following a chain of names stops somewhere. -/
private theorem exists_stops (ctx : Context) (p : Pending) (nested : Bool) (e : ExprKey) :
    ∃ vs x ws r, Walk ctx e vs x ∧ p.Admits nested vs ∧ Stops ctx p nested vs x ws r := by
  -- Each step through a definition leaves fewer idle variables.
  induction count : (ctx.model.idle p).length using Nat.strong_induction_on
    generalizing p nested e with
  | _ n ih =>
    by_cases named : ∃ name resolved, ctx.model.form e = .name name resolved
    swap
    · exact ⟨[], e, [], _, .here, admits_nil, .expression fun name resolved form ↦
        named ⟨name, resolved, form⟩⟩
    obtain ⟨name, resolved, form⟩ := named
    cases resolved with
    | none => exact ⟨[], e, [], _, .here, admits_nil, .undeclared form⟩
    | some u =>
      by_cases held : p.holds u = true
      · exact ⟨[], e, [], _, .here, admits_nil, .again form (.inl held)⟩
      rw [Bool.not_eq_true] at held
      by_cases room : ∀ n, p.limit = some n → nested = true → p.nesting < n
      swap
      · push Not at room
        obtain ⟨limit, limited, counts, reached⟩ := room
        exact ⟨[], e, [], _, .here, admits_nil, .excess form held rfl counts limited reached⟩
      let visit := ctx.visitTo u (ctx.model.span e)
      have entered : p.enter visit nested = .ok (p.add visit nested) :=
        enter_eq_ok_iff.2 ⟨held, room, rfl⟩
      cases defined : (ctx.model.variableAt u).definition with
      | none =>
        exact ⟨[], e, _, _, .here, admits_nil,
          .undefined form (admits_cons_iff.2 ⟨entered, admits_nil⟩) defined⟩
      | some d =>
        have fewer : (ctx.model.idle (p.add visit nested)).length < n :=
          count ▸ Model.idle_add_lt (Model.index_lt_of_definition defined) held
        obtain ⟨vs, x, ws, r, walk, admits, stops⟩ := ih _ fewer _ false d rfl
        exact ⟨visit :: vs, x, visit :: ws, r, .definition form defined walk,
          admits_cons_iff.2 ⟨entered, admits⟩, stops.cons entered⟩

theorem Walk.length_le (walk : Walk ctx e vs x) (admits : p.Admits nested vs) :
    vs.length ≤ (ctx.model.idle p).length := by
  induction walk generalizing p nested with
  | here => exact Nat.zero_le _
  | definition _ defined _ ih =>
    obtain ⟨entered, admits⟩ := admits_cons_iff.1 admits
    have fewer : (ctx.model.idle (p.add _ nested)).length < (ctx.model.idle p).length :=
      Model.idle_add_lt (Model.index_lt_of_definition defined) (enter_eq_ok_iff.1 entered).1
    exact Nat.lt_of_le_of_lt (ih admits) fewer

private theorem Model.length_idle_le (m : Model) (p : Pending) :
    (m.idle p).length ≤ m.declared.size := by
  simpa [Model.idle] using List.length_filter_le (fun v ↦ !p.holds v)
    ((List.range m.declared.size).map VarKey.mk)

/-- Following a chain of names walks through definitions and stops at the first expression that
gives a reason to: at one that is no name, at a name that nothing declares, at the name of a
variable that is pending or visited already, at the first name if its visit would be one too many,
or at the name of a variable without a definition. There is such a walk, and it goes through no more
definitions than there are idle variables. The visits made on the way are pending afterwards, and
nothing else has changed. -/
theorem Context.chainEnd_exact (ctx : Context) (e : ExprKey) (s : EvalState) :
    (∃ vs x ws r, Walk ctx e vs x ∧ s.pending.Admits true vs ∧
      Stops ctx s.pending true vs x ws r) ∧
    ∀ vs x ws r, Walk ctx e vs x → s.pending.Admits true vs →
      Stops ctx s.pending true vs x ws r →
      vs.length ≤ (ctx.model.idle s.pending).length ∧
      (∀ steps, vs.length < steps →
        ctx.followChain true steps s.pending e = (r, s.pending.along true ws)) ∧
      ctx.chainEnd e s = some (r, { s with pending := s.pending.along true ws }) := by
  refine ⟨exists_stops ctx s.pending true e, fun vs x ws r walk admits stops ↦ ?_⟩
  have length := walk.length_le admits
  have follow {steps : Nat} (lt : vs.length < steps) :=
    followChain_of_stops walk admits stops lt
  refine ⟨length, fun _ ↦ follow, ?_⟩
  have enough := Model.length_idle_le ctx.model s.pending
  rw [Context.chainEnd_apply, follow (by omega)]

end ConstraintEval
