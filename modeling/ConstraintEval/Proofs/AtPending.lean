import ConstraintEval.Proofs.Definitions
import ConstraintEval.Proofs.IndexSets

/-!
# Results while some declarations are pending

What an evaluation or a search for bounds comes to depends on the pending declarations, and where it
leaves no trace on nothing else in the state. So results can be put together without speaking of
states: after a chain of names with what is pending then, otherwise with what was pending before.
-/

namespace ConstraintEval

variable {α β : Type} {ctx : Context} {p q : Pending}

namespace GivesAt

theorem ok (a : α) : GivesAt p (pure a) a := ⟨⟨p, [], 0⟩, ⟨p, [], 0⟩, rfl, rfl⟩

theorem mapM {f : α → EvalM β} {as : List α} {bs : List β}
    (h : List.Forall₂ (fun a b ↦ GivesAt p (f a) b) as bs) (steady : ∀ a, Steady (f a).run) :
    GivesAt p (as.mapM f) bs := by
  induction h with
  | nil => exact .ok []
  | @cons a b as bs head _ ih =>
    rw [List.mapM_cons]
    refine head.bind (steady a) (ih.bind (Steady.mapM as steady) (.ok _) (.ok _)) ?_
    exact (Steady.mapM as steady).andThen fun _ ↦ .ok _

theorem of_mapM {f : α → EvalM β} {as : List α} {bs : List β} (h : GivesAt p (as.mapM f) bs)
    (steady : ∀ a, Steady (f a).run) : List.Forall₂ (fun a b ↦ GivesAt p (f a) b) as bs := by
  induction as generalizing bs with
  | nil =>
    rw [List.mapM_nil] at h
    rw [h.gives.of_pure]
    exact .nil
  | cons a as ih =>
    rw [List.mapM_cons] at h
    obtain ⟨b, head, h⟩ := h.of_bind (steady a)
    obtain ⟨cs, tail, h⟩ := h.of_bind (Steady.mapM as steady)
    rw [h.gives.of_pure]
    exact .cons head (ih tail)

/-! ### Values of a kind -/

section Kinds

variable {e : ExprKey} {v : Value} {shows : Value → Except Failure α} {a : α}

private theorem of_shown
    (h : GivesAt p (ctx.evaluator.eval e >>= fun v ↦
      ctx.evaluator.locating e (EvalM.ofExcept (shows v))) a) :
    ∃ v, GivesAt p (ctx.evaluator.eval e) v ∧ shows v = .ok a := by
  obtain ⟨v, value, shown⟩ := h.of_bind (steady_eval e)
  exact ⟨v, value, shown.gives.of_locating.of_ofExcept⟩

private theorem shown (h : GivesAt p (ctx.evaluator.eval e) v) (ok : shows v = .ok a) :
    GivesAt p (ctx.evaluator.eval e >>= fun v ↦
      ctx.evaluator.locating e (EvalM.ofExcept (shows v))) a := by
  refine h.bind (steady_eval e) ?_ ((Steady.ofExcept (shows v)).locating e)
  rw [ok]
  exact ⟨⟨p, [], 0⟩, ⟨p, [], 0⟩, rfl, rfl⟩

theorem intOf {i : Integer} (h : GivesAt p (ctx.evaluator.eval e) (.int i)) :
    GivesAt p (ctx.evaluator.intOf e) i := h.shown rfl

theorem setOf {s : IntegerSet} (h : GivesAt p (ctx.evaluator.eval e) (.set s)) :
    GivesAt p (ctx.evaluator.setOf e) s := h.shown rfl

theorem arrayOf {u : LazyArray} (h : GivesAt p (ctx.evaluator.eval e) (.array u)) :
    GivesAt p (ctx.evaluator.arrayOf e) u := h.shown rfl

theorem of_setOf {s : IntegerSet} (h : GivesAt p (ctx.evaluator.setOf e) s) :
    GivesAt p (ctx.evaluator.eval e) (.set s) := by
  obtain ⟨v, value, ok⟩ := h.of_shown
  cases v <;> cases ok
  exact value

theorem of_arrayOf {u : LazyArray} (h : GivesAt p (ctx.evaluator.arrayOf e) u) :
    GivesAt p (ctx.evaluator.eval e) (.array u) := by
  obtain ⟨v, value, ok⟩ := h.of_shown
  cases v <;> cases ok
  exact value

end Kinds

end GivesAt

/-! ### Chains of names -/

/-- A chain of names that starts at an expression that is no name ends there. -/
theorem Context.followChain_unnamed {e : ExprKey}
    (unnamed : ∀ name resolved, ctx.model.form e ≠ .name name resolved) (nested : Bool)
    (steps : Nat) : ctx.followChain nested steps p e = (.ok (.expression e), p) := by
  unfold Context.followChain
  split
  · next form => exact (unnamed _ _ form).elim
  · next form => exact (unnamed _ _ form).elim
  · rfl

/-- What is evaluated after following a chain of names is evaluated where the chain ends. -/
theorem GivesAt.of_chain {e : ExprKey} {f : ChainEnd → EvalM α} {a : α}
    (h : GivesAt p (EvalM.inScope (ctx.locating e (ctx.chainEnd e >>= f))) a) :
    ∃ c q, ctx.followChain true (ctx.model.declared.size + 1) p e = (.ok c, q) ∧
      GivesAt q (f c) a := by
  obtain ⟨s, t, rfl, run⟩ := h
  rw [Context.chain_apply] at run
  cases follow : ctx.followChain true (ctx.model.declared.size + 1) s.pending e with
  | mk end? q =>
    rw [follow] at run
    cases end? with
    | error f => cases run
    | ok c =>
      obtain ⟨⟨r, u⟩, atEnd, eq⟩ := Option.map_eq_some_iff.1 run
      cases r with
      | error f => cases eq
      | ok b =>
        obtain rfl := Except.ok.inj (Prod.mk.inj eq).1
        exact ⟨c, q, rfl, _, u, rfl, atEnd⟩

theorem GivesAt.chain {e : ExprKey} {c : ChainEnd} {f : ChainEnd → EvalM α} {a : α}
    (follow : ctx.followChain true (ctx.model.declared.size + 1) p e = (.ok c, q))
    (h : GivesAt q (f c) a) (steady : Steady (f c).run) :
    GivesAt p (EvalM.inScope (ctx.locating e (ctx.chainEnd e >>= f))) a := by
  let s : EvalState := ⟨p, [], 0⟩
  obtain ⟨t, -, run⟩ := h.run steady (s := { s.openScope with pending := q }) rfl
  have follow' : ctx.followChain true (ctx.model.declared.size + 1) s.pending e = (.ok c, q) :=
    follow
  refine ⟨s, s.closeTo t, rfl, ?_⟩
  rw [Context.chain_apply, follow']
  exact congrArg (Option.map _) run

/-- The value of an expression that is no name is the one that its form gives. -/
theorem GivesAt.eval_of_form {e : ExprKey} {v : Value}
    (unnamed : ∀ name resolved, ctx.model.form e ≠ .name name resolved)
    (h : GivesAt p (ctx.evaluator.valueByForm e) v)
    (steady : Steady (ctx.evaluator.valueByForm e).run) : GivesAt p (ctx.evaluator.eval e) v := by
  let s : EvalState := ⟨p, [], 0⟩
  obtain ⟨t, -, run⟩ := h.run steady (s := s.openScope) rfl
  have value : ctx.evaluator.valueOfEnd (.expression e) { s.openScope with pending := p } =
    some (.ok v, t) := run
  obtain ⟨u, run⟩ := Context.eval_eq_ok_iff.2
    ⟨_, p, _, Context.followChain_unnamed unnamed true _, value⟩
  exact ⟨s, u, rfl, run⟩

/-- A literal has its value whatever is pending. -/
theorem givesAt_intOf {e : ExprKey} {i : Integer} (form : ctx.model.form e = .int i) :
    GivesAt p (ctx.evaluator.intOf e) i := by
  have byForm : ctx.evaluator.valueByForm e = pure (.int i) := by
    have form' : ctx.evaluator.model.form e = .int i := form
    simp only [Evaluator.valueByForm, form']
  refine GivesAt.intOf (.eval_of_form (by simp [form]) ?_ ?_) <;> rw [byForm]
  · exact .ok _
  · exact .ok _

/-! ### Searches for bounds -/

/-- A search for bounds finds some while some declarations are pending. -/
def FindsAt (p : Pending) (x : BoundM α) (a : α) : Prop :=
  ∃ s t, s.pending = p ∧ x s = some (some a, t)

/-- A steady search for bounds finds the same in every state. -/
theorem FindsAt.run {x : BoundM α} {a : α} (h : FindsAt p x a) (steady : Steady x.run)
    {s : EvalState} (pending : s.pending = p) : ∃ t, x s = some (some a, t) := by
  obtain ⟨s', t', pending', run'⟩ := h
  obtain ⟨result, blind⟩ := steady.blind
  have same : (x s).map Prod.fst = (x s').map Prod.fst :=
    (blind s).trans ((congrArg result (pending.trans pending'.symm)).trans (blind s').symm)
  rw [run'] at same
  obtain ⟨⟨o, t⟩, run, rfl⟩ := Option.map_eq_some_iff.1 same
  exact ⟨t, run⟩

theorem FindsAt.unique {x : BoundM α} {a b : α} (h : FindsAt p x a) (h' : FindsAt p x b)
    (steady : Steady x.run) : a = b := by
  obtain ⟨s, t, pending, run⟩ := h
  obtain ⟨t', run'⟩ := h'.run steady pending
  rw [run] at run'
  cases run'
  rfl

/-- Bounds that stand for a failure where there are none are found where there is no failure. -/
theorem GivesAt.of_orFail {x : BoundM α} {f : Failure} {a : α}
    (h : GivesAt p (x.orFail (pure f)) a) : FindsAt p x a := by
  obtain ⟨s, u, pending, run⟩ := h
  rw [BoundM.orFail_apply] at run
  obtain ⟨⟨r, t⟩, first, next⟩ := Option.bind_eq_some_iff.1 run
  cases r with
  | none => cases next
  | some b =>
    cases next
    exact ⟨s, u, pending, first⟩

end ConstraintEval
