import ConstraintEval.Eval.Query
import ConstraintEval.Proofs.Evaluation.Termination

/-!
# Queries leave no trace

Every query gives back the pending declarations and the open scopes that it finds, and what it
keeps goes when the innermost scope closes. So in every state that an evaluator comes to nothing
is pending, a scope closes to the state that it was opened in, and a query is answered as it would
be by a fresh evaluator.
-/

namespace ConstraintEval

/-- What a query may make of a state: the pending declarations and the open scopes stay the same,
and within an open scope more values may be kept. -/
structure EvalState.Undisturbed (s t : EvalState) : Prop where
  pending : t.pending = s.pending
  scopes : t.scopes = s.scopes
  kept : s.kept <:+ t.kept
  outside : s.scopes = 0 → t.kept = s.kept

namespace EvalState.Undisturbed

variable {s t u : EvalState}

theorem refl (s : EvalState) : Undisturbed s s := ⟨rfl, rfl, List.suffix_refl _, fun _ ↦ rfl⟩

theorem trans (h : Undisturbed s t) (h' : Undisturbed t u) : Undisturbed s u where
  pending := h'.pending.trans h.pending
  scopes := h'.scopes.trans h.scopes
  kept := h.kept.trans h'.kept
  outside none := (h'.outside (h.scopes.trans none)).trans (h.outside none)

/-- Closing a scope leads back to the state that it was opened in. -/
theorem closeTo_eq (h : Undisturbed s.openScope t) : s.closeTo t = s := by
  apply EvalState.closeTo_eq_self
  · rw [h.pending]
    exact s.pending.leaveTo_size
  · exact h.kept
  · exact h.scopes

end EvalState.Undisturbed

open EvalState (Undisturbed)
open Pending (enter_eq_ok_iff)

variable {α β : Type} {ctx : Context}

/-- A step that leaves no trace. -/
def Traceless (x : StepM α) : Prop := ∀ s a t, x s = some (a, t) → Undisturbed s t

/-- A step whose result depends on the pending declarations and on nothing else in the state. -/
def Blind (x : StepM α) : Prop :=
  ∃ result : Pending → Option α, ∀ s, (x s).map Prod.fst = result s.pending

/-- A step that leaves no trace and sees none. -/
structure Steady (x : StepM α) : Prop where
  traceless : Traceless x
  blind : Blind x

theorem Traceless.bind {x : StepM α} {f : α → StepM β} (hx : Traceless x)
    (hf : ∀ a, Traceless (f a)) : Traceless (x >>= f) := by
  intro s b u h
  obtain ⟨⟨a, t⟩, run, next⟩ := Option.bind_eq_some_iff.1 h
  exact (hx s a t run).trans (hf a t b u next)

theorem Traceless.map {x : StepM α} (f : α → β) (hx : Traceless x) : Traceless (f <$> x) := by
  intro s b t h
  obtain ⟨⟨a, u⟩, run, h⟩ := Option.bind_eq_some_iff.1 h
  cases h
  exact hx s a t run

/-- What runs in a scope of its own leaves the state as it is. -/
theorem Traceless.inScope {x : StepM α} (hx : Traceless x) : Traceless (StepM.inScope x) := by
  intro s a t h
  obtain ⟨⟨b, u⟩, run, h⟩ := Option.bind_eq_some_iff.1 h
  cases h
  rw [(hx s.openScope a u run).closeTo_eq]
  exact .refl s

namespace Steady

theorem of_run {x : StepM α} (result : Pending → Option α) (next : α → EvalState → EvalState)
    (run : ∀ s, x s = (result s.pending).map fun a ↦ (a, next a s))
    (undisturbed : ∀ a s, Undisturbed s (next a s)) : Steady x where
  traceless s a t h := by
    rw [run] at h
    obtain ⟨b, -, h⟩ := Option.map_eq_some_iff.1 h
    cases h
    exact undisturbed a s
  blind := ⟨result, fun s ↦ by
    rw [run, Option.map_map]
    exact Option.map_id_apply⟩

/-- A step whose result can be told from what is pending. -/
theorem read (f : EvalState → α) (only : ∀ s t, s.pending = t.pending → f s = f t) :
    Steady (do return f (← get) : StepM α) :=
  of_run (fun p ↦ some (f ⟨p, [], 0⟩)) (fun _ s ↦ s)
    (fun s ↦ congrArg (fun a ↦ some (a, s)) (only s ⟨s.pending, [], 0⟩ rfl))
    fun _ s ↦ .refl s

theorem pure (a : α) : Steady (Pure.pure a : StepM α) := read (fun _ ↦ a) fun _ _ _ ↦ rfl

theorem bind {x : StepM α} {f : α → StepM β} (hx : Steady x) (hf : ∀ a, Steady (f a)) :
    Steady (x >>= f) := by
  obtain ⟨result, blind⟩ := hx.blind
  choose next blind' using fun a ↦ (hf a).blind
  refine ⟨hx.traceless.bind fun a ↦ (hf a).traceless,
    fun p ↦ (result p).bind fun a ↦ next a p, fun s ↦ ?_⟩
  change ((x s).bind fun r ↦ f r.1 r.2).map Prod.fst = (result s.pending).bind _
  rw [← blind s]
  cases run : x s with
  | none => rfl
  | some r =>
    rw [← (hx.traceless s r.1 r.2 run).pending]
    exact blind' r.1 r.2

theorem map {x : StepM α} (f : α → β) (hx : Steady x) : Steady (f <$> x) := by
  rw [← bind_pure_comp]
  exact hx.bind fun a ↦ pure (f a)

/-- A step in a scope of its own that follows a plan leaves no trace. -/
theorem of_scoped {T : Answers} {x : Answers → StepM α} (hx : Scoped ctx x) : Steady (x T) := by
  obtain ⟨plan, -, run⟩ := hx
  exact of_run (fun p ↦ (plan p).run T) (fun _ s ↦ s) (fun s ↦ run T s) fun _ s ↦ .refl s

theorem inScope {x : StepM α} (hx : Steady x) : Steady (StepM.inScope x) := by
  obtain ⟨result, blind⟩ := hx.blind
  refine ⟨hx.traceless.inScope, result, fun s ↦ ?_⟩
  rw [← show (x s.openScope).map Prod.fst = result s.pending from blind s.openScope]
  change ((x s.openScope).bind _).map Prod.fst = _
  cases x s.openScope <;> rfl

/-! ### Evaluations -/

theorem ofExcept (r : Except Failure α) : Steady (EvalM.ofExcept r).run := pure r

theorem ok (a : α) : Steady (Pure.pure a : EvalM α).run := ofExcept (.ok a)

theorem throw (f : Failure) : Steady (throw f : EvalM α).run := ofExcept (.error f)

theorem ofOption (cause : Cause) (o : Option α) : Steady (EvalM.ofOption cause o).run := by
  cases o with
  | none => exact throw _
  | some a => exact ok a

theorem andThen {x : EvalM α} {f : α → EvalM β} (hx : Steady x.run) (hf : ∀ a, Steady (f a).run) :
    Steady (x >>= f).run := by
  apply bind hx
  intro r
  cases r with
  | error e => exact ofExcept (.error e)
  | ok a => exact hf a

theorem mapM (xs : List α) {f : α → EvalM β} (hf : ∀ a, Steady (f a).run) :
    Steady (xs.mapM f).run := by
  induction xs with
  | nil => exact ok []
  | cons a xs ih =>
    rw [List.mapM_cons]
    exact (hf a).andThen fun b ↦ ih.andThen fun bs ↦ ok (b :: bs)

theorem foldlM (xs : List α) {f : β → α → EvalM β} (hf : ∀ b a, Steady (f b a).run) (b : β) :
    Steady (xs.foldlM f b).run := by
  induction xs generalizing b with
  | nil => exact ok b
  | cons a xs ih =>
    rw [List.foldlM_cons]
    exact (hf b a).andThen ih

theorem allM (xs : List α) {f : α → EvalM Bool} (hf : ∀ a, Steady (f a).run) :
    Steady (xs.allM f).run := by
  induction xs with
  | nil => exact ok true
  | cons a xs ih =>
    refine (hf a).andThen fun b ↦ ?_
    cases b with
    | true => exact ih
    | false => exact ok false

theorem anyM (xs : List α) {f : α → EvalM Bool} (hf : ∀ a, Steady (f a).run) :
    Steady (xs.anyM f).run := by
  induction xs with
  | nil => exact ok false
  | cons a xs ih =>
    refine (hf a).andThen fun b ↦ ?_
    cases b with
    | true => exact ok true
    | false => exact ih

theorem failureAt (e : ExprKey) (cause : Cause) : Steady (ctx.failureAt e cause) :=
  read _ fun s t h ↦ by simp only [Context.locate, h]

theorem failAt (e : ExprKey) (cause : Cause) : Steady (ctx.failAt e cause : EvalM α).run :=
  ((failureAt e cause).map Except.ok).andThen throw

theorem locating (e : ExprKey) {x : EvalM α} (hx : Steady x.run) :
    Steady (ctx.locating e x).run := by
  let located (r : Except Failure α) (s : EvalState) : Except Failure α :=
    r.mapError fun f ↦ ctx.locate e f s
  have eq : (ctx.locating e x).run = x.run >>= fun r ↦ do return located r (← get) := by
    funext s
    apply (Context.locating_apply e x s).trans
    change (x s).map _ = (x s).bind _
    cases x s <;> rfl
  rw [eq]
  exact hx.bind fun r ↦ read (located r) fun s t h ↦ by simp only [located, Context.locate, h]

theorem outcome {x : EvalM α} (hx : Steady x.run) : Steady x.outcome.run := hx.map Except.ok

theorem orFail {x : BoundM α} {f : StepM Failure} (hx : Steady x.run) (hf : Steady f) :
    Steady (x.orFail f).run := by
  apply bind hx
  intro r
  cases r with
  | some a => exact pure _
  | none => exact hf.bind fun f ↦ pure _

end Steady

/-! ### What can be asked -/

/-- Values are found without a trace, whatever the answers for what they are made of. -/
theorem Answers.steady_value (T : Answers) (e : ExprKey) :
    Steady ((T.evaluator ctx).eval e).run := by
  refine Steady.of_run (fun p ↦ T (.value e p)) (fun r s ↦ s.keepResult r)
    (Answers.eval_evaluator T ctx e) fun r s ↦ ?_
  cases r with
  | error f => exact .refl s
  | ok v =>
    change Undisturbed s (s.keep v)
    unfold EvalState.keep
    split
    · next kept =>
      refine ⟨rfl, rfl, List.suffix_cons .., fun none ↦ ?_⟩
      simp [none] at kept
    · exact .refl s

theorem steady_eval_ofLevels (n : Nat) (e : ExprKey) :
    Steady ((Evaluator.ofLevels ctx n).eval e).run := by
  rw [ofLevels_eq]
  exact Answers.steady_value _ e

theorem steady_eval (e : ExprKey) : Steady (ctx.evaluator.eval e).run :=
  steady_eval_ofLevels ctx.levels e

theorem steady_bounds (e : ExprKey) : Steady (ctx.evaluator.bounds e).run := by
  rw [evaluator_eq]
  exact Steady.of_run (fun p ↦ ctx.answers (.bounds e p)) (fun _ s ↦ s)
    (Answers.bounds_evaluator ctx.answers ctx e) fun _ s ↦ .refl s

theorem steady_intOf (e : ExprKey) : Steady (ctx.evaluator.intOf e).run :=
  (steady_eval e).andThen fun v ↦ (Steady.ofExcept v.asInt).locating e

theorem steady_boolOf (e : ExprKey) : Steady (ctx.evaluator.boolOf e).run :=
  (steady_eval e).andThen fun v ↦ (Steady.ofExcept v.asBool).locating e

theorem steady_setOf (e : ExprKey) : Steady (ctx.evaluator.setOf e).run :=
  (steady_eval e).andThen fun v ↦ (Steady.ofExcept v.asSet).locating e

theorem steady_arrayOf (e : ExprKey) : Steady (ctx.evaluator.arrayOf e).run :=
  (steady_eval e).andThen fun v ↦ (Steady.ofExcept v.asArray).locating e

theorem steady_domainOf (e : ExprKey) : Steady (ctx.evaluator.domainOf e).run := by
  rw [evaluator_eq]
  exact .of_scoped (scoped_domainOf e)

theorem steady_domainOfElements (e : ExprKey) : Steady (ctx.evaluator.domainOfElements e).run := by
  rw [evaluator_eq]
  exact .of_scoped (scoped_domainOfElements e)

theorem steady_upperSet (e : ExprKey) : Steady (ctx.evaluator.upperSet e).run := by
  rw [evaluator_eq]
  exact .of_scoped (scoped_upperSet e)

theorem steady_cardinality (e : ExprKey) : Steady (ctx.evaluator.cardinality e).run := by
  refine (steady_setOf e).andThen fun s ↦ ?_
  cases s.size? with
  | some n => exact .ok n
  | none => exact .failAt ..

theorem steady_indexSet (e : ExprKey) (dimension : Nat) :
    Steady (ctx.evaluator.indexSet e dimension).run := by
  unfold Evaluator.indexSet
  split
  · simp only
    split
    · exact .failAt ..
    · exact steady_setOf _
    · refine (steady_arrayOf e).andThen fun a ↦ ?_
      cases a.range? dimension with
      | some r => exact .ok _
      | none => exact .failAt ..
  · exact .failAt ..
  · exact .failAt ..

/-- The scope around a search for bounds ends the visit that the search begins with. -/
private theorem Steady.visiting {x : Answers → BoundM α} (hx : PlannedBound ctx x) (T : Answers)
    (v : VarKey) (span : Span) :
    Steady (BoundM.inScope ((ctx.enter v span).bounds >>= fun _ ↦ x T)).run := by
  obtain ⟨plan, grows, follows⟩ := hx
  let result (p : Pending) : Option (Option α) :=
    (p.enterNested (ctx.visitTo v span)).toOption.elim (some none)
      fun q ↦ ((plan q).run T).map Prod.fst
  refine Steady.of_run result (fun _ s ↦ s) (fun s ↦ ?_) fun _ s ↦ .refl s
  change BoundM.inScope _ s = _
  rw [BoundM.inScope_apply, BoundM.bind_apply, EvalM.bounds_apply, Context.enter_apply,
    show s.openScope.pending = s.pending from rfl]
  simp only [result]
  cases enter : s.pending.enterNested (ctx.visitTo v span) with
  | error f => exact congrArg (fun t ↦ some (none, t)) s.closeTo_openScope
  | ok q =>
    have follows := follows T { s.openScope with pending := q }
    obtain ⟨-, -, added⟩ := enter_eq_ok_iff.1 enter
    have leaves : ∀ r, (plan q).run T = some r → r.2.leaveTo s.pending.size = s.pending := by
      intro r hr
      have le : s.pending.size ≤ q.size := by
        rw [added]
        exact Nat.le_succ _
      rw [((grows q).of_run hr).leaveTo_of_le le, added]
      exact s.pending.leaveTo_add _ true
    change Follows _ ((plan q).run T) (x T { s.openScope with pending := q }) at follows
    change (x T { s.openScope with pending := q }).map _ = (((plan q).run T).map Prod.fst).map _
    generalize (plan q).run T = o at follows leaves
    generalize x T { s.openScope with pending := q } = o' at follows
    cases follows with
    | none => rfl
    | @some a t kept scopes =>
      have closed : s.closeTo t = s := EvalState.closeTo_eq_self (leaves _ rfl) kept scopes
      simp [closed]

theorem steady_boundsOfVariable (v : VarKey) : Steady (ctx.evaluator.boundsOfVariable v).run := by
  rw [evaluator_eq]
  exact .visiting (planned_boundsOfDeclared v) ctx.answers v _

theorem steady_domainOfVariable (v : VarKey) : Steady (ctx.evaluator.domainOfVariable v).run := by
  unfold Evaluator.domainOfVariable
  simp only
  split
  · exact steady_setOf _
  · exact (Steady.orFail (steady_boundsOfVariable v) (.pure _)).andThen fun r ↦ .ok _

theorem steady_isBounded (e : ExprKey) : Steady (ctx.evaluator.isBounded e).run :=
  ((steady_bounds e).map Option.isSome).map Except.ok

theorem steady_requiredBounds (operation : String) (e : ExprKey) :
    Steady (ctx.evaluator.requiredBounds operation e).run :=
  (steady_bounds e).orFail (.failureAt e _)

theorem steady_outcomesOfElements (e : ExprKey) :
    Steady (ctx.evaluator.outcomesOfElements e).run :=
  (steady_arrayOf e).andThen fun a ↦ .mapM a.elements fun x ↦ (steady_eval x).outcome

theorem steady_shapeOf (e : ExprKey) : Steady (ctx.evaluator.shapeOf e).run := by
  unfold Evaluator.shapeOf
  split
  · next rank _ =>
    exact (Steady.mapM (List.range rank) fun i ↦ steady_indexSet e (i + 1)).andThen fun sets ↦
      (Steady.ofOption _ _).andThen fun n ↦ .ok _
  · exact (steady_arrayOf e).andThen fun a ↦ .ok _

theorem steady_placeOf (e : ExprKey) (indices : List Integer) :
    Steady (ctx.evaluator.placeOf e indices).run :=
  (steady_arrayOf e).andThen fun a ↦ .ofExcept (a.place indices)

theorem steady_sharing (a b : ExprKey) : Steady (ctx.evaluator.sharing a b).run :=
  (steady_arrayOf a).andThen fun _ ↦ (steady_arrayOf b).andThen fun _ ↦ .ok _

theorem steady_reply (answer : α → Answer) {x : EvalM α} (hx : Steady x.run) :
    Steady (Evaluator.reply answer x) := by
  refine hx.bind fun r ↦ ?_
  cases r with
  | ok a => exact .pure _
  | error f => exact .pure _

/-! ### Queries -/

mutual

/-- Whether a query asks how much the state holds. -/
def Query.readsState : Query → Bool
  | .state => true
  | .inScope qs => anyReadsState qs
  | _ => false

/-- Whether one of some queries asks how much the state holds. -/
def Query.anyReadsState : List Query → Bool
  | [] => false
  | q :: qs => q.readsState || anyReadsState qs

end

private theorem Steady.answers {x : StepM α} (h : Steady x) (unread : Prop) :
    Traceless x ∧ (unread → Blind x) := ⟨h.traceless, fun _ ↦ h.blind⟩

mutual

/-- A query leaves no trace, and unless it asks how much the state holds it sees none. -/
theorem steady_answer (ctx : Context) : (q : Query) →
    Traceless (ctx.evaluator.answer q) ∧ (q.readsState = false → Blind (ctx.evaluator.answer q))
  | .value e => (steady_reply _ (steady_eval e)).answers _
  | .int e => (steady_reply _ (steady_intOf e)).answers _
  | .bool e => (steady_reply _ (steady_boolOf e)).answers _
  | .set e => (steady_reply _ (steady_setOf e)).answers _
  | .array e => (steady_reply _ (steady_arrayOf e)).answers _
  | .elements e => (steady_reply _ (steady_outcomesOfElements e)).answers _
  | .bounds e => ((steady_bounds e).map _).answers _
  | .isBounded e => (steady_reply _ (steady_isBounded e)).answers _
  | .boundsOfVariable v => ((steady_boundsOfVariable v).map _).answers _
  | .domainOfVariable v => (steady_reply _ (steady_domainOfVariable v)).answers _
  | .domain e => (steady_reply _ (steady_domainOf e)).answers _
  | .domainOfElements e => (steady_reply _ (steady_domainOfElements e)).answers _
  | .cardinality e => (steady_reply _ (steady_cardinality e)).answers _
  | .upperSet e => (steady_reply _ (steady_upperSet e)).answers _
  | .indexSet e k => (steady_reply _ (steady_indexSet e k)).answers _
  | .shape e => (steady_reply _ (steady_shapeOf e)).answers _
  | .place e indices => (steady_reply _ (steady_placeOf e indices)).answers _
  | .sharing a b => (steady_reply _ (steady_sharing a b)).answers _
  | .inScope qs => by
    obtain ⟨traceless, blind⟩ := steady_answerAll ctx qs
    refine ⟨traceless.inScope.map _, fun unread ↦ ?_⟩
    exact (Steady.map _ (Steady.inScope ⟨traceless, blind unread⟩)).blind
  | .state => by
    refine ⟨?_, fun unread ↦ by cases unread⟩
    intro s a t h
    cases h
    exact .refl s

theorem steady_answerAll (ctx : Context) : (qs : List Query) →
    Traceless (ctx.evaluator.answerAll qs) ∧
      (Query.anyReadsState qs = false → Blind (ctx.evaluator.answerAll qs))
  | [] => (Steady.pure []).answers _
  | q :: qs => by
    obtain ⟨first, firstBlind⟩ := steady_answer ctx q
    obtain ⟨rest, restBlind⟩ := steady_answerAll ctx qs
    refine ⟨first.bind fun a ↦ rest.bind fun as ↦ (Steady.pure _).traceless, fun unread ↦ ?_⟩
    obtain ⟨unread, unread'⟩ := Bool.or_eq_false_iff.1 unread
    have steady : Steady (ctx.evaluator.answer q) := ⟨first, firstBlind unread⟩
    have steady' : Steady (ctx.evaluator.answerAll qs) := ⟨rest, restBlind unread'⟩
    exact (steady.bind fun a ↦ steady'.bind fun as ↦ .pure (a :: as)).blind

end

/-! ### Sequences of queries -/

/-- A state that an evaluator comes to by answering queries and by opening and closing scopes,
with the states that the open scopes were opened in, the innermost first. -/
inductive Reached (ctx : Context) (limit : Option Nat) : EvalState → List EvalState → Prop where
  | fresh : Reached ctx limit (.fresh limit) []
  | query {s t : EvalState} {marks : List EvalState} {q : Query} {a : Answer}
      (before : Reached ctx limit s marks) (run : ctx.evaluator.answer q s = some (a, t)) :
      Reached ctx limit t marks
  | openScope {s : EvalState} {marks : List EvalState} (before : Reached ctx limit s marks) :
      Reached ctx limit s.openScope (s :: marks)
  | closeScope {s mark : EvalState} {marks : List EvalState}
      (before : Reached ctx limit s (mark :: marks)) : Reached ctx limit (mark.closeTo s) marks

/-- Since the innermost open scope was opened, or since the beginning, a state has not been
disturbed, and neither had the state that the scope was opened in. -/
private def Undisturbed.Since (limit : Option Nat) (s : EvalState) : List EvalState → Prop
  | [] => Undisturbed (.fresh limit) s
  | mark :: marks => Undisturbed mark.openScope s ∧ Since limit mark marks

private theorem Undisturbed.Since.trans {limit : Option Nat} {s t : EvalState}
    {marks : List EvalState} (h : Since limit s marks) (h' : Undisturbed s t) :
    Since limit t marks := by
  cases marks with
  | nil => exact EvalState.Undisturbed.trans h h'
  | cons mark marks => exact ⟨h.1.trans h', h.2⟩

private theorem Undisturbed.Since.pending_eq {limit : Option Nat} {s : EvalState}
    {marks : List EvalState} (h : Since limit s marks) : s.pending = .empty limit := by
  induction marks generalizing s with
  | nil => exact h.pending
  | cons mark marks ih =>
    have opened : s.pending = mark.pending := h.1.pending
    exact opened.trans (ih h.2)

private theorem Reached.undisturbed {limit : Option Nat} {s : EvalState} {marks : List EvalState}
    (h : Reached ctx limit s marks) : Undisturbed.Since limit s marks := by
  induction h with
  | fresh => exact EvalState.Undisturbed.refl _
  | query _ run ih => exact ih.trans ((steady_answer ctx _).1 _ _ _ run)
  | openScope _ ih => exact ⟨.refl _, ih⟩
  | closeScope _ ih =>
    rw [ih.1.closeTo_eq]
    exact ih.2

/-- In every state that an evaluator comes to, a query that is answered gives back the pending
declarations and the open scopes, keeps values on top of those that were kept and only within an
open scope; closing the innermost scope leads back to the state that it was opened in; and every
query that does not ask how much the state holds has the same answer, or as little comes to an
end, as from a fresh evaluator. -/
theorem queries_leave_no_trace (ctx : Context) (limit : Option Nat) (s : EvalState)
    (marks : List EvalState) (reached : Reached ctx limit s marks) :
    (∀ q a t, ctx.evaluator.answer q s = some (a, t) → t.pending = s.pending ∧
      t.scopes = s.scopes ∧ s.kept <:+ t.kept ∧ (s.scopes = 0 → t.kept = s.kept)) ∧
    (∀ mark rest, marks = mark :: rest → mark.closeTo s = mark) ∧
    ∀ q, q.readsState = false → (ctx.evaluator.answer q s).map Prod.fst =
      (ctx.evaluator.answer q (.fresh limit)).map Prod.fst := by
  have since := reached.undisturbed
  refine ⟨fun q a t run ↦ ?_, fun mark rest h ↦ ?_, fun q unread ↦ ?_⟩
  · obtain ⟨pending, scopes, kept, outside⟩ := (steady_answer ctx q).1 s a t run
    exact ⟨pending, scopes, kept, outside⟩
  · rw [h] at since
    exact since.1.closeTo_eq
  · obtain ⟨result, blind⟩ := (steady_answer ctx q).2 unread
    rw [blind, blind, since.pending_eq]
    rfl

/-- A scope that has come to keep an array closes without it, and until then asking the array for
an integer fails as it does to begin with. -/
theorem array_leaves_no_trace :
    ∃ s : EvalState, s.kept.length = 1 ∧
      Reached ⟨selfContaining, .empty⟩ none s [.fresh none] ∧
      EvalState.closeTo (.fresh none) s = .fresh none ∧
      ((Context.mk selfContaining .empty).evaluator.answer (.int ⟨0⟩) s).map Prod.fst =
        ((Context.mk selfContaining .empty).evaluator.answer (.int ⟨0⟩) (.fresh none)).map
          Prod.fst := by
  let ev := (Context.mk selfContaining .empty).evaluator
  have kept : (ev.answer (.value ⟨0⟩) (EvalState.fresh none).openScope).map (·.2.kept.length) =
      some 1 := by
    decide +kernel
  obtain ⟨⟨a, s⟩, run, length⟩ := Option.map_eq_some_iff.1 kept
  have reached : Reached ⟨selfContaining, .empty⟩ none s [.fresh none] :=
    .query (.openScope .fresh) run
  obtain ⟨-, closes, same⟩ := queries_leave_no_trace _ none s _ reached
  exact ⟨s, length, reached, closes _ _ rfl, same (.int ⟨0⟩) rfl⟩

end ConstraintEval
