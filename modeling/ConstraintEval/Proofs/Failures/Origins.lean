import ConstraintEval.Proofs.Evaluation.Termination
import ConstraintEval.Proofs.Extension.Changes
import ConstraintEval.Proofs.Failures.Rules

/-!
# Where failures come from

When an evaluation fails, a line of nested evaluations leads from it to one that fails by itself,
and every evaluation on the line passes the failure on. The cause is the one there, and the place
is the place there or else that of the innermost expression on the line that has one. An
evaluation is placed at the expression that it starts from: where this is a name, the place of
what the name stands for does not count.
-/

namespace ConstraintEval

variable {ctx : Context} {e o x : ExprKey} {p q : Pending} {f g h : Failure} {s t : EvalState}
  {route : List ExprKey}

/-! ### Failures of the rules -/

/-- The value of an expression is that of the end of its chain, and failures are placed at the
expression. -/
private theorem rule_value (T : Answers) (e : ExprKey) (p : Pending) :
    ctx.rule T (.value e p) =
      ((ctx.chainEnd e >>= (T.evaluator ctx).valueOfEnd) ⟨p, [], 1⟩).map fun r ↦
        r.1.mapError fun f ↦ ctx.locate e f r.2 := by
  change ((EvalM.inScope (ctx.locating e (ctx.chainEnd e >>= (T.evaluator ctx).valueOfEnd)) >>=
    _) _).map Prod.fst = _
  rw [EvalM.bind_apply, EvalM.inScope_apply, Context.locating_apply]
  change Option.map _ (Option.bind (Option.map _ (Option.map _
    ((ctx.chainEnd e >>= (T.evaluator ctx).valueOfEnd) ⟨p, [], 1⟩))) _) = _
  cases (ctx.chainEnd e >>= (T.evaluator ctx).valueOfEnd) ⟨p, [], 1⟩ with
  | none => rfl
  | some r =>
    obtain ⟨r, t⟩ := r
    cases r <;> rfl

/-- How the evaluation of an expression fails by itself, before it is placed: an operation of an
expression that is no call has no place yet. -/
structure Context.OwnFailure (ctx : Context) (e : ExprKey) (f : Failure) : Prop where
  lawful : ctx.Lawful f
  unplaced : ∀ x, Leads ctx e (.expression x) → (ctx.model.form x).isCall = false →
    f.cause.ofOperation = true → f.span = none

private theorem relays_valueOfEnd (e : ExprKey) : Relays ctx (ctx.OwnFailure e) fun T ↦
    ctx.chainEnd e >>= (T.evaluator ctx).valueOfEnd := by
  refine .chain e (fun f lawful other ↦ ?_) (fun x leads ↦ ?_) fun v undefined ↦ ?_
  · exact ⟨lawful, fun _ _ _ operation ↦ absurd (other.symm.trans operation) Bool.false_ne_true⟩
  · cases call : (ctx.model.form x).isCall with
    | true =>
      refine (Relays.valueByForm x).imp fun f lawful ↦ ⟨lawful, fun y leads' uncalled _ ↦ ?_⟩
      cases leads.unique leads'
      exact absurd (uncalled.symm.trans call) Bool.false_ne_true
    | false =>
      exact (Relays.valueByForm_of_uncalled call).imp fun f plain ↦
        ⟨plain.lawful, fun _ _ _ operation ↦ plain.unplaced operation⟩
  · exact Relays.throw (f := ctx.missingValue v)
      ⟨lawful_missingValue undefined, fun _ _ _ operation ↦ (nomatch operation)⟩

/-- The rule for a value fails by itself, or passes on the failure of a value that it asks for. -/
private theorem rule_origin {T : Answers} (fails : ctx.rule T (.value e p) = some (.error f)) :
    (ctx.rule T.values (.value e p) = some (.error f) ∧
      ∃ g, ctx.OwnFailure e g ∧ ctx.model.Relayed [e] g f) ∨
    ∃ e' p' g es, T (.value e' p') = some (.error g) ∧
      ∀ g', ∃ f', ctx.rule (T.failing e' p' g') (.value e p) = some (.error f') ∧
        ctx.model.Relayed (es ++ [e]) g' f' := by
  rw [rule_value] at fails ⊢
  obtain ⟨⟨r, t⟩, run, eq⟩ := Option.map_eq_some_iff.1 fails
  cases r with
  | ok v => cases eq
  | error g =>
    cases eq
    rcases (relays_valueOfEnd e).origin run with ⟨own, run⟩ | ⟨e', p', g, es, failed, relays⟩
    · refine .inl ⟨?_, g, own, relayed_locate e g t⟩
      rw [run]
      rfl
    · refine .inr ⟨e', p', g, es, failed, fun g' ↦ ?_⟩
      obtain ⟨f', t', run, relayed⟩ := relays g'
      refine ⟨ctx.locate e f' t', ?_, relayed.trans (relayed_locate e f' t')⟩
      rw [rule_value, run]
      rfl

/-! ### Lines of failures -/

/-- The evaluation of an expression fails by itself: it does so with nothing but the values that
there are. -/
def Context.FailsItself (ctx : Context) (e : ExprKey) (p : Pending) (f : Failure) : Prop :=
  ctx.rule ctx.answers.values (.value e p) = some (.error f)

/-- An evaluation passes on the failures of another one: however that one fails, it fails for the
same cause, at the same place or else at the first of some expressions. -/
def Context.PassesOn (ctx : Context) (e : ExprKey) (p : Pending) (e' : ExprKey) (p' : Pending)
    (es : List ExprKey) : Prop :=
  ∀ g, ∃ f, ctx.rule (ctx.answers.failing e' p' g) (.value e p) = some (.error f) ∧
    ctx.model.Relayed es g f

/-- A line of nested evaluations, each of which passes on the failures of the next one, with the
expressions that they pass through on the way back. -/
inductive Context.Line (ctx : Context) :
    ExprKey → Pending → ExprKey → Pending → List ExprKey → Prop
  | here (e : ExprKey) (p : Pending) : Line ctx e p e p []
  | nested {e e' o : ExprKey} {p p' q : Pending} {es route : List ExprKey}
    (passes : ctx.PassesOn e p e' p' (es ++ [e])) (line : Line ctx e' p' o q route) :
    Line ctx e p o q (route ++ (es ++ [e]))

theorem Context.FailsItself.ownFailure (fails : ctx.FailsItself e p f) :
    ∃ g, ctx.OwnFailure e g ∧ ctx.model.Relayed [e] g f := by
  rcases rule_origin fails with ⟨-, own⟩ | ⟨e', p', g, es, failed, -⟩
  · exact own
  · obtain ⟨-, v, eq⟩ := Answers.values_eq_some_iff.1 failed
    cases eq

theorem Context.FailsItself.lawful (fails : ctx.FailsItself e p f) : ctx.Lawful f := by
  obtain ⟨g, own, relayed⟩ := fails.ownFailure
  exact own.lawful.relayed relayed

/-- What an operation fails for is placed at the expression from which it is evaluated. -/
theorem Context.FailsItself.span_eq_place? (fails : ctx.FailsItself e p f)
    (leads : Leads ctx e (.expression x)) (uncalled : (ctx.model.form x).isCall = false)
    (operation : f.cause.ofOperation = true) : f.span = ctx.model.firstPlace? [e] := by
  obtain ⟨g, own, cause, span⟩ := fails.ownFailure
  rw [cause] at operation
  rw [span, own.unplaced x leads uncalled operation, Option.none_or]

/-- Every failure has an origin. -/
private theorem exists_origin {n : Nat} (fails : ctx.answersAt n (.value e p) = some (.error f)) :
    ∃ o q route g, ctx.Line e p o q route ∧ ctx.FailsItself o q g ∧
      ctx.model.Relayed route g f := by
  induction n generalizing e p f with
  | zero => cases fails
  | succ n ih =>
    have le := @answersAt_le_answers ctx n
    rw [answersAt_succ] at fails
    rcases rule_origin fails with ⟨itself, -⟩ | ⟨e', p', g, es, failed, relays⟩
    · exact ⟨e, p, [], f, .here e p, rule_mono (Answers.values_mono le) _ _ itself,
        Model.relayed_nil⟩
    · obtain ⟨o, q, route, h, line, itself, relayed⟩ := ih failed
      have passes : ctx.PassesOn e p e' p' (es ++ [e]) := by
        intro g'
        obtain ⟨f', run, relayed⟩ := relays g'
        exact ⟨f', rule_mono (Answers.failing_mono le e' p' g') _ _ run, relayed⟩
      obtain ⟨f', run, relayed'⟩ := relays g
      rw [Answers.failing_eq_self failed, fails] at run
      cases run
      exact ⟨o, q, _, h, .nested passes line, itself, relayed.trans relayed'⟩

/-- Where a line leads to an evaluation that fails by itself, that failure comes back. -/
private theorem failure_of_line (line : ctx.Line e p o q route) (itself : ctx.FailsItself o q g) :
    ∃ f, ctx.answers (.value e p) = some (.error f) ∧ ctx.model.Relayed route g f := by
  induction line with
  | here e p =>
    refine ⟨g, ?_, Model.relayed_nil⟩
    rw [← rule_answers]
    exact rule_mono (Answers.values_le _) _ _ itself
  | nested passes _ ih =>
    obtain ⟨h, failed, relayed⟩ := ih itself
    obtain ⟨f, run, relayed'⟩ := passes h
    refine ⟨f, ?_, relayed.trans relayed'⟩
    rw [Answers.failing_eq_self failed, rule_answers] at run
    exact run

private theorem eval_eq_error_iff :
    ctx.evaluator.eval e s = some (.error f, t) ↔
      ctx.answers (.value e s.pending) = some (.error f) ∧ t = s := by
  rw [evaluator_eq, Answers.eval_evaluator]
  constructor
  · intro run
    obtain ⟨r, failed, eq⟩ := Option.map_eq_some_iff.1 run
    obtain ⟨rfl, rfl⟩ := Prod.mk.inj eq
    exact ⟨failed, rfl⟩
  · rintro ⟨failed, rfl⟩
    rw [failed]
    rfl

/-! ### Origins and places -/

/-- An evaluation that fails has an origin: a line of nested evaluations leads to one that fails
by itself, and the failure is the one there, placed at the first expression on the way back that
has a place unless it has one. Conversely, wherever a line leads to an evaluation that fails by
itself, that failure comes back. If an operation, an access or an array literal fails there, which
ends the chain of names that starts at the origin, then the place is that of the first expression
that has one, counted from the origin. So it is the place of what fails if it is evaluated under
no name, and the place of the name otherwise. -/
theorem failures_come_from_origins (ctx : Context) (e : ExprKey) (s : EvalState) :
    (∀ f t, ctx.evaluator.eval e s = some (.error f, t) →
      ∃ o q route g, ctx.Line e s.pending o q route ∧ ctx.FailsItself o q g ∧
        ctx.model.Relayed route g f) ∧
    (∀ o q route g, ctx.Line e s.pending o q route → ctx.FailsItself o q g →
      ∃ f, ctx.evaluator.eval e s = some (.error f, s) ∧ ctx.model.Relayed route g f ∧
        ∀ x, Leads ctx o (.expression x) → (ctx.model.form x).isCall = false →
          g.cause.ofOperation = true → f.span = ctx.model.firstPlace? (o :: route)) := by
  constructor
  · intro f t fails
    exact exists_origin (eval_eq_error_iff.1 fails).1
  · intro o q route g line itself
    obtain ⟨f, failed, relayed⟩ := failure_of_line line itself
    refine ⟨f, eval_eq_error_iff.2 ⟨failed, rfl⟩, relayed, fun x leads uncalled operation ↦ ?_⟩
    rw [relayed.2, itself.span_eq_place? leads uncalled operation, ← Model.firstPlace?_append,
      List.singleton_append]

/-- The division of 1 by 0, its negation, a variable that is defined by the division and a variable
without a value. Divisions, negations and names have places, and declarations have none. -/
def dividedByZero : List Change :=
  [.int .one, .int .zero, .node (.binary (.arith .div) ⟨0⟩ ⟨1⟩) ⟨10, 17⟩ (.int .par),
    .node (.unary .neg ⟨2⟩) ⟨9, 17⟩ (.int .par),
    .addVariable ⟨"x", .nowhere, .int .par, none, [], some ⟨2⟩⟩,
    .node (.name "x" (some ⟨0⟩)) ⟨1, 2⟩ (.int .par),
    .addVariable ⟨"y", .nowhere, .int .par, none, [], none⟩,
    .node (.name "y" (some ⟨1⟩)) ⟨3, 4⟩ (.int .par)]

/-- The model of these, without functions. -/
def dividedByZeroContext : Context := ⟨Model.empty.changed dividedByZero, .empty⟩

/-- The division fails at its place under the negation, and at the place of the name under the
name. -/
theorem failure_comes_from_division :
    dividedByZeroContext.model.span ⟨2⟩ = ⟨10, 17⟩ ∧
    Leads dividedByZeroContext ⟨4⟩ (.expression ⟨2⟩) ∧
    (∃ f, dividedByZeroContext.evaluator.eval ⟨3⟩ (.fresh none) = some (.error f, .fresh none) ∧
      f.cause = .zeroDivisor ∧ f.span = some ⟨10, 17⟩) ∧
    ∃ f, dividedByZeroContext.evaluator.eval ⟨4⟩ (.fresh none) = some (.error f, .fresh none) ∧
      f.cause = .zeroDivisor ∧ f.span = some ⟨1, 2⟩ := by
  have division : (((dividedByZeroContext.answers.values.evaluator dividedByZeroContext).valueStep
      ⟨2⟩ (.fresh none)).map Prod.fst) =
        some (.error ⟨.zeroDivisor, some ⟨10, 17⟩, none, []⟩) := by
    decide +kernel
  have name : (((dividedByZeroContext.answers.values.evaluator dividedByZeroContext).valueStep
      ⟨4⟩ (.fresh none)).map Prod.fst) =
        some (.error ⟨.zeroDivisor, some ⟨1, 2⟩, some [⟨"x", some ⟨1, 2⟩⟩], []⟩) := by
    decide +kernel
  have passes : dividedByZeroContext.PassesOn ⟨3⟩ (.empty none) ⟨2⟩ (.empty none) ([] ++ [⟨3⟩]) :=
    fun g ↦ ⟨dividedByZeroContext.locate ⟨3⟩ g ⟨.empty none, [], 1⟩, rfl, relayed_locate ..⟩
  have unnamed : Leads dividedByZeroContext ⟨2⟩ (.expression ⟨2⟩) := .expression nofun
  have named : Leads dividedByZeroContext ⟨4⟩ (.expression ⟨2⟩) := .definition rfl rfl unnamed
  obtain ⟨-, comesBack⟩ := failures_come_from_origins dividedByZeroContext ⟨3⟩ (.fresh none)
  obtain ⟨f, fails, relayed, place⟩ :=
    comesBack ⟨2⟩ _ [⟨3⟩] _ (.nested passes (.here ⟨2⟩ _)) division
  obtain ⟨-, comesBack⟩ := failures_come_from_origins dividedByZeroContext ⟨4⟩ (.fresh none)
  obtain ⟨f', fails', relayed', place'⟩ := comesBack ⟨4⟩ _ [] _ (.here ⟨4⟩ _) name
  exact ⟨rfl, named, ⟨f, fails, relayed.1, place ⟨2⟩ unnamed rfl rfl⟩, f', fails', relayed'.1,
    place' ⟨2⟩ named rfl rfl⟩

/-- An expression that has a place gives one to every failure of its evaluation. The place is
somewhere in the source, unless the failure brings one along: that of the declaration of a variable
without a value or a domain, or that of a name that leads to a pending declaration. -/
theorem failure_of_placed_expression (placed : (ctx.model.span e).isNowhere = false)
    (fails : ctx.evaluator.eval e s = some (.error f, t)) :
    ∃ span, f.span = some span ∧
      (ctx.Brings f.cause span ∨ f.cause.bringsPlace = false ∧ span.isNowhere = false) := by
  obtain ⟨failed, -⟩ := eval_eq_error_iff.1 fails
  have lawful : ctx.Lawful f := by
    obtain ⟨o, q, route, g, -, itself, relayed⟩ := exists_origin failed
    exact itself.lawful.relayed relayed
  have located : ∃ span, f.span = some span := by
    rw [← rule_answers, rule_value] at failed
    obtain ⟨⟨r, u⟩, -, eq⟩ := Option.map_eq_some_iff.1 failed
    cases r with
    | ok v => cases eq
    | error g =>
      cases eq
      obtain ⟨-, span⟩ := @relayed_locate ctx e g u
      rw [span]
      simp only [Model.firstPlace?, List.findSome?_cons, Model.place?, placed]
      cases g.span with
      | none => exact ⟨_, rfl⟩
      | some place => exact ⟨place, rfl⟩
  obtain ⟨span, located⟩ := located
  refine ⟨span, located, ?_⟩
  rcases lawful with ⟨place, placed, brings⟩ | ⟨brings, somewhere⟩
  · cases located.symm.trans placed
    exact .inl brings
  · exact .inr ⟨brings, somewhere span located⟩

/-- A name that has a place leads to a variable without a value, whose declaration has none: the
failure takes the place of the declaration, which is nowhere. -/
theorem failure_of_undefined_variable :
    dividedByZeroContext.model.span ⟨5⟩ = ⟨3, 4⟩ ∧
    ∃ f t, dividedByZeroContext.evaluator.eval ⟨5⟩ (.fresh none) = some (.error f, t) ∧
      f.span = some .nowhere ∧ dividedByZeroContext.Brings f.cause .nowhere := by
  let failure : Failure := ⟨.missingValue "y", some .nowhere, some [⟨"y", some ⟨3, 4⟩⟩], []⟩
  have shown : (dividedByZeroContext.evaluator.eval ⟨5⟩ (.fresh none)).map Prod.fst =
      some (.error failure) := by
    decide +kernel
  obtain ⟨⟨r, t⟩, fails, eq⟩ := Option.map_eq_some_iff.1 shown
  cases eq
  obtain ⟨span, located, place⟩ := failure_of_placed_expression rfl fails
  cases located
  refine ⟨rfl, failure, t, fails, rfl, ?_⟩
  rcases place with brings | ⟨brings, -⟩
  · exact brings
  · cases brings

end ConstraintEval
