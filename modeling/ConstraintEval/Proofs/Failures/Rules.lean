import ConstraintEval.Proofs.Failures.Places
import ConstraintEval.Proofs.Semantics.Determinism

/-!
# The rules of evaluation relay failures

One lemma for each rule. An expression that is no call places nothing but what its parts are not,
so what an operation fails for is placed at the expression that is evaluated.
-/

namespace ConstraintEval

variable {ctx : Context} {e : ExprKey} {cause : Cause} {α β : Type}

theorem Leads.definition_eq_none {v : VarKey} (h : Leads ctx e (.undefined v)) :
    (ctx.model.variableAt v).definition = none := by
  generalize eq : ChainEnd.undefined v = c at h
  induction h with
  | expression => cases eq
  | undefined form undefined =>
    cases eq
    exact undefined
  | definition form defined next ih => exact ih eq

namespace Relays

theorem lawful {x : Answers → EvalM α} (h : Relays ctx Failure.Plain x) :
    Relays ctx ctx.Lawful x := h.imp fun _ ↦ Failure.Plain.lawful

theorem of_bare {r : Except Failure α} (h : Bare r) :
    Relays ctx Failure.Plain fun _ ↦ EvalM.ofExcept r := by
  refine ofExcept fun f eq ↦ ?_
  obtain ⟨bare, brings⟩ := h f eq
  rw [bare]
  exact plain_of brings

theorem fail (h : cause.bringsPlace = false) :
    Relays ctx Failure.Plain fun _ ↦ (EvalM.fail cause : EvalM α) := throw (plain_of h)

theorem ofOption (h : cause.bringsPlace = false) (o : Option α) :
    Relays ctx Failure.Plain fun _ ↦ EvalM.ofOption cause o := by
  cases o with
  | none => exact fail h
  | some a => exact pure a

theorem failAt (e : ExprKey) (h : cause.bringsPlace = false) :
    Relays ctx ctx.Lawful fun _ ↦ (ctx.failAt e cause : EvalM α) := by
  refine of_const fun {s f t} run ↦ ?_
  obtain ⟨failed, -⟩ := Prod.mk.inj (Option.some.inj run)
  cases failed
  exact (lawful_of h).locate e s

theorem locatingLawful (e : ExprKey) {x : Answers → EvalM α} (h : Relays ctx ctx.Lawful x) :
    Relays ctx ctx.Lawful fun T ↦ ctx.locating e (x T) := h.locating e fun _ s own ↦ own.locate e s

/-! ### What the rules share -/

/-- A value of the wrong kind is placed where it is needed, which no operation has failed for. -/
private theorem ofKind (e : ExprKey) {r : Except Failure α} (h : Misfit r) :
    Relays ctx Failure.Plain fun _ ↦ ctx.locating e (EvalM.ofExcept r) := by
  refine (ofExcept h).locating e fun f s ⟨operation, expected, v, eq⟩ ↦ ?_
  subst eq
  obtain ⟨cause, span⟩ :=
    @relayed_locate ctx e (Value.kindFailure operation expected v) s
  refine ⟨by rw [cause]; rfl, fun place eq ↦ ?_, fun operation ↦ ?_⟩
  · rw [span] at eq
    exact Model.isNowhere_of_firstPlace? eq
  · rw [cause] at operation
    cases operation

theorem intOf (e : ExprKey) : Relays ctx Failure.Plain fun T ↦ (T.evaluator ctx).intOf e :=
  (eval e).bind fun v ↦ ofKind e v.misfit_asInt

theorem boolOf (e : ExprKey) : Relays ctx Failure.Plain fun T ↦ (T.evaluator ctx).boolOf e :=
  (eval e).bind fun v ↦ ofKind e v.misfit_asBool

theorem setOf (e : ExprKey) : Relays ctx Failure.Plain fun T ↦ (T.evaluator ctx).setOf e :=
  (eval e).bind fun v ↦ ofKind e v.misfit_asSet

theorem arrayOf (e : ExprKey) : Relays ctx Failure.Plain fun T ↦ (T.evaluator ctx).arrayOf e :=
  (eval e).bind fun v ↦ ofKind e v.misfit_asArray

/-- A rule that follows a chain of names relays failures where it does after the chain. -/
theorem chain {Own : Failure → Prop} (e : ExprKey) {f : Answers → ChainEnd → EvalM α}
    (own : ∀ f, ctx.Lawful f → f.cause.ofOperation = false → Own f)
    (expression : ∀ x, Leads ctx e (.expression x) → Relays ctx Own fun T ↦ f T (.expression x))
    (undefined : ∀ v, (ctx.model.variableAt v).definition = none →
      Relays ctx Own fun T ↦ f T (.undefined v)) :
    Relays ctx Own fun T ↦ ctx.chainEnd e >>= f T := by
  have follows : Relays ctx Own fun _ ↦ ctx.chainEnd e := by
    refine of_const fun {s f t} run ↦ ?_
    rw [Context.chainEnd_apply] at run
    obtain ⟨failed, -⟩ := Prod.mk.inj (Option.some.inj run)
    obtain ⟨lawful, other⟩ := lawful_followChain failed
    exact own f lawful other
  refine follows.bind_of_gives fun c _ gives ↦ ?_
  cases c with
  | expression x => exact expression x gives.of_chainEnd
  | undefined v => exact undefined v gives.of_chainEnd.definition_eq_none

/-- A rule that follows a chain of names before it looks for a domain. -/
private theorem domainChain (e : ExprKey) {f : Answers → ChainEnd → EvalM α}
    (expression : ∀ x, Relays ctx ctx.Lawful fun T ↦ f T (.expression x))
    (undefined : ∀ v, (ctx.model.variableAt v).definition = none →
      Relays ctx ctx.Lawful fun T ↦ f T (.undefined v)) :
    Relays ctx ctx.Lawful fun T ↦ ctx.chainEnd e >>= f T :=
  chain e (fun _ lawful _ ↦ lawful) (fun x _ ↦ expression x) undefined

/-! ### Domains and index sets -/

theorem domainOfDeclared {v : VarKey} (undefined : (ctx.model.variableAt v).definition = none)
    (operation : String) :
    Relays ctx ctx.Lawful fun T ↦ (T.evaluator ctx).domainOfDeclared v operation := by
  simp only [Evaluator.domainOfDeclared, Answers.toContext_evaluator]
  cases domain : (ctx.model.variableAt v).domain with
  | some d => exact (setOf d).lawful
  | none => exact throw (.inl ⟨_, rfl, .unknownBounds operation undefined domain⟩)

theorem domainOf (e : ExprKey) :
    Relays ctx ctx.Lawful fun T ↦ (T.evaluator ctx).domainOf e := by
  refine inScope (locatingLawful e (domainChain e (fun x ↦ ?_) fun v h ↦ domainOfDeclared h "dom"))
  simp only [Evaluator.refuseForm, Answers.toContext_evaluator]
  cases ctx.model.form x with
  | int v => exact pure _
  | _ => exact failAt x rfl

theorem arrayOfDomains (e : ExprKey) :
    Relays ctx ctx.Lawful fun T ↦ (T.evaluator ctx).arrayOfDomains e := by
  refine domainChain e (fun x ↦ ?_) fun v h ↦ throw (lawful_missingValue h)
  simp only [Evaluator.refuseForm, Answers.toContext_evaluator]
  cases ctx.model.form x with
  | array literal => exact (arrayOf x).lawful
  | call name f args => exact (arrayOf x).lawful
  | _ => exact failAt x rfl

theorem domainOfElements (e : ExprKey) :
    Relays ctx ctx.Lawful fun T ↦ (T.evaluator ctx).domainOfElements e :=
  inScope <| locatingLawful e <| (arrayOfDomains e).bind fun _ ↦
    foldlM _ _ fun _ x ↦ (domainOf x).bind fun _ ↦ pure _

theorem upperSet (e : ExprKey) :
    Relays ctx ctx.Lawful fun T ↦ (T.evaluator ctx).upperSet e := by
  refine inScope (locatingLawful e (domainChain e (fun x ↦ ?_) fun v h ↦ domainOfDeclared h "ub"))
  simp only [Evaluator.refuseForm, Answers.toContext_evaluator]
  cases ctx.model.form x with
  | set members => exact (setOf x).lawful
  | between lo hi => exact (setOf x).lawful
  | _ => exact failAt x rfl

theorem cardinality (e : ExprKey) :
    Relays ctx ctx.Lawful fun T ↦ (T.evaluator ctx).cardinality e := by
  refine (setOf e).lawful.bind fun s ↦ ?_
  cases s.size? with
  | some n => exact pure n
  | none => exact failAt e rfl

theorem indexSet (e : ExprKey) (dimension : Nat) :
    Relays ctx ctx.Lawful fun T ↦ (T.evaluator ctx).indexSet e dimension := by
  simp only [Evaluator.indexSet, Answers.toContext_evaluator]
  cases ctx.model.form e with
  | name name resolved =>
    cases resolved with
    | none => exact failAt e rfl
    | some v =>
      simp only
      cases Evaluator.entryOfDimension? (ctx.model.variableAt v).indexSets dimension with
      | none => exact failAt e rfl
      | some entry =>
        cases entry with
        | some set => exact (setOf set).lawful
        | none =>
          refine (arrayOf e).lawful.bind fun a ↦ ?_
          cases a.range? dimension with
          | some r => exact pure _
          | none => exact failAt e rfl
  | _ => exact failAt e rfl

/-! ### Builtins -/

theorem soleArg (name : String) (args : List ExprKey) :
    Relays ctx ctx.Lawful fun _ ↦ ConstraintEval.soleArg name args := by
  unfold ConstraintEval.soleArg
  split
  · exact pure _
  · exact (fail rfl).lawful

theorem furthest (side : Side) (operation : String) (vs : List Integer) :
    Relays ctx ctx.Lawful fun _ ↦ side.furthest operation vs := by
  cases vs with
  | nil => exact (fail rfl).lawful
  | cons v vs => exact pure _

theorem extremum (side : Side) (args : List ExprKey) :
    Relays ctx ctx.Lawful fun T ↦ (T.evaluator ctx).extremum side args := by
  unfold Evaluator.extremum
  split
  · next arg =>
    simp only [Answers.toContext_evaluator]
    exact (fail rfl).lawful.ite _ <| (arrayOf arg).lawful.bind fun a ↦
      (mapM a.elements fun x ↦ (intOf x).lawful).bind (furthest side _)
  · exact (intOf _).lawful.bind fun _ ↦ (intOf _).lawful.bind fun _ ↦ pure _
  · exact (fail rfl).lawful

theorem sum (args : List ExprKey) :
    Relays ctx ctx.Lawful fun T ↦ (T.evaluator ctx).sum args :=
  (soleArg _ args).bind fun arg ↦ (arrayOf arg).lawful.bind fun _ ↦
    foldlM _ _ fun _ x ↦ (intOf x).lawful.bind fun _ ↦ (ofOption rfl _).lawful

theorem allOf (args : List ExprKey) :
    Relays ctx ctx.Lawful fun T ↦ (T.evaluator ctx).allOf args :=
  (soleArg _ args).bind fun arg ↦ (arrayOf arg).lawful.bind fun a ↦
    allM a.elements fun x ↦ (boolOf x).lawful

theorem anyOf (args : List ExprKey) :
    Relays ctx ctx.Lawful fun T ↦ (T.evaluator ctx).anyOf args :=
  (soleArg _ args).bind fun arg ↦ (arrayOf arg).lawful.bind fun a ↦
    anyM a.elements fun x ↦ (boolOf x).lawful

theorem requiredBounds (operation : String) (e : ExprKey) :
    Relays ctx ctx.Lawful fun T ↦ (T.evaluator ctx).requiredBounds operation e :=
  orFail e fun s ↦ (lawful_of rfl).locate e s

theorem boundOfElements (side : Side) (args : List ExprKey) :
    Relays ctx ctx.Lawful fun T ↦ (T.evaluator ctx).boundOfElements side args :=
  (soleArg _ args).bind fun arg ↦ (arrayOf arg).lawful.bind fun a ↦
    (mapM a.elements fun x ↦ (requiredBounds _ x).bind fun _ ↦ pure _).bind (furthest side _)

theorem indexRange (operation : String) (set : ExprKey) :
    Relays ctx ctx.Lawful fun T ↦ (T.evaluator ctx).indexRange operation set := by
  refine (setOf set).lawful.bind fun s ↦ ?_
  cases s.interval? with
  | some r => exact pure r
  | none => exact failAt set rfl

theorem rearrange (dimensions : Nat) (args : List ExprKey) :
    Relays ctx ctx.Lawful fun T ↦ (T.evaluator ctx).rearrange dimensions args := by
  unfold Evaluator.rearrange
  simp only
  split
  · next sets flat _ =>
    refine (arrayOf flat).lawful.bind fun a ↦
      (mapM sets (indexRange _)).bind fun ranges ↦ ?_
    cases a.rearrange? ranges with
    | some b => exact pure b
    | none => exact failAt flat rfl
  · exact (fail rfl).lawful

theorem apply (args : List ExprKey) (b : Builtin) :
    Relays ctx ctx.Lawful fun T ↦ (T.evaluator ctx).apply args b := by
  cases b with
  | extremum side => exact (extremum side args).map _
  | extremumOfSet side =>
    exact ((soleArg _ args).bind fun a ↦ (setOf a).lawful.bind fun _ ↦
      (ofOption rfl _).lawful).map _
  | sum => exact (sum args).map _
  | length =>
    exact ((soleArg _ args).bind fun a ↦ (arrayOf a).lawful.bind fun _ ↦
      (ofOption rfl _).lawful).map _
  | boolToInt =>
    exact ((soleArg _ args).bind fun a ↦ (boolOf a).lawful.bind fun _ ↦ pure _).map _
  | allOf => exact (allOf args).map _
  | anyOf => exact (anyOf args).map _
  | cardinality => exact (soleArg _ args).bind fun a ↦ (cardinality a).bind fun _ ↦ pure _
  | isBounded => exact (soleArg _ args).bind fun a ↦ (succeeds a).bind fun _ ↦ pure _
  | bound side =>
    exact ((soleArg _ args).bind fun a ↦ (requiredBounds _ a).bind fun _ ↦ pure _).map _
  | boundOfElements side => exact (boundOfElements side args).map _
  | upperSet => exact (soleArg _ args).bind fun a ↦ (upperSet a).bind fun _ ↦ pure _
  | domain => exact (soleArg _ args).bind fun a ↦ (domainOf a).bind fun _ ↦ pure _
  | domainOfElements =>
    exact (soleArg _ args).bind fun a ↦ (domainOfElements a).bind fun _ ↦ pure _
  | indexSet k => exact (soleArg _ args).bind fun a ↦ (indexSet a k).bind fun _ ↦ pure _
  | rearrange n => exact (rearrange n args).map _

/-! ### Values -/

theorem valueOfBinary (op : BinaryOp) (left right : ExprKey) :
    Relays ctx Failure.Plain fun T ↦ (T.evaluator ctx).valueOfBinary op left right := by
  refine (eval left).bind fun a ↦ ?_
  cases op.decided? a with
  | some v => exact pure v
  | none => exact (eval right).bind fun b ↦ of_bare (op.bare_apply a b)

theorem valueOfElement (array : ExprKey) (indices : List ExprKey) :
    Relays ctx Failure.Plain fun T ↦ (T.evaluator ctx).valueOfElement array indices :=
  (arrayOf array).bind fun a ↦ (mapM indices intOf).bind fun is ↦
    (of_bare (a.bare_select is)).bind eval

theorem valueOfCall (name : String) (resolved : Option FnKey) (args : List ExprKey) :
    Relays ctx ctx.Lawful fun T ↦ (T.evaluator ctx).valueOfCall name resolved args := by
  cases resolved with
  | none => exact (fail rfl).lawful
  | some f =>
    simp only [Evaluator.valueOfCall, Answers.toContext_evaluator]
    cases ctx.registry.builtin? f with
    | none => exact (fail rfl).lawful
    | some b => exact (apply args b).inScope

/-- An expression that is no call has no place for what an operation fails for. -/
theorem valueByForm_of_uncalled (uncalled : (ctx.model.form e).isCall = false) :
    Relays ctx Failure.Plain fun T ↦ (T.evaluator ctx).valueByForm e := by
  simp only [Evaluator.valueByForm, Answers.toContext_evaluator]
  cases form : ctx.model.form e with
  | int v => exact pure _
  | bool b => exact pure _
  | set members => exact (mapM members intOf).bind fun _ ↦ pure _
  | between lo hi => exact (intOf lo).bind fun _ ↦ (intOf hi).bind fun _ ↦ pure _
  | name name resolved => exact eval e
  | array literal => exact of_bare ((LazyArray.bare_ofLiteral literal _).map Value.array)
  | element array indices => exact valueOfElement array indices
  | call name resolved args =>
    rw [form] at uncalled
    cases uncalled
  | binary op left right => exact valueOfBinary op left right
  | unary op operand => exact (eval operand).bind fun a ↦ of_bare (op.bare_apply a)
  | choice cond yes no =>
    refine (boolOf cond).bind fun b ↦ ?_
    cases b with
    | true => exact eval yes
    | false => exact eval no

theorem valueByForm (e : ExprKey) :
    Relays ctx ctx.Lawful fun T ↦ (T.evaluator ctx).valueByForm e := by
  cases form : ctx.model.form e with
  | call name resolved args =>
    simp only [Evaluator.valueByForm, Answers.toContext_evaluator, form]
    exact valueOfCall name resolved args
  | _ => exact (valueByForm_of_uncalled (by rw [form]; rfl)).lawful

end Relays

end ConstraintEval
