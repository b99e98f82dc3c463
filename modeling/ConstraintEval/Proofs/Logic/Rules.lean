import ConstraintEval.Proofs.Logic.Basic

/-!
# The rules in a logic of evaluation

A logic that judges what an evaluator does with the expressions of a region judges the rules on
this region as well. One lemma for each rule; with all of them, a logic judges the steps for an
expression if it judges the evaluator below that expression.
-/

namespace ConstraintEval

open Relation

namespace Evaluator

/-- A logic judges what an evaluator does with the expressions of a region. -/
structure Handles (ev : Evaluator) (L : EvalLogic ev.toContext) (Q : ExprKey → Prop) : Prop where
  closed : ev.Closed Q
  keeps : ev.KeepsElements
  evals : ∀ x, Q x → L.Evals (ev.Reaches x) (ev.eval x)
  bounding : ∀ x, Q x → L.Bounds (ev.Reaches x) (ev.bounds x)

namespace Handles

variable {ev : Evaluator} {L : EvalLogic ev.toContext} {P Q : ExprKey → Prop}

theorem mono (h : ev.Handles L Q) (closed : ev.Closed P) (le : ∀ x, P x → Q x) :
    ev.Handles L P :=
  ⟨closed, h.keeps, fun x hx ↦ h.evals x (le x hx), fun x hx ↦ h.bounding x (le x hx)⟩

theorem inter (h : ev.Handles L Q) (closed : ev.Closed P) :
    ev.Handles L fun x ↦ Q x ∧ P x :=
  h.mono (fun e x he hx ↦ ⟨h.closed e x he.1 hx, closed e x he.2 hx⟩) fun _ hx ↦ hx.1

variable (h : ev.Handles L Q) {e x : ExprKey}

include h

/-! ### What the rules share -/

theorem elements {a : LazyArray} (hx : Q x) (array : Gives (ev.arrayOf x) a) :
    ∀ y ∈ a.elements, Q y :=
  fun y hy ↦ h.closed.reaches hx (reaches_elements h.keeps array y hy)

theorem eval (hx : Q x) : L.Evals Q (ev.eval x) :=
  L.weaken (fun _ reaches ↦ h.closed.reaches hx reaches) (h.evals x hx)

theorem bounds (hx : Q x) : L.Bounds Q (ev.bounds x) :=
  L.weaken_bounds (fun _ reaches ↦ h.closed.reaches hx reaches) (h.bounding x hx)

omit h in
theorem intOf_of_eval (hx : L.Evals P (ev.eval x)) : L.Evals P (ev.intOf x) :=
  L.bind hx fun v _ ↦ L.locating x (L.ofExcept v.misfit_asInt.bare.settled)

theorem intOf (hx : Q x) : L.Evals Q (ev.intOf x) := intOf_of_eval (h.eval hx)

theorem boolOf (hx : Q x) : L.Evals Q (ev.boolOf x) :=
  L.bind (h.eval hx) fun v _ ↦ L.locating x (L.ofExcept v.misfit_asBool.bare.settled)

theorem setOf (hx : Q x) : L.Evals Q (ev.setOf x) :=
  L.bind (h.eval hx) fun v _ ↦ L.locating x (L.ofExcept v.misfit_asSet.bare.settled)

theorem arrayOf (hx : Q x) : L.Evals Q (ev.arrayOf x) :=
  L.bind (h.eval hx) fun v _ ↦ L.locating x (L.ofExcept v.misfit_asArray.bare.settled)

/-- A rule that follows a chain of names is judged where the logic judges what follows. -/
theorem chain {α : Type} (he : Q e) {f : ChainEnd → EvalM α}
    (next : ∀ c P, ev.Handles L P → (∀ y, P y → Q y) → c.In ev.toContext P → L.Evals P (f c)) :
    L.Evals Q (EvalM.inScope (ev.locating e (ev.chainEnd e >>= f))) := by
  refine L.weaken (fun y reaches ↦ h.closed.reaches he reaches)
    (L.chain e fun c P leads closed inP ↦ ?_)
  refine L.weaken (fun y hy ↦ hy.2) (next c (fun y ↦ Q y ∧ P y) (h.inter closed) ?_ ?_)
  · exact fun y hy ↦ hy.1
  · have inQ := h.closed.chainEnd he leads
    cases c with
    | expression x => exact ⟨inQ, inP⟩
    | undefined v => exact fun d domain ↦ ⟨inQ d domain, inP d domain⟩

/-! ### Domains and index sets -/

theorem domainOfDeclared {v : VarKey} (operation : String)
    (hv : ∀ d, (ev.model.variableAt v).domain = some d → Q d) :
    L.Evals Q (ev.domainOfDeclared v operation) := by
  unfold Evaluator.domainOfDeclared
  simp only
  split
  · next d domain => exact h.setOf (hv d domain)
  · exact L.throw rfl

theorem domainOf (he : Q e) : L.Evals Q (ev.domainOf e) := by
  refine h.chain he fun c P h _ inEnd ↦ ?_
  cases c with
  | undefined v => exact h.domainOfDeclared "dom" inEnd
  | expression x =>
    simp only
    split
    · exact L.pure _
    · exact L.failAt _ rfl

theorem upperSet (he : Q e) : L.Evals Q (ev.upperSet e) := by
  refine h.chain he fun c P h _ inEnd ↦ ?_
  cases c with
  | undefined v => exact h.domainOfDeclared "ub" inEnd
  | expression x =>
    simp only
    split
    · exact h.setOf inEnd
    · exact h.setOf inEnd
    · exact L.failAt _ rfl

theorem domainOfElements (he : Q e) : L.Evals Q (ev.domainOfElements e) := by
  have union {P : ExprKey → Prop} {x : ExprKey} (h : ev.Handles L P) (hx : P x) :
      L.Evals P (ev.arrayOf x >>= fun a ↦ a.elements.foldlM
        (fun acc y ↦ return acc.union (← ev.domainOf y)) IntegerSet.empty) := by
    refine L.bind (h.arrayOf hx) fun a ha ↦ L.foldlM fun s y hy ↦ ?_
    exact L.bind (h.domainOf (h.elements hx ha y hy)) fun t _ ↦ L.pure _
  unfold Evaluator.domainOfElements arrayOfDomains
  simp only [bind_assoc]
  refine h.chain he fun c P h _ inEnd ↦ ?_
  cases c with
  | undefined v => exact L.bind (L.throw rfl) fun _ gives ↦ gives.not_throw.elim
  | expression x =>
    simp only
    split
    · exact union h inEnd
    · exact union h inEnd
    · exact L.bind (L.failAt _ rfl) fun _ gives ↦ gives.not_failAt.elim

theorem cardinality (he : Q e) : L.Evals Q (ev.cardinality e) := by
  refine L.bind (h.setOf he) fun s _ ↦ ?_
  split
  · exact L.pure _
  · exact L.failAt _ rfl

theorem indexSet (k : Nat) (he : Q e) (hsets : ∀ x ∈ ev.model.indexSetsOf e, Q x) :
    L.Evals Q (ev.indexSet e k) := by
  unfold Evaluator.indexSet
  split
  · next name v form =>
    simp only
    split
    · exact L.failAt _ rfl
    · next set entry => exact h.setOf (hsets set (Model.mem_indexSetsOf form entry))
    · refine L.bind (h.arrayOf he) fun a _ ↦ ?_
      split
      · exact L.pure _
      · exact L.failAt _ rfl
  · exact L.failAt _ rfl
  · exact L.failAt _ rfl

/-! ### Bounds -/

theorem boundsOfSet (hx : Q x) : L.Bounds Q (ev.boundsOfSet x) :=
  L.bind_bounds (L.bounds (h.setOf hx)) fun s _ ↦ L.ofOption s.hull?

theorem boundsOfDomain {domain : Option ExprKey} (hd : ∀ d, domain = some d → Q d) :
    L.Bounds Q (ev.boundsOfDomain domain) := by
  cases domain with
  | some d => exact h.boundsOfSet (hd d rfl)
  | none => exact L.failure

theorem boundsOfElements (hx : Q x) : L.Bounds Q (ev.boundsOfElements x) :=
  L.bind_bounds (L.bounds (h.arrayOf hx)) fun _ offers ↦
    L.mapM_bounds fun y hy ↦ h.bounds (h.elements hx offers.of_bounds y hy)

theorem hullOfElements (hx : Q x) : L.Bounds Q (ev.hullOfElements x) := by
  refine L.orElse (h.boundsOfDomain fun d domain ↦ ?_)
    (L.bind_bounds (h.boundsOfElements hx) fun _ _ ↦ L.ofOption _)
  unfold namedDomain at domain
  split at domain
  · next form => exact h.closed.domain hx form domain
  · cases domain

theorem boundsOfCall (name : String) {args : List ExprKey} (hargs : ∀ x ∈ args, Q x) :
    L.Bounds Q (ev.boundsOfCall name args) := by
  have pair {x y : ExprKey} (hargs : ∀ z ∈ [x, y], Q z) (f : Interval → Interval → Interval) :
      L.Bounds Q (do return f (← ev.bounds x) (← ev.bounds y)) :=
    L.bind_bounds (h.bounds (hargs x (by simp))) fun _ _ ↦
      L.bind_bounds (h.bounds (hargs y (by simp))) fun _ _ ↦ L.pure_bounds _
  have parts {x : ExprKey} (hargs : ∀ z ∈ [x], Q z) (f : List Interval → Option Interval) :
      L.Bounds Q (do BoundM.ofOption (f (← ev.boundsOfElements x))) :=
    L.bind_bounds (h.boundsOfElements (hargs x (by simp))) fun _ _ ↦ L.ofOption _
  unfold Evaluator.boundsOfCall
  split
  · exact L.pure_bounds _
  · exact pair hargs _
  · exact pair hargs _
  · exact parts hargs _
  · exact parts hargs _
  · exact L.bind_bounds (h.bounds (hargs _ (by simp))) fun _ _ ↦ L.pure_bounds _
  · exact L.bind_bounds (h.bounds (hargs _ (by simp))) fun _ _ ↦ L.pure_bounds _
  · exact parts hargs _
  · exact L.failure

omit h in
theorem boundsOfKnown (self : L.Evals P (ev.eval e)) : L.Bounds P (ev.boundsOfKnown e) := by
  unfold Evaluator.boundsOfKnown
  simp only
  split
  · exact L.bind_bounds (L.bounds (intOf_of_eval self)) fun _ _ ↦ L.pure_bounds _
  · exact L.failure

/-- The rule for a variable, after the visit to it has begun. -/
theorem boundsOfDeclared {v : VarKey} (parts : ∀ d ∈ ev.model.mentionedBy v, Q d) :
    L.Bounds Q (ev.boundsOfDomain (ev.model.variableAt v).domain <|>
      match (ev.model.variableAt v).definition with
      | some definition => ev.bounds definition
      | none => Alternative.failure) := by
  refine L.orElse (h.boundsOfDomain fun d domain ↦ parts d ?_) ?_
  · simp [Model.mentionedBy, domain]
  · split
    · next d defined => exact h.bounds (parts d (by simp [Model.mentionedBy, defined]))
    · exact L.failure

theorem boundsByForm (parts : ∀ y ∈ (ev.model.form e).operands, Q y)
    (unnamed : ∀ name v, ev.model.form e ≠ .name name (some v)) :
    L.Bounds Q (ev.boundsByForm e) := by
  unfold Evaluator.boundsByForm
  split
  · next name v form => exact (unnamed name v form).elim
  · next op left right form =>
    rw [form] at parts
    refine L.bind_bounds (h.bounds (parts left (by simp [Form.operands]))) fun _ _ ↦ ?_
    exact L.bind_bounds (h.bounds (parts right (by simp [Form.operands]))) fun _ _ ↦ L.ofOption _
  · next operand form =>
    rw [form] at parts
    exact L.bind_bounds (h.bounds (parts operand (by simp [Form.operands]))) fun _ _ ↦ L.ofOption _
  · next cond yes no form =>
    rw [form] at parts
    refine L.bind_bounds (h.bounds (parts yes (by simp [Form.operands]))) fun _ _ ↦ ?_
    exact L.bind_bounds (h.bounds (parts no (by simp [Form.operands]))) fun _ _ ↦ L.pure_bounds _
  · next array indices form =>
    rw [form] at parts
    exact h.hullOfElements (parts array List.mem_cons_self)
  · next name f args form =>
    rw [form] at parts
    split
    · exact h.boundsOfCall name parts
    · exact L.failure
  · exact L.failure

/-! ### Builtins -/

omit h in
private theorem soleArg {α : Type} (name : String) (args : List ExprKey) {f : ExprKey → EvalM α}
    (hf : ∀ x, args = [x] → L.Evals Q (f x)) :
    L.Evals Q (ConstraintEval.soleArg name args >>= f) := by
  unfold ConstraintEval.soleArg
  split
  · next x => exact L.bind (L.pure x) fun _ gives ↦ gives.of_pure ▸ hf x rfl
  · exact L.bind (L.fail rfl) fun _ gives ↦ gives.not_fail.elim

omit h in
private theorem furthest (side : Side) (operation : String) (is : List Integer) :
    L.Evals Q (side.furthest operation is) := by
  cases is with
  | nil => exact L.fail rfl
  | cons i is => exact L.pure _

section Arguments

variable {args : List ExprKey} (hargs : ∀ x ∈ args, Q x)

include hargs

theorem extremum (side : Side) : L.Evals Q (ev.extremum side args) := by
  unfold Evaluator.extremum
  split
  · next x =>
    split
    · exact L.fail rfl
    · have hx := hargs x (by simp)
      refine L.bind (h.arrayOf hx) fun a ha ↦ ?_
      refine L.bind (L.mapM fun y hy ↦ ?_) fun is _ ↦ furthest side _ is
      exact h.intOf (h.elements hx ha y hy)
  · next x y =>
    refine L.bind (h.intOf (hargs x (by simp))) fun i _ ↦ ?_
    exact L.bind (h.intOf (hargs y (by simp))) fun j _ ↦ L.pure _
  · exact L.fail rfl

theorem sum : L.Evals Q (ev.sum args) := by
  refine soleArg "sum" args fun x sole ↦ ?_
  have hx := hargs x (by simp [sole])
  refine L.bind (h.arrayOf hx) fun a ha ↦ L.foldlM fun total y hy ↦ ?_
  exact L.bind (h.intOf (h.elements hx ha y hy)) fun i _ ↦ L.ofOption_eval rfl _

theorem allOf : L.Evals Q (ev.allOf args) := by
  refine soleArg "forall" args fun x sole ↦ ?_
  have hx := hargs x (by simp [sole])
  refine L.bind (h.arrayOf hx) fun a ha ↦ L.allM fun y hy ↦ ?_
  exact h.boolOf (h.elements hx ha y hy)

theorem anyOf : L.Evals Q (ev.anyOf args) := by
  refine soleArg "exists" args fun x sole ↦ ?_
  have hx := hargs x (by simp [sole])
  refine L.bind (h.arrayOf hx) fun a ha ↦ L.anyM fun y hy ↦ ?_
  exact h.boolOf (h.elements hx ha y hy)

theorem bound (side : Side) (searches : L.Searches Q) : L.Evals Q (ev.bound side args) := by
  refine soleArg side.boundName args fun x sole ↦ ?_
  have hx := hargs x (by simp [sole])
  exact L.bind (L.orFail x rfl searches (h.bounds hx)) fun _ _ ↦ L.pure _

theorem boundOfElements (side : Side) (searches : L.Searches Q) :
    L.Evals Q (ev.boundOfElements side args) := by
  refine soleArg side.arrayBoundName args fun x sole ↦ ?_
  have hx := hargs x (by simp [sole])
  refine L.bind (h.arrayOf hx) fun a ha ↦ ?_
  refine L.bind (L.mapM fun y hy ↦ ?_) fun is _ ↦ furthest side _ is
  have hy := h.elements hx ha y hy
  exact L.bind (L.orFail y rfl searches (h.bounds hy)) fun _ _ ↦ L.pure _

theorem rearrange (dimensions : Nat) : L.Evals Q (ev.rearrange dimensions args) := by
  unfold Evaluator.rearrange
  simp only
  split
  · next sets flat split =>
    rw [List.splitAt_eq, Prod.mk.injEq] at split
    have hflat : Q flat :=
      hargs flat (List.mem_of_mem_drop (split.2 ▸ List.mem_singleton_self flat))
    refine L.bind (h.arrayOf hflat) fun a _ ↦ L.bind (L.mapM fun x hx ↦ ?_) fun ranges _ ↦ ?_
    · rw [← split.1] at hx
      refine L.bind (h.setOf (hargs x (List.mem_of_mem_take hx))) fun s _ ↦ ?_
      split
      · exact L.pure _
      · exact L.failAt _ rfl
    · split
      · exact L.pure _
      · exact L.failAt _ rfl
  · exact L.fail rfl

end Arguments

theorem apply {args : List ExprKey} {b : Builtin}
    (parts : ∀ x ∈ ev.model.mentionedByCall args b, Q x)
    (searches : b.looksForBounds = true → L.Searches Q) : L.Evals Q (ev.apply args b) := by
  have hargs : ∀ x ∈ args, Q x := fun x hx ↦ parts x (Model.mem_mentionedByCall b hx)
  have sole {x : ExprKey} (eq : args = [x]) : Q x := hargs x (by simp [eq])
  cases b with
  | extremum side => exact L.map Value.int (h.extremum hargs side)
  | extremumOfSet side =>
    refine L.map Value.int (soleArg _ args fun x eq ↦ ?_)
    exact L.bind (h.setOf (sole eq)) fun s _ ↦ L.ofOption_eval rfl _
  | sum => exact L.map Value.int (h.sum hargs)
  | length =>
    refine L.map Value.int (soleArg _ args fun x eq ↦ ?_)
    exact L.bind (h.arrayOf (sole eq)) fun a _ ↦ L.ofOption_eval rfl _
  | boolToInt =>
    refine L.map Value.int (soleArg _ args fun x eq ↦ ?_)
    exact L.bind (h.boolOf (sole eq)) fun b _ ↦ L.pure _
  | allOf => exact L.map Value.bool (h.allOf hargs)
  | anyOf => exact L.map Value.bool (h.anyOf hargs)
  | cardinality =>
    exact soleArg _ args fun x eq ↦ L.bind (h.cardinality (sole eq)) fun _ _ ↦ L.pure _
  | isBounded =>
    refine soleArg _ args fun x eq ↦ ?_
    exact L.bind (L.succeeds (searches rfl) (h.bounds (sole eq))) fun _ _ ↦ L.pure _
  | bound side => exact L.map Value.int (h.bound hargs side (searches rfl))
  | boundOfElements side => exact L.map Value.int (h.boundOfElements hargs side (searches rfl))
  | upperSet =>
    exact soleArg _ args fun x eq ↦ L.bind (h.upperSet (sole eq)) fun _ _ ↦ L.pure _
  | domain =>
    exact soleArg _ args fun x eq ↦ L.bind (h.domainOf (sole eq)) fun _ _ ↦ L.pure _
  | domainOfElements =>
    exact soleArg _ args fun x eq ↦ L.bind (h.domainOfElements (sole eq)) fun _ _ ↦ L.pure _
  | indexSet k =>
    refine soleArg _ args fun x eq ↦
      L.bind (h.indexSet k (sole eq) fun y hy ↦ ?_) fun _ _ ↦ L.pure _
    exact parts y (Model.mem_mentionedByCall_indexSet k (by simp [eq]) hy)
  | rearrange n => exact L.map Value.array (h.rearrange hargs n)

/-! ### Values -/

theorem valueOfElement {source : ExprKey} {indices : List ExprKey}
    (parts : ∀ x ∈ source :: indices, Q x) : L.Evals Q (ev.valueOfElement source indices) := by
  obtain ⟨hsource, hindices⟩ := List.forall_mem_cons.1 parts
  refine L.bind (h.arrayOf hsource) fun a ha ↦ ?_
  refine L.bind (L.mapM fun x hx ↦ h.intOf (hindices x hx)) fun is _ ↦ ?_
  refine L.bind (L.ofExcept (a.bare_select is).settled) fun x selected ↦ ?_
  exact h.eval (h.elements hsource ha x (mem_elements_of_select selected.of_ofExcept))

/-- A call stays among what its expression mentions, whatever the builtin asks for. -/
theorem valueOfCall {name : String} {resolved : Option FnKey} {args : List ExprKey}
    (form : ev.model.form e = .call name resolved args) (parts : ∀ y ∈ ev.mentioned e, Q y)
    (searches : ev.LooksForBounds e → L.Searches (ev.Below e)) :
    L.Evals Q (ev.valueOfCall name resolved args) := by
  unfold Evaluator.valueOfCall
  split
  · exact L.fail rfl
  · next f =>
    split
    · exact L.fail rfl
    · next b bound =>
      have le : ∀ x, ev.Below e x → Q x := fun x below ↦ h.closed.below parts below
      have below := h.mono (closed_below ev.toContext e) le
      refine L.inScope (L.weaken le (below.apply (fun x hx ↦ .single ?_) fun looks ↦ ?_))
      · simpa only [Context.mentioned, form, bound] using hx
      · exact searches ⟨name, f, args, b, form, bound, looks⟩

theorem valueByForm (unnamed : ∀ name resolved, ev.model.form e ≠ .name name resolved)
    (parts : ∀ y ∈ ev.mentioned e, Q y)
    (searches : ev.LooksForBounds e → L.Searches (ev.Below e)) :
    L.Evals Q (ev.valueByForm e) := by
  have operands : ∀ y ∈ (ev.model.form e).operands, Q y :=
    fun y hy ↦ parts y (Context.mem_mentioned_of_mem_operands hy)
  unfold Evaluator.valueByForm
  split
  · exact L.pure _
  · exact L.pure _
  · next members form =>
    rw [form] at operands
    exact L.bind (L.mapM fun x hx ↦ h.intOf (operands x hx)) fun is _ ↦ L.pure _
  · next lo hi form =>
    rw [form] at operands
    refine L.bind (h.intOf (operands lo (by simp [Form.operands]))) fun i _ ↦ ?_
    exact L.bind (h.intOf (operands hi (by simp [Form.operands]))) fun j _ ↦ L.pure _
  · next name resolved form => exact (unnamed name resolved form).elim
  · next literal form =>
    exact L.ofExcept ((LazyArray.bare_ofLiteral literal _).map Value.array).settled
  · next source indices form =>
    rw [form] at operands
    exact h.valueOfElement operands
  · next name resolved args form => exact h.valueOfCall form parts searches
  · next op left right form =>
    rw [form] at operands
    refine L.bind (h.eval (operands left (by simp [Form.operands]))) fun a _ ↦ ?_
    split
    · exact L.pure _
    · refine L.bind (h.eval (operands right (by simp [Form.operands]))) fun b _ ↦ ?_
      exact L.ofExcept (BinaryOp.bare_apply op a b).settled
  · next op x form =>
    rw [form] at operands
    refine L.bind (h.eval (operands x (by simp [Form.operands]))) fun a _ ↦ ?_
    exact L.ofExcept (UnaryOp.bare_apply op a).settled
  · next cond yes no form =>
    rw [form] at operands
    refine L.bind (h.boolOf (operands cond (by simp [Form.operands]))) fun b _ ↦ ?_
    cases b with
    | true => exact h.eval (operands yes (by simp [Form.operands]))
    | false => exact h.eval (operands no (by simp [Form.operands]))

end Handles

/-! ### Steps -/

variable {ev : Evaluator} {L : EvalLogic ev.toContext} {e : ExprKey}
  (below : ev.Handles L (ev.Below e))

include below

/-- A logic judges the value of an expression if it judges the evaluator below the expression. -/
theorem evals_valueStep
    (searches : ∀ x, ev.Reaches e x → ev.LooksForBounds x → L.Searches (ev.Below x)) :
    L.Evals (ev.Reaches e) (ev.valueStep e) := by
  refine L.bind (L.chain e fun c P leads closed inEnd ↦ ?_) fun v _ ↦ L.keep v
  cases c with
  | undefined v => exact L.throw rfl
  | expression x =>
    have parts : ∀ y ∈ ev.mentioned x, ev.Below e y ∧ P y :=
      fun y hy ↦ ⟨.tail' leads.reaches hy, closed x y inEnd hy⟩
    exact L.weaken (fun y hy ↦ hy.2)
      ((below.inter closed).valueByForm leads.unnamed parts (searches x leads.reaches))

/-- A logic judges the bounds of an expression if it judges its value and the evaluator below the
expression. -/
theorem bounds_boundsStep (self : L.Evals (ev.Reaches e) (ev.eval e)) :
    L.Bounds (ev.Reaches e) (ev.boundsStep e) := by
  have le : ∀ y, ev.Below e y → ev.Reaches e y := fun y below ↦ below.to_reflTransGen
  have known := Handles.boundsOfKnown self
  have byForm (unnamed : ∀ name v, ev.model.form e ≠ .name name (some v)) :
      L.Bounds (ev.Reaches e) (ev.boundsByForm e) :=
    L.weaken_bounds le
      (below.boundsByForm (fun y hy ↦ .single (Context.mem_mentioned_of_mem_operands hy)) unnamed)
  unfold Evaluator.boundsStep
  split
  · exact L.inScope_bounds (L.pure_bounds _)
  · cases form : ev.model.form e with
    | name name resolved =>
      cases resolved with
      | none => exact L.inScope_bounds (L.orElse known (byForm (by simp [form])))
      | some v =>
        simp only [Evaluator.boundsByForm, form]
        refine L.visit form known fun P closed parts ↦ ?_
        have mentioned : ∀ d ∈ ev.model.mentionedBy v, ev.Below e d ∧ P d := by
          intro d hd
          refine ⟨.single ?_, parts d hd⟩
          simpa only [Context.mentioned, form] using hd
        exact L.weaken_bounds (fun y hy ↦ hy.2) ((below.inter closed).boundsOfDeclared mentioned)
    | _ => exact L.inScope_bounds (L.orElse known (byForm (by simp [form])))

omit below in
/-- An evaluator of levels by its parts, for the logics of a context. -/
theorem ofLevels_eq_mk (ctx : Context) (n : Nat) :
    ofLevels ctx n = ⟨ctx, (ofLevels ctx n).eval, (ofLevels ctx n).bounds⟩ := by
  cases n <;> rfl

end Evaluator

end ConstraintEval
