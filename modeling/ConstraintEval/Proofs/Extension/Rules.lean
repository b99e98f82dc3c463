import ConstraintEval.Proofs.Bounds.Offers
import ConstraintEval.Proofs.Extension.Values

/-!
# Evaluation in a region

Two evaluators that agree on a region, declared domains included, do the same by every rule there.
The rules that find values are those of evaluators that resemble each other; to these come the rules
that read domains and look for bounds. One lemma for each rule; with all of them, evaluators that
agree go on to agree with one more level.
-/

namespace ConstraintEval

variable {α β : Type}

theorem bind_eq_of_offers {x x' : BoundM α} {f f' : α → BoundM β} (hx : x' = x)
    (hf : ∀ a, Offers x a → f' a = f a) : x' >>= f' = x >>= f := by
  funext s
  rw [hx, BoundM.bind_apply, BoundM.bind_apply]
  cases run : x s with
  | none => rfl
  | some r =>
    obtain ⟨r, t⟩ := r
    cases r with
    | none => rfl
    | some a => exact congrFun (hf a ⟨s, t, run⟩) t

namespace Evaluator

/-- Two evaluators read and do the same in a region. -/
structure Agrees (ev ev' : Evaluator) (P : ExprKey → Prop) (V : VarKey → Prop) : Prop
    extends toContext : Context.Agrees ev.toContext ev'.toContext P V where
  keeps : ev.KeepsElements
  eval : ∀ e, P e → ev'.eval e = ev.eval e
  bounds : ∀ e, P e → ev'.bounds e = ev.bounds e

namespace Agrees

variable {ev ev' : Evaluator} {P : ExprKey → Prop} {V : VarKey → Prop} {e x : ExprKey} {v : VarKey}
  (h : ev.Agrees ev' P V)

include h

theorem resembles : ev.Resembles ev' P V :=
  { h.toContext.resembles with
    keeps := h.keeps
    eval := h.eval }

/-! ### Domains and index sets -/

theorem domainOfDeclared (operation : String) (hv : V v) :
    ev'.domainOfDeclared v operation = ev.domainOfDeclared v operation := by
  unfold Evaluator.domainOfDeclared
  simp only [h.variableAt v hv]
  split
  · next d domain => exact h.resembles.setOf (h.given_domain hv domain)
  · rfl

theorem refuseForm (operation : String) (hx : P x) :
    (ev'.refuseForm operation x : EvalM α) = ev.refuseForm operation x := by
  rw [Evaluator.refuseForm, Evaluator.refuseForm, h.resembles.form hx, h.resembles.failAt hx]

theorem domainOf (he : P e) : ev'.domainOf e = ev.domainOf e := by
  refine h.resembles.chain he fun c within ↦ ?_
  cases c with
  | undefined v => exact h.domainOfDeclared "dom" within
  | expression x => simp only [h.resembles.form within, h.refuseForm "dom" within]

theorem upperSet (he : P e) : ev'.upperSet e = ev.upperSet e := by
  refine h.resembles.chain he fun c within ↦ ?_
  cases c with
  | undefined v => exact h.domainOfDeclared "ub" within
  | expression x =>
    simp only [h.resembles.form within, h.resembles.setOf within, h.refuseForm "ub" within]

theorem arrayOfDomains (he : P e) : ev'.arrayOfDomains e = ev.arrayOfDomains e := by
  refine bind_eq_of_gives (h.resembles.chainEnd he) fun c hc ↦ ?_
  have within := h.resembles.chainEnd_within he (Gives.of_chainEnd hc)
  cases c with
  | undefined v => simp only [h.resembles.missingValue within]
  | expression x =>
    simp only [h.resembles.form within, h.resembles.arrayOf within,
      h.refuseForm "dom_array" within]

private theorem elements_of_arrayOfDomains (he : P e) {a : LazyArray}
    (array : Gives (ev.arrayOfDomains e) a) : ∀ y ∈ a.elements, P y := by
  obtain ⟨c, hc, array⟩ := array.of_bind
  have within := h.resembles.chainEnd_within he (Gives.of_chainEnd hc)
  cases c with
  | undefined v => exact array.not_throw.elim
  | expression x =>
    simp only at array
    split at array
    · exact h.resembles.elements within array
    · exact h.resembles.elements within array
    · exact array.not_failAt.elim

theorem domainOfElements (he : P e) : ev'.domainOfElements e = ev.domainOfElements e := by
  unfold Evaluator.domainOfElements
  rw [h.resembles.locating he]
  congr 2
  refine bind_eq_of_gives (h.arrayOfDomains he) fun a ha ↦ foldlM_eq_of_mem fun s y hy ↦ ?_
  rw [h.domainOf (h.elements_of_arrayOfDomains he ha y hy)]

theorem indexSet (k : Nat) (he : P e) : ev'.indexSet e k = ev.indexSet e k := by
  refine h.resembles.indexSet k he fun d mem ↦ ?_
  unfold Model.indexSetsOf at mem
  split at mem
  · next name v form => exact h.given_indexSet (h.named e name v he form) (by simpa using mem)
  · cases mem

/-! ### Bounds -/

theorem boundsOfSet (hx : P x) : ev'.boundsOfSet x = ev.boundsOfSet x := by
  rw [Evaluator.boundsOfSet, Evaluator.boundsOfSet, h.resembles.setOf hx]

theorem boundsOfDomain {domain : Option ExprKey} (hd : ∀ d, domain = some d → P d) :
    ev'.boundsOfDomain domain = ev.boundsOfDomain domain := by
  cases domain with
  | some d => exact h.boundsOfSet (hd d rfl)
  | none => rfl

theorem boundsOfEntered (hv : V v) : ev'.boundsOfEntered v = ev.boundsOfEntered v := by
  funext span
  unfold Evaluator.boundsOfEntered
  simp only [h.resembles.enter hv, h.variableAt v hv, h.boundsOfDomain fun d ↦ h.given_domain hv]
  cases defined : (ev.model.variableAt v).definition with
  | none => rfl
  | some d => simp only [h.bounds d (h.given_definition hv defined)]

theorem boundsOfElements (hx : P x) : ev'.boundsOfElements x = ev.boundsOfElements x := by
  refine bind_eq_of_offers (by rw [h.resembles.arrayOf hx]) fun a ha ↦ mapM_eq_of_mem fun y hy ↦ ?_
  exact h.bounds y (h.resembles.elements hx ha.of_bounds y hy)

theorem hullOfElements (hx : P x) : ev'.hullOfElements x = ev.hullOfElements x := by
  unfold Evaluator.hullOfElements namedDomain
  rw [h.resembles.form hx, h.boundsOfElements hx]
  split
  · next name v form =>
    have hv := h.named x name v hx form
    rw [h.variableAt v hv, h.boundsOfDomain fun d ↦ h.given_domain hv]
  · rfl

theorem boundsOfCall (name : String) {args : List ExprKey} (hargs : ∀ x ∈ args, P x) :
    ev'.boundsOfCall name args = ev.boundsOfCall name args := by
  have bounds {x : ExprKey} (mem : x ∈ args) := h.bounds x (hargs x mem)
  have elements {x : ExprKey} (mem : x ∈ args) := h.boundsOfElements (hargs x mem)
  unfold Evaluator.boundsOfCall
  split
  · rfl
  · next a b => rw [bounds (x := a) (by simp), bounds (x := b) (by simp)]
  · next a b => rw [bounds (x := a) (by simp), bounds (x := b) (by simp)]
  · next array => rw [elements (x := array) (by simp)]
  · next array => rw [elements (x := array) (by simp)]
  · next a => rw [bounds (x := a) (by simp)]
  · next a => rw [bounds (x := a) (by simp)]
  · next array => rw [elements (x := array) (by simp)]
  · rfl

theorem boundsByForm (he : P e) : ev'.boundsByForm e = ev.boundsByForm e := by
  have operands := h.operands e he
  unfold Evaluator.boundsByForm
  rw [h.resembles.form he, h.resembles.span he, h.registry]
  split
  · next name v form => rw [h.boundsOfEntered (h.named e name v he form)]
  · next op left right form =>
    rw [form] at operands
    simp only [h.bounds left (operands left (by simp [Form.operands])),
      h.bounds right (operands right (by simp [Form.operands]))]
  · next operand form =>
    rw [form] at operands
    rw [h.bounds operand (operands operand (by simp [Form.operands]))]
  · next cond yes no form =>
    rw [form] at operands
    simp only [h.bounds yes (operands yes (by simp [Form.operands])),
      h.bounds no (operands no (by simp [Form.operands]))]
  · next array indices form =>
    rw [form] at operands
    exact h.hullOfElements (operands array List.mem_cons_self)
  · next name f args form =>
    rw [form] at operands
    have hargs : ∀ x ∈ args, P x := operands
    rw [h.boundsOfCall name hargs]
  · rfl

theorem boundsOfKnown (he : P e) : ev'.boundsOfKnown e = ev.boundsOfKnown e := by
  unfold Evaluator.boundsOfKnown
  rw [h.resembles.ty he, h.resembles.intOf he]

theorem boundsStep (he : P e) : ev'.boundsStep e = ev.boundsStep e := by
  unfold Evaluator.boundsStep
  rw [h.resembles.form he, h.boundsOfKnown he, h.boundsByForm he]

theorem boundsOfVariable (hv : V v) : ev'.boundsOfVariable v = ev.boundsOfVariable v := by
  rw [Evaluator.boundsOfVariable, Evaluator.boundsOfVariable, h.boundsOfEntered hv,
    h.variableAt v hv]

/-! ### Builtins -/

theorem isBounded (hx : P x) : ev'.isBounded x = ev.isBounded x := by
  rw [Evaluator.isBounded, Evaluator.isBounded, h.bounds x hx]

theorem requiredBounds (operation : String) (hx : P x) :
    ev'.requiredBounds operation x = ev.requiredBounds operation x := by
  rw [Evaluator.requiredBounds, Evaluator.requiredBounds, h.bounds x hx, h.resembles.failureAt hx]

section Arguments

variable {args : List ExprKey} (hargs : ∀ x ∈ args, P x)

include hargs

theorem bound (side : Side) : ev'.bound side args = ev.bound side args :=
  Resembles.soleArg hargs _ fun x hx ↦ by rw [h.requiredBounds _ hx]

theorem boundOfElements (side : Side) :
    ev'.boundOfElements side args = ev.boundOfElements side args :=
  h.resembles.ofElements hargs _ fun a inside ↦ bind_eq_of_gives
    (mapM_eq_of_mem fun y hy ↦ by rw [h.requiredBounds _ (inside y hy)]) fun _ _ ↦ rfl

end Arguments

theorem apply {args : List ExprKey} {b : Builtin}
    (parts : ∀ x ∈ ev.model.mentionedByCall args b, P x) : ev'.apply args b = ev.apply args b := by
  have hargs : ∀ x ∈ args, P x := fun x hx ↦ parts x (Model.mem_mentionedByCall b hx)
  cases b with
  | isBounded => exact Resembles.soleArg hargs _ fun x hx ↦ by rw [h.isBounded hx]
  | bound side => exact congrArg (Value.int <$> ·) (h.bound hargs side)
  | boundOfElements side => exact congrArg (Value.int <$> ·) (h.boundOfElements hargs side)
  | upperSet => exact Resembles.soleArg hargs _ fun x hx ↦ by rw [h.upperSet hx]
  | domain => exact Resembles.soleArg hargs _ fun x hx ↦ by rw [h.domainOf hx]
  | domainOfElements => exact Resembles.soleArg hargs _ fun x hx ↦ by rw [h.domainOfElements hx]
  | _ => exact h.resembles.apply parts rfl

/-! ### Values -/

theorem valueStep (he : P e) : ev'.valueStep e = ev.valueStep e :=
  h.resembles.valueStep (fun _ _ _ _ _ hx form bound _ ↦ h.apply (h.closed.call hx form bound)) he

end Agrees

end Evaluator

end ConstraintEval
