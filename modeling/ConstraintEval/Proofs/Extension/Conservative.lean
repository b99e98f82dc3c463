import ConstraintEval.Eval.Query
import ConstraintEval.Proofs.Evaluation.Termination
import ConstraintEval.Proofs.Extension.Changes
import ConstraintEval.Proofs.Extension.Rules

/-!
# Additions change no answer

Evaluation follows keys and never looks up a name or an overload. All that comes up from an
expression of a model is in the model already, so whatever is added to the model later, names that
hide others and overloads of names that are called included, no question about what was there is
answered in another way. The evaluator of the larger model has more levels, and needs none of them.
-/

namespace ConstraintEval

/-! ### Evaluators of models that agree -/

private theorem answersAt_eq_answers {ctx : Context} {n : Nat} (le : ctx.levels ≤ n) :
    ctx.answersAt n = ctx.answers := by
  funext q
  cases answer : ctx.answers q with
  | some a => exact answersAt_mono le q a answer
  | none =>
    cases later : ctx.answersAt n q with
    | none => rfl
    | some a =>
      rw [answersAt_le_answers n q a later] at answer
      cases answer

/-- More levels than a model needs make no difference. -/
theorem ofLevels_eq_evaluator {ctx : Context} {n : Nat} (le : ctx.levels ≤ n) :
    Evaluator.ofLevels ctx n = ctx.evaluator := by
  rw [ofLevels_eq, evaluator_eq, answersAt_eq_answers le]

private theorem levels_mono {ctx ctx' : Context}
    (le : ctx.model.nodes.size ≤ ctx'.model.nodes.size) : ctx.levels ≤ ctx'.levels := by
  unfold Context.levels
  exact Nat.succ_le_succ (Nat.mul_le_mul (Nat.mul_le_mul_left 2 le) (Nat.succ_le_succ le))

namespace Context.Agrees

variable {ctx ctx' : Context} {P : ExprKey → Prop} {V : VarKey → Prop} (h : ctx.Agrees ctx' P V)

include h

/-- With the same number of levels, contexts that agree on a region are evaluated alike there. -/
theorem ofLevels (n : Nat) :
    (Evaluator.ofLevels ctx n).Agrees (Evaluator.ofLevels ctx' n) P V := by
  have agrees : Context.Agrees (Evaluator.ofLevels ctx n).toContext
      (Evaluator.ofLevels ctx' n).toContext P V := by
    rwa [Evaluator.toContext_ofLevels, Evaluator.toContext_ofLevels]
  have keeps := keepsElements_ofLevels ctx n
  induction n with
  | zero => exact { agrees with keeps, eval := fun _ _ ↦ rfl, bounds := fun _ _ ↦ rfl }
  | succ n ih =>
    have below := ih (by rwa [Evaluator.toContext_ofLevels, Evaluator.toContext_ofLevels])
      (keepsElements_ofLevels ctx n)
    exact { agrees with
      keeps
      eval := fun e he ↦ below.valueStep he
      bounds := fun e he ↦ below.boundsStep he }

theorem evaluator (le : ctx.model.nodes.size ≤ ctx'.model.nodes.size) :
    ctx.evaluator.Agrees ctx'.evaluator P V := by
  have agrees := h.ofLevels ctx'.levels
  rwa [ofLevels_eq_evaluator (levels_mono le)] at agrees

end Context.Agrees

/-! ### Queries -/

mutual

/-- What a query is about is in a region. -/
def Query.Within (P : ExprKey → Prop) (V : VarKey → Prop) : Query → Prop
  | .value e | .int e | .bool e | .set e | .array e | .elements e | .bounds e | .isBounded e
  | .domain e | .domainOfElements e | .cardinality e | .upperSet e | .indexSet e _ | .shape e
  | .place e _ => P e
  | .boundsOfVariable v | .domainOfVariable v => V v
  | .sharing a b => P a ∧ P b
  | .inScope qs => allWithin P V qs
  | .state => True

/-- What some queries are about is in a region. -/
def Query.allWithin (P : ExprKey → Prop) (V : VarKey → Prop) : List Query → Prop
  | [] => True
  | q :: qs => q.Within P V ∧ allWithin P V qs

end

namespace Evaluator.Agrees

variable {ev ev' : Evaluator} {P : ExprKey → Prop} {V : VarKey → Prop}

section Rules

variable {e : ExprKey} {v : VarKey} (h : ev.Agrees ev' P V)

include h

theorem domainOfVariable (hv : V v) : ev'.domainOfVariable v = ev.domainOfVariable v := by
  unfold Evaluator.domainOfVariable
  simp only [h.variableAt v hv, h.boundsOfVariable hv]
  split
  · next d domain => exact h.resembles.setOf (h.given_domain hv domain)
  · rfl

theorem shapeOf (he : P e) : ev'.shapeOf e = ev.shapeOf e := by
  have rank : ev'.declaredRank? e = ev.declaredRank? e := by
    unfold Evaluator.declaredRank?
    rw [h.resembles.form he]
    split
    · next name v form => rw [h.variableAt v (h.named e name v he form)]
    · rfl
  unfold Evaluator.shapeOf
  simp only [rank, h.indexSet _ he, h.resembles.arrayOf he]

theorem outcomesOfElements (he : P e) : ev'.outcomesOfElements e = ev.outcomesOfElements e :=
  bind_eq_of_gives (h.resembles.arrayOf he) fun _ ha ↦ mapM_eq_of_mem fun y hy ↦ by
    rw [h.eval y (h.resembles.elements he ha y hy)]

theorem placeOf (indices : List Integer) (he : P e) :
    ev'.placeOf e indices = ev.placeOf e indices := by
  rw [Evaluator.placeOf, Evaluator.placeOf, h.resembles.arrayOf he]

theorem sharing {a b : ExprKey} (ha : P a) (hb : P b) : ev'.sharing a b = ev.sharing a b := by
  rw [Evaluator.sharing, Evaluator.sharing, h.resembles.arrayOf ha, h.resembles.arrayOf hb]

end Rules

mutual

/-- Evaluators that agree on a region answer every query about it alike. -/
theorem answer (h : ev.Agrees ev' P V) : (q : Query) → q.Within P V → ev'.answer q = ev.answer q
  | .value e, he => by rw [Evaluator.answer, Evaluator.answer, h.eval e he]
  | .int e, he => by rw [Evaluator.answer, Evaluator.answer, h.resembles.intOf he]
  | .bool e, he => by rw [Evaluator.answer, Evaluator.answer, h.resembles.boolOf he]
  | .set e, he => by rw [Evaluator.answer, Evaluator.answer, h.resembles.setOf he]
  | .array e, he => by rw [Evaluator.answer, Evaluator.answer, h.resembles.arrayOf he]
  | .elements e, he => by rw [Evaluator.answer, Evaluator.answer, h.outcomesOfElements he]
  | .bounds e, he => by rw [Evaluator.answer, Evaluator.answer, h.bounds e he]
  | .isBounded e, he => by rw [Evaluator.answer, Evaluator.answer, h.isBounded he]
  | .boundsOfVariable v, hv => by
    rw [Evaluator.answer, Evaluator.answer, h.boundsOfVariable hv]
  | .domainOfVariable v, hv => by
    rw [Evaluator.answer, Evaluator.answer, h.domainOfVariable hv]
  | .domain e, he => by rw [Evaluator.answer, Evaluator.answer, h.domainOf he]
  | .domainOfElements e, he => by
    rw [Evaluator.answer, Evaluator.answer, h.domainOfElements he]
  | .cardinality e, he => by rw [Evaluator.answer, Evaluator.answer, h.resembles.cardinality he]
  | .upperSet e, he => by rw [Evaluator.answer, Evaluator.answer, h.upperSet he]
  | .indexSet e k, he => by rw [Evaluator.answer, Evaluator.answer, h.indexSet k he]
  | .shape e, he => by rw [Evaluator.answer, Evaluator.answer, h.shapeOf he]
  | .place e is, he => by rw [Evaluator.answer, Evaluator.answer, h.placeOf is he]
  | .sharing a b, hab => by rw [Evaluator.answer, Evaluator.answer, h.sharing hab.1 hab.2]
  | .inScope qs, hqs => by rw [Evaluator.answer, Evaluator.answer, h.answerAll qs hqs]
  | .state, _ => by rw [Evaluator.answer, Evaluator.answer]

theorem answerAll (h : ev.Agrees ev' P V) : (qs : List Query) → Query.allWithin P V qs →
    ev'.answerAll qs = ev.answerAll qs
  | [], _ => by rw [Evaluator.answerAll, Evaluator.answerAll]
  | q :: qs, within => by
    rw [Evaluator.answerAll, Evaluator.answerAll, h.answer q within.1,
      h.answerAll qs within.2]

end

end Evaluator.Agrees

/-! ### Larger models -/

/-- What a query is about is in a model. -/
def Query.About (m : Model) : Query → Prop :=
  Query.Within (·.index < m.nodes.size) (·.index < m.declared.size)

private theorem Query.allWithin_of_forall {P : ExprKey → Prop} {V : VarKey → Prop}
    {qs : List Query} (h : ∀ q ∈ qs, q.Within P V) : Query.allWithin P V qs := by
  induction qs with
  | nil => exact trivial
  | cons q qs ih =>
    obtain ⟨first, rest⟩ := List.forall_mem_cons.1 h
    exact ⟨first, ih rest⟩

/-- A larger model has the same as a model in the region of all that is in it. -/
theorem Model.Extends.agrees {m m' : Model} {fs : List Overload} {defines : Prop}
    (h : m.Extends fs m') (built : m.Built defines) (registry : Registry) :
    (Context.mk m registry).Agrees ⟨m', registry⟩ (·.index < m.nodes.size)
      (·.index < m.declared.size) where
  registry := rfl
  node _ lt := h.node_eq lt
  variableAt _ lt := h.variableAt_eq lt
  declared := h.declared_size_le
  operands e lt x mem := (built.operands_lt e x mem).trans lt
  named _ _ _ _ form := built.named_lt form
  given v _ := built.given_lt v

/-- Whatever is added to a model, with the same registry and the same limit all questions about
the expressions and the variables that were there have the answers that they had before, values,
bounds and complete failures alike. -/
theorem ask_changed (m : Model) (built : m.Built True) (cs : List Change)
    (additions : ∀ c ∈ cs, c.isAddition = true) (registry : Registry) (limit : Option Nat)
    (qs : List Query) (about : ∀ q ∈ qs, q.About m) :
    (Context.mk (m.changed cs) registry).ask limit qs = (Context.mk m registry).ask limit qs := by
  have larger := m.extends_changed additions
  have agrees := (larger.agrees built registry).evaluator larger.size_le
  rw [Context.ask, Context.ask, agrees.answerAll qs (Query.allWithin_of_forall about)]

/-- The model of an array and a call for its length, where that is declared for lists. -/
def lengthOfNamed : Model :=
  let build : Build Unit := do
    let _ ← Build.addOverload ⟨"length", [(Ty.int .par).arrayOf 1], .int .par⟩
    let array ← Build.array [← Build.int .one]
    let a ← Build.addVariable
      { name := "a", span := .nowhere, ty := (Ty.int .par).arrayOf 1, domain := none,
        indexSets := [none], definition := some array }
    let _ ← Build.call "length" [← Build.name a]
  (build.run .empty).2

/-- Another variable of the same name, and another function with the same parameters. -/
def namesakes : List Change :=
  [.addVariable ⟨"a", .nowhere, .int .par, none, [], some ⟨0⟩⟩, .name ⟨1⟩,
    .addOverload ⟨"length", [(Ty.int .par).arrayOf 1], .int .par⟩, .call "length" [⟨2⟩]]

/-- Namesakes leave a call and the array that it is about as they are. -/
theorem ask_namesakes :
    lengthOfNamed.Built True ∧
    let registry : Registry := ⟨[(⟨0⟩, .length)]⟩
    let qs : List Query := [.value ⟨3⟩, .indexSet ⟨2⟩ 1, .domainOfVariable ⟨0⟩]
    (Context.mk (lengthOfNamed.changed namesakes) registry).ask (some 1) qs =
      (Context.mk lengthOfNamed registry).ask (some 1) qs := by
  let int : Ty := .int .par
  have built : lengthOfNamed.Built True := Model.Built.empty
    |>.addOverload ⟨"length", [int.arrayOf 1], int⟩
    |>.node (.int .one) .nowhere int (by decide) (by decide)
    |>.literal
    |>.node (.array ⟨⟨0⟩, [⟨0⟩], [Build.fromOne 1]⟩) .nowhere (int.arrayOf 1) (by decide)
      (by decide)
    |>.addVariable ⟨"a", .nowhere, int.arrayOf 1, none, [none], some ⟨1⟩⟩ (by decide) (by decide)
      (by simp)
    |>.node (.name "a" (some ⟨0⟩)) .nowhere (int.arrayOf 1) (by decide) (by decide)
    |>.mention "length"
    |>.node (.call "length" (some ⟨0⟩) [⟨2⟩]) .nowhere int (by decide) (by decide)
  have call : 3 < lengthOfNamed.nodes.size := by decide
  have name : 2 < lengthOfNamed.nodes.size := by decide
  have array : 0 < lengthOfNamed.declared.size := by decide
  refine ⟨built, ask_changed lengthOfNamed built namesakes (by decide) _ _ _ ?_⟩
  exact List.forall_mem_cons.2
    ⟨call, List.forall_mem_cons.2 ⟨name, List.forall_mem_singleton.2 array⟩⟩

end ConstraintEval
