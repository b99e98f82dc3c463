import ConstraintEval.Proofs.Evaluation.Levels
import Mathlib.Data.Finset.Card
import Mathlib.Data.Finset.Prod
import Mathlib.Data.Fintype.Basic
import Mathlib.Data.Fintype.Prod
import Mathlib.Logic.Relation

/-!
# When evaluation comes to an end

One question needs another when it has no answer without an answer to the other, however the
questions that are still open are answered. Evaluation comes to an end exactly when it comes to
no question that needs itself, and the levels of the evaluator of a model are then enough. While
a question needs itself nothing becomes pending, so the check of pending declarations cannot
break the cycle.
-/

namespace ConstraintEval

open Pending Relation

variable {ctx : Context}

/-- One question has no answer without an answer to the other, whatever is answered to the
questions that the evaluator of the model leaves open. -/
def Context.Needs (ctx : Context) (q r : Question) : Prop :=
  ∀ T : Answers, ctx.answers.Agree T → T r = none → ctx.rule T q = none

/-- Some question on the way from a question needs itself. -/
def Context.Cyclic (ctx : Context) (q : Question) : Prop :=
  ∃ r, ReflTransGen ctx.Needs q r ∧ TransGen ctx.Needs r r

/-! ### What is needed is asked -/

private def Question.anyAnswer : (q : Question) → q.Answer
  | .value .. => .error (.of .zeroDivisor)
  | .bounds .. => none

/-- The table that answers every question but one, as the evaluator does where it can. -/
private def Context.answersBut (ctx : Context) (r : Question) : Answers := fun q ↦
  if q = r then none else some ((ctx.answers q).getD q.anyAnswer)

private theorem answersBut_eq_none {q r : Question} : ctx.answersBut r q = none ↔ q = r := by
  unfold Context.answersBut
  split
  · next h => simp [h]
  · next h => simp [h]

private theorem agree_answersBut (r : Question) : ctx.answers.Agree (ctx.answersBut r) := by
  intro q
  by_cases hq : q = r
  · exact Or.inr (Or.inl (answersBut_eq_none.2 hq))
  · cases ha : ctx.answers q with
    | none => exact Or.inl rfl
    | some a =>
      refine Or.inr (Or.inr ?_)
      rw [Context.answersBut, if_neg hq, ha, Option.getD_some]

/-- A question that is needed comes up with at least the same declarations pending. -/
theorem grows_of_needs {q r : Question} (h : ctx.Needs q r) :
    Grows ctx.model q.pending r.pending := by
  have stuck := h _ (agree_answersBut r) (answersBut_eq_none.2 rfl)
  obtain ⟨r', grows, none, -⟩ := rule_stops stuck
  obtain rfl := answersBut_eq_none.1 none
  exact grows

private theorem grows_of_transGen_needs {q r : Question} (h : TransGen ctx.Needs q r) :
    Grows ctx.model q.pending r.pending := by
  induction h with
  | single needs => exact grows_of_needs needs
  | tail _ needs ih => exact ih.trans (grows_of_needs needs)

/-- All questions of a cycle come up with the same declarations pending. -/
theorem pending_eq_of_needs_cycle {q r : Question} (h : TransGen ctx.Needs q r)
    (h' : TransGen ctx.Needs r q) : r.pending = q.pending := by
  have grows := grows_of_transGen_needs h
  have le := grows.size_le
  have ge := (grows_of_transGen_needs h').size_le
  exact grows.eq_of_size_eq (by omega)

/-! ### Cycles have no answers -/

private theorem answersAt_agree {m n : Nat} (h : m ≤ n) :
    (ctx.answersAt n).Agree (ctx.answersAt m) := by
  intro q
  have le : ctx.answersAt m ≤ ctx.answersAt n := answersAt_mono h
  rcases Answers.agree_of_le le q with hq | hq | hq
  · exact Or.inr (Or.inl hq)
  · exact Or.inl hq
  · exact Or.inr (Or.inr hq.symm)

private theorem answersAt_succ_eq_none {n : Nat} {q r : Question} (hn : n ≤ ctx.levels)
    (needs : ctx.Needs q r) (h : ctx.answersAt n r = none) : ctx.answersAt (n + 1) q = none :=
  needs (ctx.answersAt n) (answersAt_agree hn) h

/-- No level answers a question of a cycle. -/
private theorem answersAt_cycle {n : Nat} {q : Question} (hn : n ≤ ctx.levels + 1)
    (cycle : TransGen ctx.Needs q q) : ctx.answersAt n q = none := by
  induction n generalizing q with
  | zero => rfl
  | succ n ih =>
    obtain ⟨r, needs, back⟩ := TransGen.head'_iff.1 cycle
    have cycle' : TransGen ctx.Needs r r := TransGen.tail' back needs
    exact answersAt_succ_eq_none (by omega) needs (ih (by omega) cycle')

private theorem answersAt_cyclic {n : Nat} {q : Question} (hn : n ≤ ctx.levels + 1)
    (cyclic : ctx.Cyclic q) : ctx.answersAt n q = none := by
  obtain ⟨r, path, cycle⟩ := cyclic
  induction path using ReflTransGen.head_induction_on generalizing n with
  | refl => exact answersAt_cycle hn cycle
  | head needs _ ih =>
    cases n with
    | zero => rfl
    | succ n => exact answersAt_succ_eq_none (by omega) needs (ih (by omega))

/-! ### Questions without answers lead to cycles -/

/-- Among questions of expressions of the model that come up one after another there are no
more different ones than kinds, expressions and numbers of pending declarations. -/
private theorem length_le_of_growing {p : Pending} {l : List Question} (nodup : l.Nodup)
    (growing : l.Pairwise fun q r ↦ Grows ctx.model q.pending r.pending)
    (grown : ∀ q ∈ l, Grows ctx.model p q.pending)
    (nodes : ∀ q ∈ l, q.expr.index < ctx.model.nodes.size) :
    l.length ≤ 2 * ctx.model.nodes.size * (ctx.model.nodes.size + 1) := by
  classical
  let place (q : Question) : Bool × Nat × Nat :=
    (q.isValue, q.expr.index, q.pending.size - p.size)
  let box : Finset (Bool × Nat × Nat) :=
    Finset.univ ×ˢ Finset.range ctx.model.nodes.size ×ˢ Finset.range (ctx.model.nodes.size + 1)
  have maps : ∀ q ∈ l.toFinset, place q ∈ box := by
    intro q hq
    rw [List.mem_toFinset] at hq
    have := (grown q hq).size_le_add
    simp only [place, box, Finset.mem_product, Finset.mem_univ, Finset.mem_range, true_and]
    exact ⟨nodes q hq, by omega⟩
  -- growing by nothing is staying the same
  have same : ∀ q ∈ l, ∀ r ∈ l, q.pending.size = r.pending.size → q.pending = r.pending := by
    intro q hq r hr
    refine List.Pairwise.forall_of_forall_of_flip
      (R := fun q r : Question ↦ q.pending.size = r.pending.size → q.pending = r.pending)
      (fun _ _ _ ↦ rfl) ?_ ?_ hq hr
    · apply growing.imp
      intro q r grows size
      exact (grows.eq_of_size_eq size.symm).symm
    · apply growing.imp
      intro q r grows size
      exact grows.eq_of_size_eq size
  have inj : Set.InjOn place l.toFinset := by
    intro q hq r hr h
    rw [Finset.mem_coe, List.mem_toFinset] at hq hr
    simp only [place, Prod.mk.injEq] at h
    obtain ⟨kind, index, size⟩ := h
    have := (grown q hq).size_le
    have := (grown r hr).size_le
    have expr : q.expr = r.expr := by
      cases hq : q.expr
      cases hr : r.expr
      simpa [hq, hr] using index
    exact Question.ext_parts kind expr (same q hq r hr (by omega))
  have le := Finset.card_le_card_of_injOn place maps inj
  rw [List.toFinset_card_of_nodup nodup] at le
  have card : box.card = 2 * ctx.model.nodes.size * (ctx.model.nodes.size + 1) := by
    simp [box, Finset.card_product, Nat.mul_assoc]
  omega

private theorem index_lt_of_answersAt_succ_eq_none {n : Nat} {q : Question}
    (h : ctx.answersAt (n + 1) q = none) : q.expr.index < ctx.model.nodes.size := by
  by_contra hle
  have answered := rule_isSome_of_size_le (ctx.answersAt n) (Nat.le_of_not_lt hle)
  change ctx.rule (ctx.answersAt n) q = none at h
  rw [h] at answered
  cases answered

/-- A question that a number of levels do not answer needs one that the levels before do not
answer. -/
private theorem exists_needs {n : Nat} {q : Question} (hn : n ≤ ctx.levels)
    (h : ctx.answersAt (n + 1) q = none) : ∃ r, ctx.Needs q r ∧ ctx.answersAt n r = none := by
  obtain ⟨r, -, none, stop⟩ := rule_stops (T := ctx.answersAt n) h
  refine ⟨r, ?_, none⟩
  intro T agree
  apply stop
  intro q'
  cases hq : ctx.answersAt n q' with
  | none => exact Or.inl rfl
  | some a =>
    have hq' : ctx.answers q' = some a := answersAt_mono hn q' a hq
    rcases agree q' with ha | ha | ha
    · rw [hq'] at ha
      cases ha
    · exact Or.inr (Or.inl ha)
    · exact Or.inr (Or.inr (hq'.symm.trans ha))

/-- A question that many levels do not answer leads along as many others, all of expressions of
the model. -/
private theorem exists_path {k : Nat} {q : Question} (hk : k ≤ ctx.levels)
    (h : ctx.answersAt (k + 1) q = none) :
    ∃ l : List Question, l.length = k ∧ (q :: l).Pairwise (TransGen ctx.Needs) ∧
      ∀ r ∈ q :: l, r.expr.index < ctx.model.nodes.size := by
  have node := index_lt_of_answersAt_succ_eq_none h
  induction k generalizing q with
  | zero => exact ⟨[], rfl, List.pairwise_singleton .., by simpa using node⟩
  | succ k ih =>
    obtain ⟨r, needs, none⟩ := exists_needs hk h
    obtain ⟨l, length, path, nodes⟩ :=
      ih (by omega) none (index_lt_of_answersAt_succ_eq_none none)
    refine ⟨r :: l, by rw [List.length_cons, length], ?_, ?_⟩
    · refine List.pairwise_cons.2 ⟨?_, path⟩
      intro r' hr'
      rcases List.mem_cons.1 hr' with rfl | hr'
      · exact TransGen.single needs
      · exact TransGen.head needs ((List.pairwise_cons.1 path).1 r' hr')
    · intro r' hr'
      rcases List.mem_cons.1 hr' with rfl | hr'
      · exact node
      · exact nodes r' hr'

/-- A question that the evaluator of the model does not answer leads to one that needs itself. -/
private theorem cyclic_of_answers_eq_none {q : Question} (h : ctx.answers q = none) :
    ctx.Cyclic q := by
  obtain ⟨l, length, path, nodes⟩ := exists_path (k := ctx.levels - 1) (by omega) h
  by_contra acyclic
  have reached : ∀ r ∈ q :: l, ReflTransGen ctx.Needs q r := by
    intro r hr
    rcases List.mem_cons.1 hr with rfl | hr
    · exact .refl
    · exact ((List.pairwise_cons.1 path).1 r hr).to_reflTransGen
  have nodup : (q :: l).Nodup := by
    refine List.Pairwise.imp_of_mem ?_ path
    intro r r' hr _ needs eq
    exact acyclic ⟨r, reached r hr, eq ▸ needs⟩
  have grown : ∀ r ∈ q :: l, Grows ctx.model q.pending r.pending := by
    intro r hr
    rcases List.mem_cons.1 hr with rfl | hr
    · exact .refl
    · exact grows_of_transGen_needs ((List.pairwise_cons.1 path).1 r hr)
  have le := length_le_of_growing nodup (path.imp grows_of_transGen_needs) grown nodes
  rw [List.length_cons, length] at le
  unfold Context.levels at le
  omega

theorem answers_eq_none_iff {q : Question} : ctx.answers q = none ↔ ctx.Cyclic q :=
  ⟨cyclic_of_answers_eq_none, answersAt_cyclic (by omega)⟩

/-- The evaluator of a model answers all that any number of levels answers. -/
theorem answersAt_le_answers (n : Nat) : ctx.answersAt n ≤ ctx.answers := by
  have step : ctx.rule ctx.answers ≤ ctx.answers := by
    intro q a ha
    cases hq : ctx.answers q with
    | none =>
      have := answersAt_cyclic (n := ctx.levels + 1) (Nat.le_refl _) (cyclic_of_answers_eq_none hq)
      change ctx.rule ctx.answers q = none at this
      rw [ha] at this
      cases this
    | some b =>
      have : ctx.rule ctx.answers q = some b :=
        answersAt_mono (Nat.le_succ ctx.levels) q b hq
      rw [← this, ha]
  induction n with
  | zero => exact answersAt_mono (Nat.zero_le _)
  | succ n ih =>
    intro q a ha
    exact step q a (rule_mono ih q a ha)

/-- The answers of the evaluator of a model are those that the rules give over them. -/
theorem rule_answers : ctx.rule ctx.answers = ctx.answers := by
  funext q
  cases hq : ctx.answers q with
  | some a => exact answersAt_mono (Nat.le_succ ctx.levels) q a hq
  | none =>
    cases hr : ctx.rule ctx.answers q with
    | none => rfl
    | some a =>
      have := answersAt_le_answers (ctx.levels + 1) q a hr
      rw [hq] at this
      cases this

/-! ### Evaluators -/

private theorem eval_ofLevels_eq_none_iff (n : Nat) (e : ExprKey) (s : EvalState) :
    (Evaluator.ofLevels ctx n).eval e s = none ↔
      ctx.answersAt n (.value e s.pending) = none := by
  rw [ofLevels_eq, Answers.eval_evaluator]
  exact Option.map_eq_none_iff

private theorem bounds_ofLevels_eq_none_iff (n : Nat) (e : ExprKey) (s : EvalState) :
    (Evaluator.ofLevels ctx n).bounds e s = none ↔
      ctx.answersAt n (.bounds e s.pending) = none := by
  rw [ofLevels_eq, Answers.bounds_evaluator]
  exact Option.map_eq_none_iff

private theorem exists_answersAt_iff (q : Question) :
    (∃ n, ctx.answersAt n q ≠ none) ↔ ¬ ctx.Cyclic q := by
  rw [← answers_eq_none_iff]
  constructor
  · rintro ⟨n, hn⟩ none
    obtain ⟨a, ha⟩ := Option.ne_none_iff_exists'.1 hn
    rw [answersAt_le_answers n q a ha] at none
    cases none
  · intro h
    exact ⟨ctx.levels, h⟩

/-- With any number of levels an evaluation that comes to an end is the one that the evaluator
of the model makes. -/
theorem eval_evaluator_eq {n : Nat} {e : ExprKey} {s : EvalState}
    (h : (Evaluator.ofLevels ctx n).eval e s ≠ none) :
    ctx.evaluator.eval e s = (Evaluator.ofLevels ctx n).eval e s := by
  rw [Ne, eval_ofLevels_eq_none_iff] at h
  obtain ⟨a, ha⟩ := Option.ne_none_iff_exists'.1 h
  rw [evaluator_eq, ofLevels_eq, Answers.eval_evaluator, Answers.eval_evaluator, ha,
    answersAt_le_answers n _ a ha]

private theorem ofLevels_succ_levels (ctx : Context) :
    Evaluator.ofLevels ctx (ctx.levels + 1) = ctx.evaluator := by
  have answers : ctx.rule (ctx.answersAt ctx.levels) = ctx.answers := rule_answers
  rw [evaluator_eq, ofLevels_eq, answersAt_succ, answers]

/-- The evaluator of a model evaluates an expression by its rule. -/
theorem Context.eval_evaluator (ctx : Context) (e : ExprKey) :
    ctx.evaluator.eval e = ctx.evaluator.valueStep e := by
  rw [← ofLevels_succ_levels ctx, Evaluator.eval_ofLevels_succ, ofLevels_succ_levels]
  rfl

/-- The evaluator of a model finds bounds of an expression by its rule. -/
theorem Context.bounds_evaluator (ctx : Context) (e : ExprKey) :
    ctx.evaluator.bounds e = ctx.evaluator.boundsStep e := by
  rw [← ofLevels_succ_levels ctx, Evaluator.bounds_ofLevels_succ, ofLevels_succ_levels]
  rfl

/-- In every state, evaluating an expression and looking for its bounds come to an end exactly
when they come to no question that needs itself with the same declarations pending. The levels
of the evaluator of the model are then enough. -/
theorem evaluation_ends_iff (ctx : Context) (e : ExprKey) (s : EvalState) :
    ((∃ n, (Evaluator.ofLevels ctx n).eval e s ≠ none) ↔
      ¬ ctx.Cyclic (.value e s.pending)) ∧
    ((∃ n, (Evaluator.ofLevels ctx n).bounds e s ≠ none) ↔
      ¬ ctx.Cyclic (.bounds e s.pending)) ∧
    ((∃ n, (Evaluator.ofLevels ctx n).eval e s ≠ none) ↔ ctx.evaluator.eval e s ≠ none) ∧
    ((∃ n, (Evaluator.ofLevels ctx n).bounds e s ≠ none) ↔ ctx.evaluator.bounds e s ≠ none) := by
  have value : ctx.evaluator.eval e s ≠ none ↔ ¬ ctx.Cyclic (.value e s.pending) := by
    rw [Context.evaluator, Ne, eval_ofLevels_eq_none_iff]
    exact not_congr answers_eq_none_iff
  have bounds : ctx.evaluator.bounds e s ≠ none ↔ ¬ ctx.Cyclic (.bounds e s.pending) := by
    rw [Context.evaluator, Ne, bounds_ofLevels_eq_none_iff]
    exact not_congr answers_eq_none_iff
  rw [value, bounds]
  simp only [Ne, eval_ofLevels_eq_none_iff, bounds_ofLevels_eq_none_iff]
  exact ⟨exists_answersAt_iff _, exists_answersAt_iff _, exists_answersAt_iff _,
    exists_answersAt_iff _⟩

/-- The model of an array that is declared to hold its own element. -/
def selfContaining : Model :=
  let build : Build Unit := do
    let x ← Build.addVariable
      { name := "x", span := .nowhere, ty := (Ty.int .par).arrayOf 1, domain := none,
        indexSets := [none], definition := none }
    let array ← Build.name x
    let index ← Build.int .one
    let element ← Build.element array [index]
    Build.define x (← Build.array [element])
  (build.run .empty).2

/-- With no number of levels does evaluating the element of an array that holds it come to an
end: the array has been found, and nothing is pending, when its element is asked for. -/
theorem selfContaining_never_ends (n : Nat) :
    (Evaluator.ofLevels ⟨selfContaining, .empty⟩ n).eval ⟨2⟩ (.fresh none) = none := by
  by_contra h
  rw [← eval_evaluator_eq h] at h
  have none :
      ((Context.mk selfContaining .empty).evaluator.eval ⟨2⟩ (.fresh none)).isNone = true := by
    decide +kernel
  exact h (Option.isNone_iff_eq_none.1 none)

end ConstraintEval
