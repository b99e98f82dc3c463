import ConstraintEval.Proofs.Evaluation.Growth

/-!
# Questions, answers and plans

Working out an expression asks for the values and the bounds of others. What is asked is the
expression and the declarations that are pending; the values that a scope keeps never matter.
A plan is such a computation with its questions laid open: it has a result, or asks a question
and goes on with the answer. Over a table of answers it has a result unless a question that it
comes to has no answer.
-/

namespace ConstraintEval

/-- A question that comes up while an expression is worked out. -/
inductive Question where
  /-- The value of an expression while some declarations are pending. -/
  | value (e : ExprKey) (p : Pending)
  /-- Bounds of an expression while some declarations are pending. -/
  | bounds (e : ExprKey) (p : Pending)
  deriving DecidableEq

namespace Question

/-- What answers a question. -/
def Answer : Question → Type
  | value .. => Except Failure Value
  | bounds .. => Option Interval

/-- The expression that a question is about. -/
def expr : Question → ExprKey
  | value e _ | bounds e _ => e

/-- The declarations that are pending when a question comes up. -/
def pending : Question → Pending
  | value _ p | bounds _ p => p

/-- Whether a question asks for a value. -/
def isValue : Question → Bool
  | value .. => true
  | bounds .. => false

theorem ext_parts {q r : Question} (kind : q.isValue = r.isValue) (expr : q.expr = r.expr)
    (pending : q.pending = r.pending) : q = r := by
  cases q <;> cases r <;> simp_all [isValue, Question.expr, Question.pending]

end Question

/-- A table of answers, in which some may be missing. -/
abbrev Answers := (q : Question) → Option q.Answer

namespace Answers

/-- The table without answers. -/
def empty : Answers := fun _ ↦ none

/-- One table has the answers of another, and maybe more. -/
instance : LE Answers := ⟨fun T T' ↦ ∀ q a, T q = some a → T' q = some a⟩

/-- Two tables answer no question differently. -/
def Agree (T T' : Answers) : Prop := ∀ q, T q = none ∨ T' q = none ∨ T q = T' q

theorem agree_of_le {T T' : Answers} (h : T ≤ T') : T.Agree T' := by
  intro q
  cases ha : T q with
  | none => exact Or.inl rfl
  | some a => exact Or.inr (Or.inr (h q a ha).symm)

end Answers

/-- A computation with its questions laid open. -/
inductive Plan (α : Type) where
  | done (a : α)
  | ask (q : Question) (next : q.Answer → Plan α)

namespace Plan

variable {α β : Type}

/-- The result of a plan over a table of answers. -/
def run (T : Answers) : Plan α → Option α
  | done a => some a
  | ask q next => (T q).bind fun a ↦ (next a).run T

/-- Go on with the result of a plan. -/
def bind (x : Plan α) (f : α → Plan β) : Plan β :=
  match x with
  | done a => f a
  | ask q next => ask q fun a ↦ (next a).bind f

/-- Change the result of a plan. -/
def map (f : α → β) (x : Plan α) : Plan β := x.bind fun a ↦ done (f a)

/-- Every question of a plan and every result has a property. -/
def Within (P : Question → Prop) (Q : α → Prop) : Plan α → Prop
  | done a => Q a
  | ask q next => P q ∧ ∀ a, (next a).Within P Q

theorem run_bind (T : Answers) (x : Plan α) (f : α → Plan β) :
    (x.bind f).run T = (x.run T).bind fun a ↦ (f a).run T := by
  induction x with
  | done a => rfl
  | ask q next ih =>
    simp only [bind, run, Option.bind_assoc]
    cases T q with
    | none => rfl
    | some a => exact ih a

theorem run_map (T : Answers) (x : Plan α) (f : α → β) :
    (x.map f).run T = (x.run T).map f := by
  rw [map, run_bind]
  cases x.run T <;> rfl

theorem within_bind {P : Question → Prop} {Q : α → Prop} {R : β → Prop} {x : Plan α}
    {f : α → Plan β} (hx : x.Within P Q) (hf : ∀ a, Q a → (f a).Within P R) :
    (x.bind f).Within P R := by
  induction x with
  | done a => exact hf a hx
  | ask q next ih => exact ⟨hx.1, fun a ↦ ih a (hx.2 a)⟩

theorem Within.imp {P P' : Question → Prop} {Q Q' : α → Prop} {x : Plan α}
    (hP : ∀ q, P q → P' q) (hQ : ∀ a, Q a → Q' a) (h : x.Within P Q) : x.Within P' Q' := by
  induction x with
  | done a => exact hQ a h
  | ask q next ih => exact ⟨hP q h.1, fun a ↦ ih a (h.2 a)⟩

/-- The result of a run has the property that all results have. -/
theorem Within.of_run {P : Question → Prop} {Q : α → Prop} {T : Answers} {x : Plan α} {a : α}
    (h : x.Within P Q) (hrun : x.run T = some a) : Q a := by
  induction x with
  | done b => exact Option.some.inj hrun ▸ h
  | ask q next ih =>
    obtain ⟨b, -, hnext⟩ := Option.bind_eq_some_iff.1 hrun
    exact ih b (h.2 b) hnext

/-- More answers change no result. -/
theorem run_of_le {T T' : Answers} (le : T ≤ T') {x : Plan α} {a : α} (h : x.run T = some a) :
    x.run T' = some a := by
  induction x with
  | done b => exact h
  | ask q next ih =>
    obtain ⟨b, hq, hnext⟩ := Option.bind_eq_some_iff.1 h
    rw [run, le q b hq, Option.bind_some]
    exact ih b hnext

/-- A run without a result stops at a question without an answer, and so does every run that
follows the same answers and finds none to that question. -/
theorem stops {P : Question → Prop} {Q : α → Prop} {T : Answers} {x : Plan α}
    (h : x.Within P Q) (hrun : x.run T = none) :
    ∃ q, P q ∧ T q = none ∧ ∀ T' : Answers, T.Agree T' → T' q = none → x.run T' = none := by
  induction x with
  | done a => cases hrun
  | ask q next ih =>
    cases hq : T q with
    | none =>
      refine ⟨q, h.1, hq, ?_⟩
      intro T' _ hq'
      rw [run, hq', Option.bind_none]
    | some a =>
      rw [run, hq, Option.bind_some] at hrun
      obtain ⟨q', hP, hq', stop⟩ := ih a (h.2 a) hrun
      refine ⟨q', hP, hq', ?_⟩
      intro T' agree none'
      have next' := stop T' agree none'
      rcases agree q with h | h | h
      · rw [hq] at h
        cases h
      · rw [run, h, Option.bind_none]
      · rw [run, ← h, hq, Option.bind_some]
        exact next'

end Plan

end ConstraintEval
