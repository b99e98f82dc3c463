import ConstraintEval.Proofs.Semantics.Soundness

/-!
# Where the elements of arrays come from

The elements of an array are expressions, and they outlive the expression that the array was
found for. Whichever way an array is found, the expression comes to each of its elements.
-/

namespace ConstraintEval

open Relation

variable {ctx : Context} {e x : ExprKey}

/-- An expression comes to another by way of something that it mentions. -/
def Context.Below (ctx : Context) : ExprKey → ExprKey → Prop :=
  TransGen fun e x ↦ x ∈ ctx.mentioned e

theorem closed_reaches (ctx : Context) (e : ExprKey) : ctx.Closed (ctx.Reaches e) :=
  fun _ _ reaches mentioned ↦ reaches.tail mentioned

theorem closed_below (ctx : Context) (e : ExprKey) : ctx.Closed (ctx.Below e) :=
  fun _ _ below mentioned ↦ below.tail mentioned

theorem Context.Closed.reaches {P : ExprKey → Prop} (closed : ctx.Closed P) (he : P e)
    (h : ctx.Reaches e x) : P x := by
  induction h with
  | refl => exact he
  | tail _ mentioned ih => exact closed _ _ ih mentioned

/-- What an expression comes to by way of its parts has the properties of the parts. -/
theorem Context.Closed.below {P : ExprKey → Prop} (closed : ctx.Closed P)
    (parts : ∀ y ∈ ctx.mentioned e, P y) (h : ctx.Below e x) : P x := by
  induction h with
  | single mentioned => exact parts _ mentioned
  | tail _ mentioned ih => exact closed _ _ ih mentioned

theorem Context.mem_mentioned_of_mem_operands (h : x ∈ (ctx.model.form e).operands) :
    x ∈ ctx.mentioned e := by
  unfold Context.mentioned
  split
  · next form =>
    rw [form] at h
    cases h
  · next name f args form =>
    rw [form] at h
    split
    · exact Model.mem_mentionedByCall _ h
    · exact h
  · exact h

/-- The chain of names that starts at an expression ends at one that it comes to. -/
theorem Leads.reaches (h : Leads ctx e (.expression x)) : ctx.Reaches e x :=
  (closed_reaches ctx e).chainEnd (ReflTransGen.refl) h

namespace Evaluator

/-- An expression comes to the elements of every array that it is found to be. -/
def KeepsElements (ev : Evaluator) : Prop :=
  ∀ e v, Gives (ev.eval e) v → v.ElementsIn (ev.Reaches e)

variable {ev : Evaluator} (keeps : ev.KeepsElements)

include keeps

theorem reaches_elements {a : LazyArray} (h : Gives (ev.arrayOf e) a) :
    ∀ y ∈ a.elements, ev.Reaches e y := keeps e _ h.of_arrayOf

private theorem elementsIn_of_eval {y : ExprKey} {v : Value} (reaches : ev.Reaches e y)
    (h : Gives (ev.eval y) v) : v.ElementsIn (ev.Reaches e) := by
  have inside := keeps y v h
  cases v with
  | array a => exact fun z hz ↦ reaches.trans (inside z hz)
  | _ => trivial

omit keeps in
/-- A builtin gives values of its kind. -/
theorem kind_of_gives_apply {args : List ExprKey} {b : Builtin} {v : Value}
    (h : Gives (ev.apply args b) v) : v.kind = b.resultKind := by
  cases b with
  | cardinality | isBounded | upperSet | domain | domainOfElements | indexSet =>
    obtain ⟨_, -, h⟩ := h.of_bind
    obtain ⟨_, -, h⟩ := h.of_bind
    rw [h.of_pure]
    rfl
  | _ =>
    obtain ⟨_, -, rfl⟩ := h.of_map
    rfl

/-- The only builtin that gives an array rearranges the elements of one of its arguments. -/
private theorem elementsIn_of_apply {args : List ExprKey} {b : Builtin} {v : Value}
    (hargs : ∀ x ∈ args, ev.Reaches e x) (h : Gives (ev.apply args b) v) :
    v.ElementsIn (ev.Reaches e) := by
  cases v with
  | array a =>
    have kind := kind_of_gives_apply h
    cases b with
    | rearrange n =>
      obtain ⟨a', h, eq⟩ := h.of_map
      cases eq
      unfold rearrange at h
      simp only at h
      split at h
      · next sets flat split =>
        obtain ⟨source, array, h⟩ := h.of_bind
        obtain ⟨ranges, -, h⟩ := h.of_bind
        have mem : flat ∈ args := by
          rw [List.splitAt_eq, Prod.mk.injEq] at split
          exact List.mem_of_mem_drop (split.2 ▸ List.mem_singleton_self flat)
        split at h
        · next rearranged fits =>
          rw [h.of_pure]
          intro y hy
          rw [elements_of_rearrange? fits] at hy
          exact (hargs flat mem).trans (reaches_elements keeps array y hy)
        · exact h.not_failAt.elim
      · exact h.not_fail.elim
    | _ => cases kind
  | _ => trivial

private theorem elementsIn_of_valueByForm {v : Value}
    (unnamed : ∀ name resolved, ev.model.form e ≠ .name name resolved)
    (h : Gives (ev.valueByForm e) v) : v.ElementsIn (ev.Reaches e) := by
  have operand {y : ExprKey} (hy : y ∈ (ev.model.form e).operands) : ev.Reaches e y :=
    .single (Context.mem_mentioned_of_mem_operands hy)
  unfold valueByForm at h
  split at h
  · rw [h.of_pure]
    trivial
  · rw [h.of_pure]
    trivial
  · obtain ⟨_, -, h⟩ := h.of_bind
    rw [h.of_pure]
    trivial
  · obtain ⟨_, -, h⟩ := h.of_bind
    obtain ⟨_, -, h⟩ := h.of_bind
    rw [h.of_pure]
    trivial
  · next name resolved form => exact (unnamed name resolved form).elim
  · next literal form =>
    have ok := h.of_ofExcept
    cases fits : LazyArray.ofLiteral literal (ev.model.ty e) with
    | error f =>
      rw [fits] at ok
      cases ok
    | ok a =>
      rw [fits] at ok
      cases ok
      intro y hy
      rw [elements_of_ofLiteral fits] at hy
      exact operand (by simpa [form, Form.operands] using hy)
  · next source indices form =>
    obtain ⟨a, array, h⟩ := h.of_bind
    obtain ⟨is, -, h⟩ := h.of_bind
    obtain ⟨y, selected, h⟩ := h.of_bind
    have hy := reaches_elements keeps array y (mem_elements_of_select selected.of_ofExcept)
    have hsource := operand (y := source) (by simp [form, Form.operands])
    exact elementsIn_of_eval keeps (hsource.trans hy) h
  · next name resolved args form =>
    unfold valueOfCall at h
    split at h
    · exact h.not_fail.elim
    · split at h
      · exact h.not_fail.elim
      · refine elementsIn_of_apply keeps (fun x hx ↦ operand ?_) h.of_inScope
        simpa [form, Form.operands] using hx
  · next op left right form =>
    obtain ⟨a, -, h⟩ := h.of_bind
    split at h
    · next decided =>
      rw [h.of_pure]
      exact BinaryOp.elementsIn_of_decided? decided
    · obtain ⟨b, -, h⟩ := h.of_bind
      exact BinaryOp.elementsIn_of_apply h.of_ofExcept
  · next op x form =>
    obtain ⟨a, -, h⟩ := h.of_bind
    exact UnaryOp.elementsIn_of_apply h.of_ofExcept
  · next cond yes no form =>
    obtain ⟨b, -, h⟩ := h.of_bind
    cases b with
    | true => exact elementsIn_of_eval keeps (operand (by simp [form, Form.operands])) h
    | false => exact elementsIn_of_eval keeps (operand (by simp [form, Form.operands])) h

private theorem elementsIn_of_valueStep {v : Value} (h : Gives (ev.valueStep e) v) :
    v.ElementsIn (ev.Reaches e) := by
  obtain ⟨w, hw, h⟩ := h.of_bind
  obtain ⟨-, -, h⟩ := h.of_bind
  rw [h.of_pure]
  obtain ⟨c, hc, hw⟩ := hw.of_inScope.of_locating.of_bind
  have leads := Gives.of_chainEnd hc
  cases c with
  | undefined u => exact hw.not_throw.elim
  | expression x =>
    have inside := elementsIn_of_valueByForm keeps leads.unnamed hw
    cases w with
    | array a => exact fun y hy ↦ leads.reaches.trans (inside y hy)
    | _ => trivial

end Evaluator

theorem keepsElements_ofLevels (ctx : Context) (n : Nat) :
    (Evaluator.ofLevels ctx n).KeepsElements := by
  induction n with
  | zero =>
    rintro e v ⟨s, t, h⟩
    cases h
  | succ n ih =>
    intro e v h
    have step := Evaluator.elementsIn_of_valueStep ih (e := e) (v := v) h
    rw [Evaluator.toContext_ofLevels] at step ⊢
    exact step

end ConstraintEval
