import ConstraintEval.Proofs.Acyclic.Models
import ConstraintEval.Proofs.Extension.Changes

/-!
# Changes that refer to what is there

All ways to change a model are made up of the steps that put a model together. So a model stays one
that is put together step by step under every change that refers to expressions and variables that
are there already, and without a definition after a declaration it stays free of cycles.
-/

namespace ConstraintEval

namespace Change

/-- The expressions that a change refers to. -/
def operands : Change → List ExprKey
  | node form _ _ => form.operands
  | int _ | bool _ | literalRange .. | literalSet _ | arrayOfNone _ | name _ | undeclared _
  | addOverload _ => []
  | between lo hi => [lo, hi]
  | set members => members
  | typedArray elements _ _ | arrayIn _ elements | array elements => elements
  | call _ args => args
  | binary _ left right => [left, right]
  | unary _ operand => [operand]
  | choice cond yes no => [cond, yes, no]
  | element source indices => source :: indices
  | addVariable x => x.definition.toList ++ x.domain.toList ++ x.indexSets.filterMap id
  | define _ definition => [definition]

/-- The variable that a change names. -/
def named? : Change → Option VarKey
  | node form _ _ => form.resolved?
  | name v => some v
  | _ => none

/-- A change refers only to what is in the model. -/
def Within (m : Model) (c : Change) : Prop :=
  (∀ x ∈ c.operands, x.index < m.nodes.size) ∧ ∀ v ∈ c.named?, v.index < m.declared.size

instance (m : Model) (c : Change) : Decidable (c.Within m) := inferInstanceAs (Decidable (_ ∧ _))

end Change

/-- Each of some changes refers only to what is in the model after those before it. -/
def Model.Admits (m : Model) : List Change → Prop
  | [] => True
  | c :: cs => c.Within m ∧ (c.apply m).Admits cs

/-- Whether changes refer to what is there is decided change by change. -/
def Model.decideAdmits (m : Model) : (cs : List Change) → Decidable (m.Admits cs)
  | [] => isTrue trivial
  | c :: cs =>
    match inferInstanceAs (Decidable (c.Within m)), (c.apply m).decideAdmits cs with
    | isTrue h, isTrue hs => isTrue ⟨h, hs⟩
    | isFalse h, _ => isFalse fun admits ↦ h admits.1
    | _, isFalse hs => isFalse fun admits ↦ hs admits.2

instance (m : Model) (cs : List Change) : Decidable (m.Admits cs) := m.decideAdmits cs

namespace Model.Built

variable {m : Model} {defines : Prop}

/-- A node whose form names no variable is added to what it refers to. -/
private theorem unnamed (form : Form) (span : Span) (ty : Ty) (h : m.Built defines)
    (operands : ∀ x ∈ form.operands, x.index < m.nodes.size) (unnamed : form.resolved? = none) :
    ((Build.node form span ty).run m).2.Built defines := by
  refine h.node form span ty operands fun v named ↦ ?_
  rw [unnamed] at named
  cases named

/-- The literals for some integers are there after they have been added. -/
private theorem literals (h : m.Built defines) (is : List Integer) :
    ((is.mapM Build.int).run m).2.Built defines ∧
      m.nodes.size ≤ ((is.mapM Build.int).run m).2.nodes.size ∧
      ∀ x ∈ ((is.mapM Build.int).run m).1, x.index < ((is.mapM Build.int).run m).2.nodes.size := by
  induction is generalizing m with
  | nil => exact ⟨h, Nat.le_refl _, nofun⟩
  | cons i is ih =>
    have added : ((Build.int i).run m).2.nodes.size = m.nodes.size + 1 := Array.size_push ..
    obtain ⟨built, le, inside⟩ := ih (h.unnamed (.int i) .nowhere (.int .par) nofun rfl)
    change ((Build.int i).run m).2.nodes.size ≤ _ at le
    rw [added] at le
    rw [List.mapM_cons]
    refine ⟨built, (Nat.le_succ _).trans le, List.forall_mem_cons.2 ⟨?_, inside⟩⟩
    exact Nat.lt_of_succ_le le

theorem addOverloads (h : m.Built defines) (fs : List Overload) :
    ((fs.forM fun f ↦ do let _ ← Build.addOverload f).run m).2.Built defines := by
  induction fs generalizing m with
  | nil => exact h
  | cons f fs ih => exact ih (h.addOverload f)

/-- A change that refers to what is there keeps the model put together step by step. -/
theorem apply {c : Change} (h : m.Built defines) (within : c.Within m)
    (allowed : c.isAddition = false → defines) : (c.apply m).Built defines := by
  obtain ⟨operands, named⟩ := within
  cases c with
  | node form span ty => exact h.node form span ty operands named
  | int value => exact h.unnamed _ _ _ operands rfl
  | bool value => exact h.unnamed _ _ _ operands rfl
  | between lo hi => exact h.unnamed (.between lo hi) _ _ operands rfl
  | literalRange lo hi =>
    obtain ⟨built, -, inside⟩ := h.literals [lo, hi]
    exact built.unnamed (.between _ _) _ _ inside rfl
  | set members => exact h.unnamed (.set members) _ _ operands rfl
  | literalSet values =>
    obtain ⟨built, -, inside⟩ := h.literals values
    exact built.unnamed (.set _) _ _ inside rfl
  | typedArray elements ranges ty =>
    exact h.literal.unnamed (.array ⟨_, elements, ranges⟩) _ _ operands rfl
  | arrayIn ranges elements =>
    exact h.literal.unnamed (.array ⟨_, elements, ranges⟩) _ _ operands rfl
  | array elements =>
    exact h.literal.unnamed (.array ⟨_, elements, _⟩) _ _ operands rfl
  | arrayOfNone elementTy =>
    exact h.literal.unnamed (.array ⟨_, [], _⟩) _ _ operands rfl
  | name v => exact h.node (.name _ (some v)) _ _ operands named
  | undeclared text => exact (h.mention text).node (.name text none) _ _ operands nofun
  | call callee args =>
    have mentioned := h.mention callee
    simp only [Change.apply, Build.call, Build.mention, StateT.run_bind, StateT.run_modify,
      StateT.run_get, pure_bind] at mentioned ⊢
    split
    · exact mentioned.unnamed (.call callee _ args) _ _ operands rfl
    · exact mentioned.unnamed (.call callee _ args) _ _ operands rfl
    · exact mentioned.unnamed (.call callee _ args) _ _ operands rfl
  | binary op left right => exact h.unnamed (.binary op left right) _ _ operands rfl
  | unary op operand => exact h.unnamed (.unary op operand) _ _ operands rfl
  | choice cond yes no => exact h.unnamed (.choice cond yes no) _ _ operands rfl
  | element source indices =>
    exact h.unnamed (.element source indices) _ _ operands rfl
  | addVariable x =>
    refine h.addVariable x (fun d given ↦ ?_) (fun d given ↦ ?_) fun d given ↦ ?_ <;>
      exact operands d (by simp [Change.operands, given])
  | addOverload f => exact h.addOverload f
  | define v definition =>
    exact h.define v definition (allowed rfl) (operands definition (List.mem_singleton_self _))

theorem changed {cs : List Change} (h : m.Built defines) (admits : m.Admits cs)
    (allowed : ∀ c ∈ cs, c.isAddition = false → defines) : (m.changed cs).Built defines := by
  induction cs generalizing m with
  | nil => exact h
  | cons c cs ih =>
    obtain ⟨first, rest⟩ := List.forall_mem_cons.1 allowed
    exact ih (h.apply admits.1 first) admits.2 rest

end Model.Built

end ConstraintEval
