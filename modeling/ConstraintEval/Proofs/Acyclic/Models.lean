import ConstraintEval.Model.Build
import ConstraintEval.Proofs.Semantics.Elements
import ConstraintEval.Proofs.Evaluation.Growth
import Mathlib.Data.Fintype.EquivFin
import Mathlib.Order.WellFounded

/-!
# Models without cycles

A declaration depends on another one when a name of the other one occurs in an expression that it
gives. A model that is put together without defining variables after their declaration has no
cycle in this relation, as each expression and each declaration refers to earlier ones only. In a
model without cycles no expression comes back to itself, through whatever it mentions.
-/

namespace ConstraintEval

open Relation

namespace Model

/-- The expressions that the declaration of a variable gives: its definition, its domain and its
index sets. -/
def expressionsOf (m : Model) (v : VarKey) : List ExprKey :=
  m.mentionedBy v ++ (m.variableAt v).indexSets.filterMap id

/-- An expression occurs in another one, as an operand of its operands. -/
def Occurs (m : Model) : ExprKey → ExprKey → Prop :=
  ReflTransGen fun e x ↦ x ∈ (m.form e).operands

/-- A name of a variable occurs in an expression that the declaration of another one gives. -/
def DependsOn (m : Model) (v w : VarKey) : Prop :=
  ∃ d ∈ m.expressionsOf v, ∃ e name, m.Occurs d e ∧ m.form e = .name name (some w)

/-- No declaration depends on itself, directly or through others. -/
def Acyclic (m : Model) : Prop := ∀ v, ¬ TransGen m.DependsOn v v

/-- A model that is put together step by step, where each expression and each declaration refers to
expressions and declarations that are there already. All other ways to add to a model are made up
of these steps. Variables may be defined after their declaration if `defines` holds. -/
inductive Built (defines : Prop) : Model → Prop where
  | empty : Built defines .empty
  | mention {m : Model} (name : String) (before : Built defines m) :
      Built defines ((Build.mention name).run m).2
  | node {m : Model} (form : Form) (span : Span) (ty : Ty) (before : Built defines m)
      (operands : ∀ x ∈ form.operands, x.index < m.nodes.size)
      (resolved : ∀ v, form.resolved? = some v → v.index < m.declared.size) :
      Built defines ((Build.node form span ty).run m).2
  | literal {m : Model} (before : Built defines m) :
      Built defines { m with literals := m.literals + 1 }
  | addVariable {m : Model} (x : Variable) (before : Built defines m)
      (definition : ∀ d, x.definition = some d → d.index < m.nodes.size)
      (domain : ∀ d, x.domain = some d → d.index < m.nodes.size)
      (indexSets : ∀ d, some d ∈ x.indexSets → d.index < m.nodes.size) :
      Built defines ((Build.addVariable x).run m).2
  | addOverload {m : Model} (f : Overload) (before : Built defines m) :
      Built defines ((Build.addOverload f).run m).2
  | define {m : Model} (v : VarKey) (d : ExprKey) (before : Built defines m) (allowed : defines)
      (definition : d.index < m.nodes.size) : Built defines ((Build.define v d).run m).2

variable {m : Model} {defines : Prop} {e x d : ExprKey} {v w : VarKey}

theorem mem_expressionsOf : d ∈ m.expressionsOf v ↔ (m.variableAt v).definition = some d ∨
    (m.variableAt v).domain = some d ∨ some d ∈ (m.variableAt v).indexSets := by
  simp [expressionsOf, mentionedBy]

/-! ### What has been added -/

private theorem form_node (form : Form) (span : Span) (ty : Ty) (e : ExprKey) :
    ((Build.node form span ty).run m).2.form e =
      if e.index = m.nodes.size then form else m.form e := by
  change ((m.nodes.push ⟨form, span, ty⟩)[e.index]?.getD default).form = _
  rw [Array.getElem?_push]
  split <;> rfl

private theorem variableAt_addVariable (x : Variable) (v : VarKey) :
    ((Build.addVariable x).run m).2.variableAt v =
      if v.index = m.declared.size then x else m.variableAt v := by
  change (m.declared.push x)[v.index]?.getD default = _
  rw [Array.getElem?_push]
  split <;> rfl

private theorem variableAt_define (u : VarKey) (d : ExprKey) (v : VarKey) :
    ((Build.define u d).run m).2.variableAt v =
      if u.index = v.index ∧ v.index < m.declared.size then
        { m.variableAt v with definition := some d }
      else m.variableAt v := by
  change (m.declared.modify u.index _)[v.index]?.getD default = _
  rw [Array.getElem?_modify, variableAt]
  by_cases here : v.index < m.declared.size
  · rw [Array.getElem?_eq_getElem here]
    simp only [here, and_true]
    split <;> rfl
  · rw [Array.getElem?_eq_none (Nat.le_of_not_lt here)]
    simp only [here, and_false]
    split <;> rfl

/-- Nothing new occurs in an expression when another one is added. -/
private theorem occurs_node {form : Form} {span : Span} {ty : Ty}
    (le : ∀ e x, x ∈ (m.form e).operands → x.index < e.index) (inside : d.index < m.nodes.size)
    (h : ((Build.node form span ty).run m).2.Occurs d e) :
    m.Occurs d e ∧ e.index < m.nodes.size := by
  induction h with
  | refl => exact ⟨.refl, inside⟩
  | tail _ operand ih =>
    rw [form_node, if_neg (Nat.ne_of_lt ih.2)] at operand
    exact ⟨ih.1.tail operand, (le _ _ operand).trans ih.2⟩

/-! ### What every model has that is put together step by step -/

namespace Built

theorem mono {defines' : Prop} (h : m.Built defines) (le : defines → defines') :
    m.Built defines' := by
  induction h with
  | empty => exact .empty
  | mention name _ ih => exact .mention name ih
  | node form span ty _ operands resolved ih => exact .node form span ty ih operands resolved
  | literal _ ih => exact .literal ih
  | addVariable x _ definition domain indexSets ih =>
    exact .addVariable x ih definition domain indexSets
  | addOverload f _ ih => exact .addOverload f ih
  | define v d _ allowed definition ih => exact .define v d ih (le allowed) definition

/-- Operands come before the expression that they are operands of. -/
theorem operands_lt (h : m.Built defines) (e x : ExprKey) (mem : x ∈ (m.form e).operands) :
    x.index < e.index := by
  induction h generalizing e x with
  | empty =>
    rw [form_of_size_le (Nat.zero_le _)] at mem
    cases mem
  | node form span ty _ operands _ ih =>
    rw [form_node] at mem
    split at mem
    · next last => exact Nat.lt_of_lt_of_eq (operands x mem) last.symm
    · exact ih e x mem
  | _ =>
    rename_i ih
    exact ih e x mem

/-- The variables that are named are declared. -/
theorem named_lt (h : m.Built defines) {name : String} (form : m.form e = .name name (some v)) :
    v.index < m.declared.size := by
  induction h generalizing e with
  | empty =>
    rw [form_of_size_le (Nat.zero_le _)] at form
    cases form
  | node form' span ty _ _ resolved ih =>
    rw [form_node] at form
    split at form
    · exact resolved v (by rw [form, Form.resolved?])
    · exact ih form
  | @addVariable m x _ _ _ _ ih =>
    change v.index < (m.declared.push x).size
    rw [Array.size_push]
    exact Nat.lt_succ_of_lt (ih form)
  | @define m u d _ _ _ ih =>
    change v.index < (m.declared.modify u.index _).size
    rw [Array.size_modify]
    exact ih form
  | _ =>
    rename_i ih
    exact ih form

/-- The expressions that a declaration gives are there. -/
theorem given_lt (h : m.Built defines) (v : VarKey) :
    ∀ d ∈ m.expressionsOf v, d.index < m.nodes.size := by
  induction h generalizing v with
  | empty =>
    intro d mem
    rw [mem_expressionsOf] at mem
    rcases mem with h | h | h <;> cases h
  | @node m form span ty _ _ _ ih =>
    intro d mem
    change d.index < (m.nodes.push ⟨form, span, ty⟩).size
    rw [Array.size_push]
    exact Nat.lt_succ_of_lt (ih v d mem)
  | @addVariable m x _ definition domain indexSets ih =>
    intro d mem
    rw [mem_expressionsOf, variableAt_addVariable] at mem
    split at mem
    · rcases mem with defined | domain' | indexSet
      · exact definition d defined
      · exact domain d domain'
      · exact indexSets d indexSet
    · exact ih v d (mem_expressionsOf.2 mem)
  | @define m u d' _ _ definition ih =>
    intro d mem
    rw [mem_expressionsOf, variableAt_define] at mem
    split at mem
    · rcases mem with defined | mem
      · cases defined
        exact definition
      · exact ih v d (mem_expressionsOf.2 (Or.inr mem))
    · exact ih v d (mem_expressionsOf.2 mem)
  | _ =>
    rename_i ih
    exact ih v

/-- Where variables are not defined after their declaration, all names in what a declaration gives
are of variables that were declared before. -/
theorem earlier (h : m.Built False) (v w : VarKey) (depends : m.DependsOn v w) :
    w.index < v.index := by
  induction h generalizing v with
  | empty =>
    obtain ⟨d, mem, -⟩ := depends
    exact (Nat.not_lt_zero _ ((Built.empty : Model.empty.Built False).given_lt v d mem)).elim
  | @node m form span ty before operands _ ih =>
    obtain ⟨d, mem, e, name, occurs, named⟩ := depends
    obtain ⟨occurs, inside⟩ := occurs_node before.operands_lt (before.given_lt v d mem) occurs
    rw [form_node, if_neg (Nat.ne_of_lt inside)] at named
    exact ih v ⟨d, mem, e, name, occurs, named⟩
  | @addVariable m x before _ _ _ ih =>
    obtain ⟨d, mem, e, name, occurs, named⟩ := depends
    rw [mem_expressionsOf, variableAt_addVariable] at mem
    split at mem
    · next last => exact Nat.lt_of_lt_of_eq (before.named_lt named) last.symm
    · exact ih v ⟨d, mem_expressionsOf.2 mem, e, name, occurs, named⟩
  | define _ _ _ allowed => exact allowed.elim
  | _ =>
    rename_i ih
    exact ih v depends

theorem acyclic (h : m.Built False) : m.Acyclic := by
  have lt {v w : VarKey} (path : TransGen m.DependsOn v w) : w.index < v.index := by
    induction path with
    | single depends => exact h.earlier _ _ depends
    | tail _ depends ih => exact (h.earlier _ _ depends).trans ih
  exact fun v path ↦ Nat.lt_irrefl _ (lt path)

/-- Only defining variables after their declaration can make a cycle. -/
theorem acyclic_of (h : m.Built defines) (acyclic : defines → m.Acyclic) : m.Acyclic := by
  by_cases allowed : defines
  · exact acyclic allowed
  · exact (h.mono allowed).acyclic

end Built

/-! ### What is mentioned -/

/-- A variable that is not declared depends on nothing. -/
private theorem DependsOn.index_lt (h : m.DependsOn v w) : v.index < m.declared.size := by
  obtain ⟨d, mem, -⟩ := h
  by_contra outside
  rw [mem_expressionsOf, variableAt_of_size_le (Nat.le_of_not_lt outside)] at mem
  rcases mem with h | h | h <;> cases h

/-- In a model without cycles dependence comes to an end. -/
theorem Acyclic.wellFounded (acyclic : m.Acyclic) : WellFounded fun w v ↦ m.DependsOn v w := by
  let under (i j : Fin m.declared.size) : Prop := TransGen m.DependsOn ⟨j⟩ ⟨i⟩
  have transitive : IsTrans _ under := ⟨fun _ _ _ h h' ↦ h'.trans h⟩
  have irreflexive : Std.Irrefl under := ⟨fun i h ↦ acyclic _ h⟩
  have wf := Finite.wellFounded_of_trans_of_irrefl under
  have declared (i : Fin m.declared.size) : Acc (fun w v ↦ m.DependsOn v w) ⟨i⟩ := by
    induction i using wf.induction with
    | _ i ih =>
      refine ⟨_, fun w depends ↦ ⟨_, fun u depends' ↦ ?_⟩⟩
      exact (ih ⟨w.index, depends'.index_lt⟩ (.single depends)).inv depends'
  exact ⟨fun v ↦ ⟨_, fun w depends ↦ (declared ⟨v.index, depends.index_lt⟩).inv depends⟩⟩

variable {registry : Registry}

/-- What an expression mentions comes to an end, if so does all that is given for the variables
that are named in it. -/
private theorem acc_of_named (operands_lt : ∀ e x, x ∈ (m.form e).operands → x.index < e.index)
    (e : ExprKey) (given : ∀ x name v, m.Occurs e x → m.form x = .name name (some v) →
      ∀ d ∈ m.expressionsOf v, Acc (fun y x ↦ y ∈ (Context.mk m registry).mentioned x) d) :
    Acc (fun y x ↦ y ∈ (Context.mk m registry).mentioned x) e := by
  have operand (x : ExprKey) (mem : x ∈ (m.form e).operands) :
      Acc (fun y x ↦ y ∈ (Context.mk m registry).mentioned x) x :=
    acc_of_named operands_lt x fun y name v occurs ↦ given y name v (.head mem occurs)
  refine ⟨_, fun x mem ↦ ?_⟩
  unfold Context.mentioned at mem
  split at mem
  · next name v form => exact given e name v .refl form x (List.mem_append_left _ mem)
  · next name f args form =>
    simp only [form, Form.operands] at operand
    split at mem
    · next b _ =>
      unfold mentionedByCall at mem
      split at mem
      · rcases List.mem_append.1 mem with arg | set
        · exact operand x arg
        · obtain ⟨arg, harg, set⟩ := List.mem_flatMap.1 set
          unfold indexSetsOf at set
          split at set
          · next name v named =>
            have occurs : m.Occurs e arg := .single (by simpa only [form, Form.operands] using harg)
            exact given arg name v occurs named x (List.mem_append_right _ set)
          · cases set
      · exact operand x mem
    · exact operand x mem
  · exact operand x mem
termination_by e.index
decreasing_by exact operands_lt e x mem

/-- In a model without cycles no expression comes back to itself. -/
theorem Acyclic.wellFounded_mentioned (acyclic : m.Acyclic)
    (operands_lt : ∀ e x, x ∈ (m.form e).operands → x.index < e.index) :
    WellFounded fun x e ↦ x ∈ (Context.mk m registry).mentioned e := by
  have given (v : VarKey) : ∀ d ∈ m.expressionsOf v,
      Acc (fun y x ↦ y ∈ (Context.mk m registry).mentioned x) d := by
    induction v using acyclic.wellFounded.induction with
    | _ v ih =>
      intro d mem
      exact acc_of_named operands_lt d fun x name w occurs form ↦
        ih w ⟨d, mem, x, name, occurs, form⟩
  exact ⟨fun e ↦ acc_of_named operands_lt e fun _ _ v _ _ ↦ given v⟩

end Model

end ConstraintEval
