import ConstraintEval.Eval.Evaluator
import Mathlib.Data.List.Nodup
import Mathlib.Data.List.Perm.Subperm

/-!
# How pending declarations grow

Within a scope declarations only become pending, one after another, and none of them twice.
Every one of them is named by some expression of the model. Closing the scope gives back what
was pending before.
-/

namespace ConstraintEval

/-- An expression of the model names a variable. -/
def Model.Names (m : Model) (v : VarKey) : Prop :=
  ∃ e name, m.form e = .name name (some v)

/-- The variable that a name was resolved to. -/
def Form.resolved? : Form → Option VarKey
  | .name _ resolved => resolved
  | _ => none

/-- A key without an expression stands for a name that nothing declares. -/
theorem Model.form_of_size_le {m : Model} {e : ExprKey} (h : m.nodes.size ≤ e.index) :
    m.form e = .name "" none := by
  rw [Model.form, Model.node, Array.getElem?_eq_none h]
  rfl

/-- What can be checked of the forms of all nodes, and holds of a name that nothing declares, holds
of the form of every key. -/
theorem Model.form_of_all {m : Model} (P : Form → Bool)
    (all : m.nodes.toList.all (fun n ↦ P n.form) = true) (unnamed : P (.name "" none) = true)
    (e : ExprKey) : P (m.form e) = true := by
  by_cases inside : e.index < m.nodes.size
  · have := List.all_eq_true.1 all m.nodes[e.index] (Array.getElem_mem_toList inside)
    rwa [Model.form, Model.node, Array.getElem?_eq_getElem inside, Option.getD_some]
  · rwa [Model.form_of_size_le (Nat.le_of_not_lt inside)]

/-- A form is the call of a function. -/
def Form.isCall : Form → Bool
  | .call .. => true
  | _ => false

/-- No expression is a call where no node is one. -/
theorem Model.form_ne_call {m : Model}
    (uncalled : m.nodes.toList.all (fun n ↦ !n.form.isCall) = true) (e : ExprKey) (name : String)
    (f : Option FnKey) (args : List ExprKey) : m.form e ≠ .call name f args := by
  intro form
  have other := Model.form_of_all (fun form ↦ !form.isCall) uncalled rfl e
  rw [form] at other
  cases other

theorem Model.ty_of_size_le {m : Model} {e : ExprKey} (h : m.nodes.size ≤ e.index) :
    m.ty e = .unknown := by
  rw [Model.ty, Model.node, Array.getElem?_eq_none h]
  rfl

/-- Where there is no declaration there is no variable. -/
theorem Model.variableAt_of_size_le {m : Model} {v : VarKey} (h : m.declared.size ≤ v.index) :
    m.variableAt v = default := by
  rw [Model.variableAt, Array.getElem?_eq_none h]
  rfl

/-- What is defined is declared. -/
theorem Model.index_lt_of_definition {m : Model} {v : VarKey} {d : ExprKey}
    (defined : (m.variableAt v).definition = some d) : v.index < m.declared.size := by
  by_contra outside
  rw [Model.variableAt_of_size_le (Nat.le_of_not_lt outside)] at defined
  cases defined

/-- There are no more distinct variables than there are numbers for them. -/
theorem VarKey.length_le_of_nodup {vs : List VarKey} {count : Nat} (nodup : vs.Nodup)
    (lt : ∀ v ∈ vs, v.index < count) : vs.length ≤ count := by
  have distinct : (vs.map VarKey.index).Nodup := by
    refine List.Nodup.map ?_ nodup
    rintro ⟨i⟩ ⟨j⟩ rfl
    rfl
  have subset : vs.map VarKey.index ⊆ List.range count := by
    intro i hi
    obtain ⟨v, hv, rfl⟩ := List.mem_map.1 hi
    exact List.mem_range.2 (lt v hv)
  simpa using (List.subperm_of_subset distinct subset).length_le

namespace Pending

/-- Pending declarations to which visits have been added, each to a variable that the model
names and that was not pending yet. -/
inductive Grows (m : Model) (p : Pending) : Pending → Prop where
  | refl : Grows m p p
  | add {q : Pending} (before : Grows m p q) (v : Visit) (nested : Bool)
      (fresh : q.holds v.key = false) (named : m.Names v.key) : Grows m p (q.add v nested)

variable {m : Model} {p q r : Pending}

private theorem size_add (p : Pending) (v : Visit) (nested : Bool) :
    (p.add v nested).size = p.size + 1 := rfl

theorem Grows.trans (h : Grows m p q) (h' : Grows m q r) : Grows m p r := by
  induction h' with
  | refl => exact h
  | add _ v nested fresh named ih => exact .add ih v nested fresh named

theorem holds_add {v : Visit} {nested : Bool} {u : VarKey} :
    (p.add v nested).holds u = true ↔ u = v.key ∨ p.holds u = true := by
  simp [holds, Pending.add]

/-- A visit begins unless the declaration is pending or the visit is one too many. -/
theorem enter_eq_ok_iff {v : Visit} {nested : Bool} :
    p.enter v nested = .ok q ↔ p.holds v.key = false ∧
      (∀ limit, p.limit = some limit → nested = true → p.nesting < limit) ∧
      q = p.add v nested := by
  unfold enter
  split
  · next held => simp [held]
  · next fresh =>
    rw [Bool.not_eq_true] at fresh
    split
    · next none => simp [fresh, none, eq_comm]
    · next limit some =>
      split
      · next excess =>
        obtain ⟨rfl, excess⟩ := Bool.and_eq_true_iff.1 excess
        simp [some, Nat.not_lt.2 (of_decide_eq_true excess)]
      · next within =>
        simp only [Bool.and_eq_true, decide_eq_true_eq, not_and, Nat.not_le] at within
        simp only [fresh, some, Except.ok.injEq, Option.some.injEq, true_and, eq_comm]
        exact ⟨fun eq ↦ ⟨fun limit h ↦ h ▸ within, eq⟩, fun h ↦ h.2⟩

/-! ### Refused visits -/

theorem cause_addTrail (p : Pending) (f : Failure) : (p.addTrail f).cause = f.cause := by
  unfold addTrail
  split <;> rfl

theorem cause_selfDependence (p : Pending) (v : Visit) :
    (p.selfDependence v).cause = .selfDependence v.name :=
  cause_addTrail ..

theorem cause_excessDepth (p : Pending) (limit : Nat) (v : Visit) :
    (p.excessDepth limit v).cause = .excessDepth limit :=
  cause_addTrail ..

/-! ### Growth -/

/-- Where visits are not limited, one to a declaration that is not pending begins. -/
theorem enter_of_fresh {v : Visit} {nested : Bool} (unlimited : p.limit = none)
    (fresh : p.holds v.key = false) : p.enter v nested = .ok (p.add v nested) :=
  enter_eq_ok_iff.2 ⟨fresh, by simp [unlimited], rfl⟩

/-- A visit that may begin adds to what is pending. -/
theorem grows_of_enter {v : Visit} {nested : Bool} (named : m.Names v.key)
    (h : p.enter v nested = .ok q) : Grows m p q := by
  obtain ⟨fresh, -, rfl⟩ := enter_eq_ok_iff.1 h
  exact .add .refl v nested fresh named

theorem Grows.size_le (h : Grows m p q) : p.size ≤ q.size := by
  induction h with
  | refl => exact Nat.le_refl _
  | add _ v nested _ _ ih =>
    rw [size_add]
    omega

/-- Ending visits until some are left that were going on before ends all that were added. -/
theorem Grows.leaveTo_of_le {n : Nat} (h : Grows m p q) (le : n ≤ p.size) :
    q.leaveTo n = p.leaveTo n := by
  induction h with
  | refl => rfl
  | @add q before v nested _ _ ih =>
    have le' := before.size_le
    have size : (q.add v nested).size - n = q.size - n + 1 := by
      rw [size_add]
      omega
    rw [Pending.leaveTo, size, leaveMany, leave_add]
    exact ih

/-- Ending the visits that were added gives back what was pending before. -/
theorem Grows.leaveTo (h : Grows m p q) : q.leaveTo p.size = p :=
  (h.leaveTo_of_le (Nat.le_refl _)).trans p.leaveTo_size

/-- Pending declarations that have grown by nothing are the same. -/
theorem Grows.eq_of_size_eq (h : Grows m p q) (size : q.size = p.size) : q = p := by
  rw [← h.leaveTo, ← size, leaveTo_size]

/-- Growth adds distinct variables that the model names. -/
theorem Grows.visited (h : Grows m p q) :
    ∃ vs : List VarKey, q.visited = vs ++ p.visited ∧ q.size = vs.length + p.size ∧
      vs.Nodup ∧ ∀ v ∈ vs, m.Names v := by
  induction h with
  | refl => exact ⟨[], rfl, by simp, List.nodup_nil, by simp⟩
  | @add q before v nested fresh named ih =>
    obtain ⟨vs, visited, size, nodup, names⟩ := ih
    have new : v.key ∉ vs := by
      intro hmem
      have held : q.holds v.key = true := by
        rw [holds, visited]
        simp [hmem]
      rw [fresh] at held
      exact Bool.noConfusion held
    refine ⟨v.key :: vs, ?_, ?_, List.nodup_cons.2 ⟨new, nodup⟩, ?_⟩
    · simp [Pending.add, visited]
    · rw [size_add, List.length_cons]
      omega
    · intro w hw
      rcases List.mem_cons.1 hw with rfl | hw
      · exact named
      · exact names w hw

/-- No more declarations become pending than there are expressions to name them. -/
theorem Grows.size_le_add (h : Grows m p q) : q.size ≤ p.size + m.nodes.size := by
  obtain ⟨vs, -, size, nodup, names⟩ := h.visited
  let named := m.nodes.toList.filterMap fun n ↦ n.form.resolved?
  have sub : vs ⊆ named := by
    intro v hv
    obtain ⟨e, name, form⟩ := names v hv
    have node : e.index < m.nodes.size := by
      by_contra hle
      rw [Model.form_of_size_le (Nat.le_of_not_lt hle)] at form
      cases form
    refine List.mem_filterMap.2 ⟨m.nodes[e.index], Array.getElem_mem_toList node, ?_⟩
    rw [Model.form, Model.node, Array.getElem?_eq_getElem node, Option.getD_some] at form
    rw [form, Form.resolved?]
  have le : vs.length ≤ named.length := (List.subperm_of_subset nodup sub).length_le
  have le' : named.length ≤ m.nodes.size := by
    simpa [named] using List.length_filterMap_le (fun n : Node ↦ n.form.resolved?) m.nodes.toList
  omega

end Pending

end ConstraintEval
