import ConstraintEval.Library.Registry

/-!
# What the standard library binds

The registry of a model binds a builtin only to an overload that has the name of the library
function that the builtin computes. So the name of a call tells which builtins it may mean, as
long as the call carries the name of its overload, which every call that is added by name does.
-/

namespace ConstraintEval

/-- The overload that a call of a name means has that name. -/
theorem Model.name_of_select {m : Model} {name : String} {args : List Ty} {f : FnKey}
    (h : m.select name args = .one f) : (m.overloadAt f).name = name := by
  unfold Model.select at h
  split at h
  · cases h
  · next g gs candidates =>
    split at h
    · next g' least =>
      cases h
      have mem : f ∈ m.leastAmong (g :: gs) := by
        rw [least]
        exact List.mem_singleton_self f
      have accepted := (List.mem_filter.1 mem).1
      rw [← candidates] at accepted
      have named := (List.mem_filter.1 (List.mem_filter.1 accepted).1).2
      exact eq_of_beq named
    · cases h

/-- Adding a node gives it the next key. -/
private theorem form_node {m m' : Model} {e : ExprKey} {form : Form} {span : Span} {ty : Ty}
    (h : (Build.node form span ty).run m = (e, m')) :
    m'.form e = form ∧ m'.overloads = m.overloads := by
  cases h
  simp [Model.form, Model.node]

/-- A call that is added by name and resolved carries the name of its overload. -/
theorem Build.call_named {m m' : Model} {e : ExprKey} {name name' : String} {f : FnKey}
    {args args' : List ExprKey} (h : (Build.call name args).run m = (e, m'))
    (form : m'.form e = .call name' (some f) args') : (m'.overloadAt f).name = name' := by
  simp only [Build.call, Build.mention, StateT.run_bind, StateT.run_modify, StateT.run_get,
    pure_bind] at h
  split at h
  · next g selected =>
    obtain ⟨form', overloads⟩ := form_node h
    rw [form'] at form
    cases form
    rw [Model.overloadAt, overloads]
    exact Model.name_of_select selected
  · obtain ⟨form', -⟩ := form_node h
    rw [form'] at form
    cases form
  · obtain ⟨form', -⟩ := form_node h
    rw [form'] at form
    cases form

/-- A name of the library, where it is one with a rule for bounds, may stand for a builtin. -/
structure Builtin.GoesBy (b : Builtin) (name : String) : Prop where
  boolToInt : name = "bool2int" → b = .boolToInt
  sum : name = "sum" → b = .sum
  extremum : ∀ side : Side, name = side.extremumName →
    b = .extremum side ∨ b = .extremumOfSet side
  bound : ∀ side : Side, name = side.boundName → b = .bound side ∨ b = .upperSet

private theorem Library.goesBy :
    ∀ impl ∈ Library.implementations, impl.builtin.GoesBy impl.name := by
  intro impl mem
  refine ⟨?_, ?_, ?_, ?_⟩
  · revert impl
    decide +kernel
  · revert impl
    decide +kernel
  · intro side
    cases side <;> revert impl <;> decide +kernel
  · intro side
    cases side <;> revert impl <;> decide +kernel

namespace Registry

variable {m : Model} {r r' : Registry} {f : FnKey} {b : Builtin}

/-- Every builtin that a registry binds is bound to an overload of a library function that it
computes. -/
def OfLibrary (m : Model) (r : Registry) : Prop :=
  ∀ f b, (f, b) ∈ r.bindings →
    ∃ impl ∈ Library.implementations, impl.builtin = b ∧ (m.overloadAt f).name = impl.name

private theorem OfLibrary.bind {impl : Implementation} (h : OfLibrary m r)
    (mem : impl ∈ Library.implementations)
    (bind : r.bind m impl.name impl.params impl.builtin = .ok (f, r')) :
    OfLibrary m r' := by
  unfold Registry.bind at bind
  simp only at bind
  split at bind
  · cases bind
  · cases bind
  · next g selected =>
    split at bind
    · cases bind
    · cases bind
      intro g' b hg
      rcases List.mem_append.1 hg with hg | hg
      · exact h g' b hg
      · cases List.mem_singleton.1 hg
        exact ⟨impl, mem, rfl, Model.name_of_select selected⟩

private theorem OfLibrary.foldlM {impls : List Implementation} (h : OfLibrary m r)
    (mem : ∀ impl ∈ impls, impl ∈ Library.implementations)
    (fold : impls.foldlM (fun r impl ↦ (·.2) <$>
      Registry.bind m r impl.name impl.params impl.builtin) r = .ok r') :
    OfLibrary m r' := by
  induction impls generalizing r with
  | nil =>
    cases fold
    exact h
  | cons impl impls ih =>
    obtain ⟨himpl, himpls⟩ := List.forall_mem_cons.1 mem
    rw [List.foldlM_cons] at fold
    cases bound : r.bind m impl.name impl.params impl.builtin with
    | error f =>
      rw [bound] at fold
      cases fold
    | ok result =>
      rw [bound] at fold
      exact ih (h.bind himpl bound) himpls fold

/-- The registry of a model binds what the library says. -/
theorem ofLibrary_bindings (h : Registry.ofLibrary m = .ok r) : OfLibrary m r :=
  OfLibrary.foldlM (r := .empty) (fun _ _ h ↦ nomatch h) (fun _ h ↦ h) h

/-- The builtin of an overload goes by the overload's name. -/
theorem goesBy_of_builtin? (h : Registry.ofLibrary m = .ok r) (bound : r.builtin? f = some b) :
    b.GoesBy (m.overloadAt f).name := by
  obtain ⟨before, after, bindings, -⟩ := List.lookup_eq_some_iff.1 bound
  obtain ⟨impl, mem, rfl, named⟩ := ofLibrary_bindings h f b (by simp [bindings])
  rw [named]
  exact Library.goesBy impl mem

end Registry

end ConstraintEval
