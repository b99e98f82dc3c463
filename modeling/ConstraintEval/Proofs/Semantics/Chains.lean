import ConstraintEval.Proofs.Semantics.Determinism
import ConstraintEval.Proofs.Evaluation.Growth
import Mathlib.Tactic.Tauto

/-!
# Chains of names

The variables along a chain of names are different ones, and all of them lead to the end of the
chain. So following a chain comes to its end if none of its variables is pending and visits are
not limited.
-/

namespace ConstraintEval

/-- A chain of names comes by some variables, one after another, on the way to its end. -/
inductive Passes (ctx : Context) : ExprKey → List VarKey → ChainEnd → Prop where
  | expression {e : ExprKey} (form : ∀ name resolved, ctx.model.form e ≠ .name name resolved) :
      Passes ctx e [] (.expression e)
  | undefined {e : ExprKey} {name : String} {v : VarKey}
      (form : ctx.model.form e = .name name (some v))
      (undefined : (ctx.model.variableAt v).definition = none) : Passes ctx e [v] (.undefined v)
  | definition {e d : ExprKey} {name : String} {v : VarKey} {us : List VarKey} {c : ChainEnd}
      (form : ctx.model.form e = .name name (some v))
      (defined : (ctx.model.variableAt v).definition = some d) (next : Passes ctx d us c) :
      Passes ctx e (v :: us) c

/-- Where a name of a variable leads. -/
inductive Ends (ctx : Context) (v : VarKey) : ChainEnd → Prop where
  | undefined (undefined : (ctx.model.variableAt v).definition = none) : Ends ctx v (.undefined v)
  | definition {d : ExprKey} {c : ChainEnd}
      (defined : (ctx.model.variableAt v).definition = some d) (next : Leads ctx d c) :
      Ends ctx v c

variable {ctx : Context} {e d : ExprKey} {us vs : List VarKey} {u : VarKey} {c c' : ChainEnd}

theorem Ends.unique (h : Ends ctx u c) (h' : Ends ctx u c') : c = c' := by
  cases h with
  | undefined undefined =>
    cases h' with
    | undefined _ => rfl
    | definition defined' _ =>
      rw [undefined] at defined'
      cases defined'
  | definition defined next =>
    cases h' with
    | undefined undefined' =>
      rw [defined] at undefined'
      cases undefined'
    | definition defined' next' =>
      rw [defined] at defined'
      cases defined'
      exact next.unique next'

theorem Leads.passes (h : Leads ctx e c) : ∃ us, Passes ctx e us c := by
  induction h with
  | expression form => exact ⟨[], .expression form⟩
  | undefined form undefined => exact ⟨[_], .undefined form undefined⟩
  | definition form defined _ ih =>
    obtain ⟨us, passes⟩ := ih
    exact ⟨_ :: us, .definition form defined passes⟩

theorem Passes.leads (h : Passes ctx e us c) : Leads ctx e c := by
  induction h with
  | expression form => exact .expression form
  | undefined form undefined => exact .undefined form undefined
  | definition form defined _ ih => exact .definition form defined ih

/-- All variables along a chain lead to its end. -/
theorem Passes.ends (h : Passes ctx e us c) (mem : u ∈ us) : Ends ctx u c := by
  induction h with
  | expression => cases mem
  | undefined _ undefined =>
    obtain rfl := List.mem_singleton.1 mem
    exact .undefined undefined
  | definition _ defined next ih =>
    rcases List.mem_cons.1 mem with rfl | mem
    · exact .definition defined next.leads
    · exact ih mem

theorem Passes.unique (h : Passes ctx e us c) (h' : Passes ctx e vs c') : us = vs := by
  induction h generalizing vs c' with
  | expression form =>
    cases h' with
    | expression _ => rfl
    | undefined form' _ => exact (form _ _ form').elim
    | definition form' _ _ => exact (form _ _ form').elim
  | undefined form undefined =>
    cases h' with
    | expression form' => exact (form' _ _ form).elim
    | undefined form' _ =>
      rw [form] at form'
      cases form'
      rfl
    | definition form' defined' _ =>
      rw [form] at form'
      cases form'
      rw [undefined] at defined'
      cases defined'
  | definition form defined _ ih =>
    cases h' with
    | expression form' => exact (form' _ _ form).elim
    | undefined form' undefined' =>
      rw [form] at form'
      cases form'
      rw [defined] at undefined'
      cases undefined'
    | definition form' defined' next' =>
      rw [form] at form'
      cases form'
      rw [defined] at defined'
      cases defined'
      rw [ih next']

/-- The chain after one of its variables is shorter. -/
private theorem Passes.after (h : Passes ctx e us c) (mem : u ∈ us)
    (defined : (ctx.model.variableAt u).definition = some d) :
    ∃ ws, ws.length < us.length ∧ Passes ctx d ws c := by
  induction h with
  | expression => cases mem
  | undefined _ undefined =>
    obtain rfl := List.mem_singleton.1 mem
    rw [undefined] at defined
    cases defined
  | definition _ defined' next ih =>
    rcases List.mem_cons.1 mem with rfl | mem
    · rw [defined] at defined'
      cases defined'
      exact ⟨_, Nat.lt_succ_self _, next⟩
    · obtain ⟨ws, lt, passes⟩ := ih mem
      exact ⟨ws, Nat.lt_succ_of_lt lt, passes⟩

/-- A chain that has an end comes by no variable twice. -/
theorem Passes.nodup (h : Passes ctx e us c) : us.Nodup := by
  induction h with
  | expression => exact List.nodup_nil
  | undefined => simp
  | definition _ defined next ih =>
    refine List.nodup_cons.2 ⟨?_, ih⟩
    intro mem
    obtain ⟨ws, lt, passes⟩ := next.after mem defined
    rw [next.unique passes] at lt
    exact Nat.lt_irrefl _ lt

/-- All variables along a chain but the last one are defined. -/
private theorem Passes.exists_defined (h : Passes ctx e us c) :
    ∃ ws : List VarKey, ws.Sublist us ∧ us.length ≤ ws.length + 1 ∧
      ∀ u ∈ ws, u.index < ctx.model.declared.size := by
  induction h with
  | expression => exact ⟨[], .slnil, by simp, by simp⟩
  | undefined => exact ⟨[], List.nil_sublist _, by simp, by simp⟩
  | @definition e d name v us c form defined _ ih =>
    obtain ⟨ws, sub, length, declared⟩ := ih
    refine ⟨v :: ws, sub.cons_cons v, by simpa using length, ?_⟩
    exact List.forall_mem_cons.2 ⟨Model.index_lt_of_definition defined, declared⟩

/-- A chain that has an end comes by no more variables than there are, and maybe one that is not
declared. -/
theorem Passes.length_le (h : Passes ctx e us c) :
    us.length ≤ ctx.model.declared.size + 1 := by
  obtain ⟨ws, sub, length, declared⟩ := h.exists_defined
  have le := VarKey.length_le_of_nodup (h.nodup.sublist sub) declared
  omega

/-- Following a chain comes to its end, with all of its variables pending, if none of them was
pending before and visits are not limited. -/
theorem followChain_of_passes (nested : Bool) {steps : Nat} {p : Pending}
    (h : Passes ctx e us c) (length : us.length ≤ steps) (unlimited : p.limit = none)
    (fresh : ∀ u ∈ us, p.holds u = false) :
    ∃ q, ctx.followChain nested steps p e = (.ok c, q) ∧ q.limit = none ∧
      ∀ u, q.holds u = true ↔ u ∈ us ∨ p.holds u = true := by
  induction h generalizing nested steps p with
  | @expression e form =>
    refine ⟨p, ?_, unlimited, by simp⟩
    unfold Context.followChain
    split
    · next name h => exact (form _ _ h).elim
    · next name v h => exact (form _ _ h).elim
    · rfl
  | @undefined e name v form undefined =>
    have new : p.holds v = false := fresh v (by simp)
    obtain ⟨steps, rfl⟩ : ∃ n, steps = n + 1 := ⟨steps - 1, by simp at length; omega⟩
    refine ⟨p.add (ctx.visitTo v (ctx.model.span e)) nested, ?_, unlimited, ?_⟩
    · unfold Context.followChain
      simp only [form, Pending.enter_of_fresh (v := ctx.visitTo v _) unlimited new, undefined]
    · intro u
      rw [Pending.holds_add, List.mem_singleton]
      rfl
  | @definition e d name v us c form defined next ih =>
    have new : p.holds v = false := fresh v (by simp)
    obtain ⟨steps, rfl⟩ : ∃ n, steps = n + 1 := ⟨steps - 1, by simp at length; omega⟩
    have notMem : v ∉ us := (List.nodup_cons.1 (Passes.definition form defined next).nodup).1
    let entered := p.add (ctx.visitTo v (ctx.model.span e)) nested
    have unlimited' : entered.limit = none := unlimited
    have fresh' : ∀ u ∈ us, entered.holds u = false := by
      intro u hu
      rw [← Bool.not_eq_true, Pending.holds_add]
      rintro (rfl | held)
      · exact notMem hu
      · rw [fresh u (List.mem_cons_of_mem v hu)] at held
        cases held
    obtain ⟨q, follow, unlimited'', holds⟩ :=
      ih false (Nat.le_of_succ_le_succ length) unlimited' fresh'
    refine ⟨q, ?_, unlimited'', ?_⟩
    · unfold Context.followChain
      simp only [form, Pending.enter_of_fresh (v := ctx.visitTo v _) unlimited new, defined]
      exact follow
    · intro u
      rw [holds, Pending.holds_add, List.mem_cons]
      change u ∈ us ∨ u = v ∨ _ ↔ _
      tauto

end ConstraintEval
