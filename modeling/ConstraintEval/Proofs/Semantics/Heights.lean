import ConstraintEval.Proofs.Semantics.Determinism

/-!
# Heights of derivations

What an expression evaluates to without an assignment it evaluates to by a derivation of some
height. A name needs a higher derivation than the end of its chain, and the premises of a
derivation of least height never need the expression again.
-/

namespace ConstraintEval

/-- An expression evaluates to a value by a derivation of limited height. -/
def EvaluatesIn (ctx : Context) : (height : Nat) → ExprKey → Value → Prop
  | 0, _, _ => False
  | n + 1, e, v => ∃ ps, Rule ctx ps e v ∧ ∀ p ∈ ps, EvaluatesIn ctx n p.1 p.2

variable {ctx : Context} {m n : Nat} {e x d : ExprKey} {v w : Value}

theorem EvaluatesIn.mono (h : EvaluatesIn ctx m e v) (le : m ≤ n) : EvaluatesIn ctx n e v := by
  induction m generalizing n e v with
  | zero => exact h.elim
  | succ m ih =>
    obtain ⟨ps, rule, sub⟩ := h
    cases n with
    | zero => exact absurd le (Nat.not_succ_le_zero m)
    | succ n => exact ⟨ps, rule, fun p hp ↦ ih (sub p hp) (Nat.le_of_succ_le_succ le)⟩

theorem EvaluatesIn.evaluates (h : EvaluatesIn ctx n e v) : Evaluates ctx .none e v := by
  induction n generalizing e v with
  | zero => exact h.elim
  | succ n ih =>
    obtain ⟨ps, rule, sub⟩ := h
    exact .of_rule rule fun p hp ↦ ih (sub p hp)

/-- Finitely many derivations have a common height. -/
private theorem exists_common_height {ps : List Judgement}
    (h : ∀ p ∈ ps, ∃ n, EvaluatesIn ctx n p.1 p.2) :
    ∃ n, ∀ p ∈ ps, EvaluatesIn ctx n p.1 p.2 := by
  induction ps with
  | nil => exact ⟨0, by simp⟩
  | cons p ps ih =>
    obtain ⟨⟨m, hp⟩, hps⟩ := List.forall_mem_cons.1 h
    obtain ⟨n, hn⟩ := ih hps
    refine ⟨max m n, List.forall_mem_cons.2 ⟨hp.mono (Nat.le_max_left m n), ?_⟩⟩
    intro q hq
    exact (hn q hq).mono (Nat.le_max_right m n)

theorem Evaluates.exists_height (h : Evaluates ctx .none e v) : ∃ n, EvaluatesIn ctx n e v := by
  induction h with
  | of_rule rule sub ih =>
    obtain ⟨n, hn⟩ := exists_common_height ih
    exact ⟨n + 1, _, rule, hn⟩
  | assigned _ _ given => cases given
  | cell _ given => cases given

theorem EvaluatesIn.unique (h : EvaluatesIn ctx m e v) (h' : EvaluatesIn ctx n e w) : v = w :=
  h.evaluates.unique h'.evaluates

/-- A derivation of limited height can be replaced by one of least height. -/
theorem EvaluatesIn.exists_least (h : EvaluatesIn ctx n e v) :
    ∃ m ≤ n, EvaluatesIn ctx m e v ∧ ∀ k < m, ∀ w, ¬ EvaluatesIn ctx k e w := by
  induction n using Nat.strongRecOn with
  | ind n ih =>
    by_cases lower : ∃ k < n, EvaluatesIn ctx k e v
    · obtain ⟨k, lt, hk⟩ := lower
      obtain ⟨m, le, least⟩ := ih k lt hk
      exact ⟨m, by omega, least⟩
    · refine ⟨n, Nat.le_refl n, h, ?_⟩
      intro k lt w hw
      obtain rfl := hw.unique h
      exact lower ⟨k, lt, hw⟩

/-! ### Names -/

/-- The value of a name is that of the definition of its variable. -/
theorem Rule.of_name {ps : List Judgement} {name : String} {resolved : Option VarKey}
    (h : Rule ctx ps e v) (form : ctx.model.form e = .name name resolved) :
    ∃ x d, resolved = some x ∧ (ctx.model.variableAt x).definition = some d ∧ ps = [(d, v)] := by
  cases h with
  | definition form' defined =>
    rw [form] at form'
    cases form'
    exact ⟨_, _, rfl, defined, rfl⟩
  | _ => simp_all

/-- An expression that evaluates to a value has a chain that ends at an expression. -/
theorem EvaluatesIn.leads (h : EvaluatesIn ctx n e v) : ∃ x, Leads ctx e (.expression x) := by
  induction n generalizing e v with
  | zero => exact h.elim
  | succ n ih =>
    by_cases named : ∃ name resolved, ctx.model.form e = .name name resolved
    · obtain ⟨name, resolved, form⟩ := named
      obtain ⟨ps, rule, sub⟩ := h
      obtain ⟨y, d, rfl, defined, rfl⟩ := rule.of_name form
      obtain ⟨x, chain⟩ := ih (sub (d, v) (by simp))
      exact ⟨x, .definition form defined chain⟩
    · refine ⟨e, .expression ?_⟩
      intro name resolved form
      exact named ⟨name, resolved, form⟩

/-- The end of a chain of names needs no higher derivation than its start. -/
theorem EvaluatesIn.of_leads (h : EvaluatesIn ctx n e v) (chain : Leads ctx e (.expression x)) :
    EvaluatesIn ctx n x v := by
  generalize hc : ChainEnd.expression x = c at chain
  induction chain generalizing n with
  | expression =>
    cases hc
    exact h
  | undefined => cases hc
  | definition form defined _ ih =>
    cases n with
    | zero => exact h.elim
    | succ n =>
      obtain ⟨ps, rule, sub⟩ := h
      obtain ⟨y, d, resolved, defined', rfl⟩ := rule.of_name form
      cases resolved
      rw [defined] at defined'
      cases defined'
      exact (ih (sub (_, v) (by simp)) hc).mono (Nat.le_succ n)

end ConstraintEval
