import ConstraintEval.Proofs.Acyclic.Models
import ConstraintEval.Proofs.Bounds.Offers

/-!
# Models that agree on a region

A region of expressions and variables is closed under what these mention, so nothing outside of it
comes up in an evaluation that starts inside. Two models that have the same in a region place
failures, visit variables and follow chains of names alike there. For this the declared domains of
the variables do not matter: models that differ in these still resemble each other.
-/

namespace ConstraintEval

variable {α : Type}

/-! ### Steps along a chain -/

/-- All declared variables that are not pending can be visited in a number of steps, and one step
is left. -/
private def Pending.Spares (p : Pending) (m : Model) (steps : Nat) : Prop :=
  ∀ vs : List VarKey, vs.Nodup → (∀ v ∈ vs, v.index < m.declared.size ∧ p.holds v = false) →
    vs.length < steps

private theorem Pending.spares_of_size_lt {p : Pending} {m : Model} {steps : Nat}
    (lt : m.declared.size < steps) : p.Spares m steps := by
  intro vs nodup unheld
  exact (VarKey.length_le_of_nodup nodup fun v mem ↦ (unheld v mem).1).trans_lt lt

private theorem Pending.Spares.enter {p entered : Pending} {m : Model} {steps : Nat} {visit : Visit}
    {nested : Bool} (h : p.Spares m (steps + 1)) (declared : visit.key.index < m.declared.size)
    (enter : p.enter visit nested = .ok entered) : entered.Spares m steps := by
  obtain ⟨fresh, -, rfl⟩ := Pending.enter_eq_ok_iff.1 enter
  intro vs nodup unheld
  have unheld' : ∀ v ∈ vs, v ≠ visit.key ∧ p.holds v = false := by
    intro v mem
    have := (unheld v mem).2
    rw [← Bool.not_eq_true, Pending.holds_add, not_or, Bool.not_eq_true] at this
    exact this
  have lt := h (visit.key :: vs) (List.nodup_cons.2 ⟨fun mem ↦ (unheld' _ mem).1 rfl, nodup⟩)
    (List.forall_mem_cons.2 ⟨⟨declared, fresh⟩, fun v mem ↦ ⟨(unheld v mem).1, (unheld' v mem).2⟩⟩)
  exact Nat.lt_of_succ_lt_succ lt

/-- More steps than there are variables to visit make no difference. -/
private theorem Context.followChain_add {ctx : Context} {nested : Bool} {steps more : Nat}
    {p : Pending} {e : ExprKey} (spares : p.Spares ctx.model steps) :
    ctx.followChain nested (steps + more) p e = ctx.followChain nested steps p e := by
  induction steps generalizing nested p e with
  | zero => exact (Nat.lt_irrefl 0 (spares [] .nil (by simp))).elim
  | succ steps ih =>
    rw [Nat.succ_add]
    unfold followChain
    split
    · rfl
    · next name v form =>
      simp only
      split
      · rfl
      · next entered enter =>
        split
        · rfl
        · next d defined =>
          exact ih (spares.enter (Model.index_lt_of_definition defined) enter)
    · rfl

/-! ### What contexts agree on -/

/-- Two contexts have the same in a region of expressions and variables that is closed under what
these mention. The second one may hold more outside of the region. -/
structure Context.Agrees (ctx ctx' : Context) (P : ExprKey → Prop) (V : VarKey → Prop) :
    Prop where
  registry : ctx'.registry = ctx.registry
  node : ∀ e, P e → ctx'.model.node e = ctx.model.node e
  variableAt : ∀ v, V v → ctx'.model.variableAt v = ctx.model.variableAt v
  declared : ctx.model.declared.size ≤ ctx'.model.declared.size
  operands : ∀ e, P e → ∀ x ∈ (ctx.model.form e).operands, P x
  named : ∀ e name v, P e → ctx.model.form e = .name name (some v) → V v
  given : ∀ v, V v → ∀ d ∈ ctx.model.expressionsOf v, P d

/-- Two contexts have the same in a region of expressions and variables, but the declared domains of
the variables may be others. Only what can come up from an expression of the region needs to be in
the region. -/
structure Context.Resembles (ctx ctx' : Context) (P : ExprKey → Prop) (V : VarKey → Prop) :
    Prop where
  registry : ctx'.registry = ctx.registry
  node : ∀ e, P e → ctx'.model.node e = ctx.model.node e
  variableAt : ∀ v, V v → ∃ domain,
    ctx'.model.variableAt v = { ctx.model.variableAt v with domain }
  declared : ctx.model.declared.size ≤ ctx'.model.declared.size
  closed : ctx.Closed P
  named : ∀ e name v, P e → ctx.model.form e = .name name (some v) → V v

/-- A chain of names ends in a region. -/
def ChainEnd.Within (P : ExprKey → Prop) (V : VarKey → Prop) : ChainEnd → Prop
  | .expression e => P e
  | .undefined v => V v

namespace Context.Agrees

variable {ctx ctx' : Context} {P : ExprKey → Prop} {V : VarKey → Prop} {v : VarKey}
  (h : ctx.Agrees ctx' P V)

include h

theorem given_definition {d : ExprKey} (hv : V v)
    (defined : (ctx.model.variableAt v).definition = some d) : P d :=
  h.given v hv d (Model.mem_expressionsOf.2 (Or.inl defined))

theorem given_domain {d : ExprKey} (hv : V v) (domain : (ctx.model.variableAt v).domain = some d) :
    P d :=
  h.given v hv d (Model.mem_expressionsOf.2 (Or.inr (Or.inl domain)))

theorem given_indexSet {d : ExprKey} (hv : V v)
    (set : some d ∈ (ctx.model.variableAt v).indexSets) : P d :=
  h.given v hv d (Model.mem_expressionsOf.2 (Or.inr (Or.inr set)))

/-- Everything that comes up stays in the region. -/
theorem closed : ctx.Closed P := by
  intro e x he mem
  unfold Context.mentioned at mem
  split at mem
  · next name v form =>
    exact h.given v (h.named e name v he form) x (List.mem_append_left _ mem)
  · next name f args form =>
    have hargs : ∀ x ∈ args, P x := by simpa [form, Form.operands] using h.operands e he
    split at mem
    · unfold Model.mentionedByCall at mem
      split at mem
      · rcases List.mem_append.1 mem with arg | set
        · exact hargs x arg
        · obtain ⟨arg, harg, set⟩ := List.mem_flatMap.1 set
          unfold Model.indexSetsOf at set
          split at set
          · next name v named =>
            have hv := h.named arg name v (hargs arg harg) named
            exact h.given_indexSet hv (by simpa using set)
          · cases set
      · exact hargs x mem
    · exact hargs x mem
  · exact h.operands e he x mem

theorem resembles : ctx.Resembles ctx' P V where
  registry := h.registry
  node := h.node
  variableAt v hv := ⟨_, h.variableAt v hv⟩
  declared := h.declared
  closed := h.closed
  named := h.named

end Context.Agrees

namespace Context.Resembles

variable {ctx ctx' : Context} {P : ExprKey → Prop} {V : VarKey → Prop} {e : ExprKey} {v : VarKey}
  (h : ctx.Resembles ctx' P V)

include h

theorem form (he : P e) : ctx'.model.form e = ctx.model.form e :=
  congrArg Node.form (h.node e he)

theorem span (he : P e) : ctx'.model.span e = ctx.model.span e :=
  congrArg Node.span (h.node e he)

theorem ty (he : P e) : ctx'.model.ty e = ctx.model.ty e := congrArg Node.ty (h.node e he)

theorem name (hv : V v) : (ctx'.model.variableAt v).name = (ctx.model.variableAt v).name := by
  obtain ⟨domain, eq⟩ := h.variableAt v hv
  rw [eq]

theorem declaredAt (hv : V v) :
    (ctx'.model.variableAt v).span = (ctx.model.variableAt v).span := by
  obtain ⟨domain, eq⟩ := h.variableAt v hv
  rw [eq]

theorem definition (hv : V v) :
    (ctx'.model.variableAt v).definition = (ctx.model.variableAt v).definition := by
  obtain ⟨domain, eq⟩ := h.variableAt v hv
  rw [eq]

theorem indexSets (hv : V v) :
    (ctx'.model.variableAt v).indexSets = (ctx.model.variableAt v).indexSets := by
  obtain ⟨domain, eq⟩ := h.variableAt v hv
  rw [eq]

theorem operand {x : ExprKey} (he : P e) (mem : x ∈ (ctx.model.form e).operands) : P x :=
  h.closed.operand he mem

/-- A chain that starts in the region ends in it. -/
theorem chainEnd_within {c : ChainEnd} (he : P e) (leads : Leads ctx e c) : c.Within P V := by
  induction leads with
  | expression _ => exact he
  | undefined form _ => exact h.named _ _ _ he form
  | definition form defined _ ih => exact ih (h.closed.definition he form defined)

/-! ### Failures and visits -/

theorem locate (he : P e) : ctx'.locate e = ctx.locate e := by
  funext f s
  rw [Context.locate, Context.locate, h.span he]

theorem failureAt (he : P e) : ctx'.failureAt e = ctx.failureAt e := by
  funext cause
  rw [Context.failureAt, Context.failureAt, h.locate he]

theorem failAt (he : P e) : (ctx'.failAt e : Cause → EvalM α) = ctx.failAt e := by
  funext cause
  rw [Context.failAt, Context.failAt, h.failureAt he]

theorem locating (he : P e) : (ctx'.locating e : EvalM α → EvalM α) = ctx.locating e := by
  funext x
  rw [Context.locating, Context.locating, h.locate he]

theorem visitTo (hv : V v) : ctx'.visitTo v = ctx.visitTo v := by
  funext span
  rw [Context.visitTo, Context.visitTo, h.name hv]

theorem enter (hv : V v) : ctx'.enter v = ctx.enter v := by
  funext span
  rw [Context.enter, Context.enter, h.visitTo hv]

theorem missingValue (hv : V v) : ctx'.missingValue v = ctx.missingValue v := by
  simp only [Context.missingValue, h.name hv, h.declaredAt hv]

/-! ### Chains of names -/

private theorem followChain (he : P e) (nested : Bool) (steps : Nat) (p : Pending) :
    ctx'.followChain nested steps p e = ctx.followChain nested steps p e := by
  induction steps generalizing e nested p with
  | zero =>
    unfold Context.followChain
    rw [h.form he, h.span he]
    split
    · rfl
    · next name v form =>
      simp only [h.visitTo (h.named e name v he form)]
    · rfl
  | succ steps ih =>
    unfold Context.followChain
    rw [h.form he, h.span he]
    split
    · rfl
    · next name v form =>
      have hv := h.named e name v he form
      simp only [h.visitTo hv, h.definition hv]
      split
      · rfl
      · split
        · rfl
        · next d defined => exact ih (h.closed.definition he form defined) false _
    · rfl

theorem chainEnd (he : P e) : ctx'.chainEnd e = ctx.chainEnd e := by
  have steps (p : Pending) : ctx'.followChain true (ctx'.model.declared.size + 1) p e =
      ctx.followChain true (ctx.model.declared.size + 1) p e := by
    obtain ⟨more, size⟩ := Nat.exists_eq_add_of_le h.declared
    rw [h.followChain he, size, Nat.add_right_comm]
    exact Context.followChain_add (Pending.spares_of_size_lt (Nat.lt_succ_self _))
  unfold Context.chainEnd
  simp only [steps]

end Context.Resembles

end ConstraintEval
