import ConstraintEval.Proofs.Evaluation.Termination
import ConstraintEval.Proofs.Semantics.Chains
import ConstraintEval.Proofs.Semantics.Heights
import ConstraintEval.Proofs.Semantics.Soundness
import ConstraintEval.Proofs.Semantics.Yields

/-!
# Values by the rules are given

The check for declarations that need their own value never refuses an expression that has one.
While the end of a chain of names is worked out the variables along the chain are pending, and a
derivation of least height for the end has no use for a name of them: it would lead back to the
end. While the declared domain at the end of a chain is worked out, no derivation of least height
for the domain has a use for one either. So the derivation can be followed step by step.
-/

namespace ConstraintEval

/-- Neither a builtin that looks for bounds nor the union of the domains of an array's elements
can come up while an expression is worked out. -/
def Context.Plain (ctx : Context) : ExprKey → Prop :=
  ctx.Avoids fun b ↦ b.looksForBounds = true ∨ b = .domainOfElements

variable {ctx : Context} {e x y z : ExprKey} {c : ChainEnd} {us : List VarKey} {u : VarKey}
  {v w : Value} {p : Pending} {n : Nat}

theorem Context.Plain.boundless (h : ctx.Plain e) : ctx.Boundless e := by
  intro x reaches name f args b form bound looks
  exact h x reaches name f args b form bound (Or.inl looks)

/-- No derivation of some height needs what pending declarations lead to, except for the
expression `x`, the end of the innermost chain. -/
structure Clear (ctx : Context) (n : Nat) (x : ExprKey) (p : Pending) : Prop where
  unlimited : p.limit = none
  values : ∀ u y v, p.holds u = true → Ends ctx u (.expression y) → EvaluatesIn ctx n y v → y = x
  domains : ∀ u w d v, p.holds u = true → Ends ctx u (.undefined w) →
    (ctx.model.variableAt w).domain = some d → ∀ k < n, ¬ EvaluatesIn ctx k d v

namespace Evaluator

variable (ev : Evaluator)

/-- The evaluator gives every value that has a derivation of some height, as long as nothing is
pending that the derivation needs. -/
def Finds (n : Nat) : Prop :=
  ∀ e x v p us, ev.Plain e → EvaluatesIn ev.toContext n e v →
    Passes ev.toContext e us (.expression x) → (∀ u ∈ us, p.holds u = false) →
      Clear ev.toContext n x p → Yields p (ev.eval e) v p

variable {ev}

/-- The variables along a chain become pending for as long as its end is worked out. -/
private theorem yields_chainEnd (passes : Passes ctx e us c) (unlimited : p.limit = none)
    (fresh : ∀ u ∈ us, p.holds u = false) :
    ∃ q, Yields p (ctx.chainEnd e) c q ∧ q.limit = none ∧
      (∀ u, q.holds u = true ↔ u ∈ us ∨ p.holds u = true) ∧ q.leaveTo p.size = p := by
  obtain ⟨q, follow, unlimited', holds⟩ :=
    followChain_of_passes true passes passes.length_le unlimited fresh
  refine ⟨q, ?_, unlimited', holds, ?_⟩
  · intro s hs
    refine ⟨{ s with pending := q }, rfl, ?_⟩
    rw [Context.chainEnd_apply, hs, follow]
  · have grows := grows_followChain ctx true (ctx.model.declared.size + 1) p e
    rw [follow] at grows
    exact grows.leaveTo

/-! ### Inside the end of a chain -/

section Inside

variable (finds : ∀ k ≤ n, ev.Finds k) (clear : Clear ev.toContext (n + 1) x p)
  (least : ∀ k ≤ n, ∀ w, ¬ EvaluatesIn ev.toContext k x w)

include clear least in
/-- What pending declarations lead to is not needed again. -/
private theorem not_needed (held : p.holds u = true) (ends : Ends ev.toContext u (.expression y))
    (hy : EvaluatesIn ev.toContext n y w) : False := by
  obtain rfl := clear.values u y w held ends (hy.mono (Nat.le_succ n))
  exact least n (Nat.le_refl n) w hy

include clear least in
private theorem fresh_of_passes (passes : Passes ev.toContext e us (.expression y))
    (hy : EvaluatesIn ev.toContext n y w) : ∀ u ∈ us, p.holds u = false := by
  intro u hu
  by_contra held
  exact not_needed clear least (Bool.not_eq_false _ ▸ held) (passes.ends hu) hy

include finds clear least

private theorem yields_premise (plain : ev.Plain y) (hy : EvaluatesIn ev.toContext n y w) :
    Yields p (ev.eval y) w p := by
  obtain ⟨z, chain⟩ := hy.leads
  obtain ⟨us, passes⟩ := chain.passes
  have fresh := fresh_of_passes clear least passes (hy.of_leads chain)
  refine finds n (Nat.le_refl n) y z w p us plain hy passes fresh ⟨clear.unlimited, ?_, ?_⟩
  · intro u y' v held ends hy'
    exact (not_needed clear least held ends hy').elim
  · intro u x' d v held ends domain k lt
    exact clear.domains u x' d v held ends domain k (by omega)

/-- The declared domain at the end of a chain is found while the chain is pending. -/
private theorem yields_domainOfDeclared {a : VarKey} {d : ExprKey} {s : IntegerSet}
    (operation : String) (chain : Leads ev.toContext e (.undefined a))
    (domain : (ev.model.variableAt a).domain = some d) (plain : ev.Plain d)
    (hd : EvaluatesIn ev.toContext n d (.set s)) :
    ∃ q, Yields p (ev.chainEnd e) (.undefined a) q ∧
      Yields q (ev.domainOfDeclared a operation) s q ∧ q.leaveTo p.size = p := by
  obtain ⟨us, passes⟩ := chain.passes
  have fresh : ∀ u ∈ us, p.holds u = false := by
    intro u hu
    by_contra held
    exact clear.domains u a d (.set s) (Bool.not_eq_false _ ▸ held) (passes.ends hu) domain n
      (Nat.lt_succ_self n) hd
  obtain ⟨q, yields, unlimited, holds, leave⟩ := yields_chainEnd passes clear.unlimited fresh
  refine ⟨q, yields, ?_, leave⟩
  obtain ⟨m, le, hm, lower⟩ := hd.exists_least
  obtain ⟨z, chain'⟩ := hm.leads
  obtain ⟨us', passes'⟩ := chain'.passes
  have hz := hm.of_leads chain'
  -- a variable that is pending now leads to the end of neither chain, or to none of them
  have unneeded : ∀ {u y w}, q.holds u = true → Ends ev.toContext u (.expression y) →
      ¬ EvaluatesIn ev.toContext m y w := by
    intro u y w held ends hy
    rcases (holds u).1 held with mem | held
    · cases ends.unique (passes.ends mem)
    · exact not_needed clear least held ends (hy.mono le)
  have value : Yields q (ev.eval d) (.set s) q := by
    refine finds m le d z (.set s) q us' plain hm passes' ?_ ⟨unlimited, ?_, ?_⟩
    · intro u hu
      by_contra held
      exact unneeded (Bool.not_eq_false _ ▸ held) (passes'.ends hu) hz
    · intro u y w held ends hy
      exact (unneeded held ends hy).elim
    · intro u b d' w held ends domain' k lt hk
      rcases (holds u).1 held with mem | held
      · cases ends.unique (passes.ends mem)
        rw [domain] at domain'
        cases domain'
        exact lower k lt w hk
      · exact clear.domains u b d' w held ends domain' k (by omega) hk
  unfold domainOfDeclared
  simp only [domain]
  exact value.setOf

private theorem yields_domainOf {ps : List Judgement} {s : IntegerSet}
    (shows : ShowsDomain ev.toContext ps e s) (compound : ∀ i, ev.model.form x ≠ .int i)
    (plain : ∀ j ∈ ps, ev.Plain j.1) (holds : ∀ j ∈ ps, EvaluatesIn ev.toContext n j.1 j.2) :
    Yields p (ev.domainOf e) s p := by
  cases shows with
  | @literal e y i chain form =>
    obtain ⟨us, passes⟩ := chain.passes
    have fresh : ∀ u ∈ us, p.holds u = false := by
      intro u hu
      by_contra held
      have hy : EvaluatesIn ev.toContext (n + 1) y (.int i) := ⟨[], .int form, by simp⟩
      obtain rfl := clear.values u y _ (Bool.not_eq_false _ ▸ held) (passes.ends hu) hy
      exact compound i form
    obtain ⟨q, yields, -, -, leave⟩ := yields_chainEnd passes clear.unlimited fresh
    refine (Yields.locating (yields.bind ?_)).inScope leave
    simp only [form]
    exact .pure _
  | @declared e d a s chain domain =>
    have hd := holds (d, .set s) (by simp)
    obtain ⟨q, yields, value, leave⟩ := yields_domainOfDeclared finds clear least "dom" chain domain
      (plain (d, .set s) (by simp)) hd
    exact (Yields.locating (yields.bind value)).inScope leave

private theorem yields_upperSet_written {s : IntegerSet}
    (chain : Leads ev.toContext e (.expression y))
    (form : (∃ members, ev.model.form y = .set members) ∨ ∃ lo hi, ev.model.form y = .between lo hi)
    (plain : ev.Plain y) (hy : EvaluatesIn ev.toContext n y (.set s)) :
    Yields p (ev.upperSet e) s p := by
  obtain ⟨us, passes⟩ := chain.passes
  have fresh := fresh_of_passes clear least passes hy
  obtain ⟨q, yields, unlimited, holds, leave⟩ := yields_chainEnd passes clear.unlimited fresh
  have value : Yields q (ev.eval y) (.set s) q := by
    refine finds n (Nat.le_refl n) y y (.set s) q [] plain hy (.expression chain.unnamed) (by simp)
      ⟨unlimited, ?_, ?_⟩
    · intro u z w held ends hz
      rcases (holds u).1 held with mem | held
      · cases ends.unique (passes.ends mem)
        rfl
      · exact (not_needed clear least held ends hz).elim
    · intro u b d w held ends domain k lt
      rcases (holds u).1 held with mem | held
      · cases ends.unique (passes.ends mem)
      · exact clear.domains u b d w held ends domain k (by omega)
  refine (Yields.locating (yields.bind ?_)).inScope leave
  rcases form with ⟨members, form⟩ | ⟨lo, hi, form⟩
  · simp only [form]
    exact value.setOf
  · simp only [form]
    exact value.setOf

private theorem yields_call {ps : List Judgement} {name : String} {f : FnKey} {args : List ExprKey}
    {b : Builtin} (form : ev.model.form x = .call name (some f) args)
    (bound : ev.registry.builtin? f = some b) (applies : Applies ev.toContext ps b args v)
    (plain : ev.Plain x) (plains : ∀ j ∈ ps, ev.Plain j.1)
    (holds : ∀ j ∈ ps, EvaluatesIn ev.toContext n j.1 j.2) : Yields p (ev.apply args b) v p := by
  have compound : ∀ i, ev.model.form x ≠ .int i := by
    intro i literal
    rw [form] at literal
    cases literal
  have supplies : ev.Supplies p ps := by
    intro j hj
    exact yields_premise finds clear least (plains j hj) (holds j hj)
  cases followsNames : b.followsNames with
  | false => exact yields_apply applies followsNames supplies
  | true =>
    cases applies with
    | @upperSetDeclared arg d a s chain domain =>
      obtain ⟨q, yields, value, leave⟩ :=
        yields_domainOfDeclared finds clear least "ub" chain domain
          (plains (d, .set s) (by simp)) (holds (d, .set s) (by simp))
      have set : Yields p (ev.upperSet arg) s p :=
        (Yields.locating (yields.bind value)).inScope leave
      exact (Yields.pure arg).bind (set.bind (.pure _))
    | @upperSetWritten arg y s chain form' =>
      have set := yields_upperSet_written finds clear least chain form'
        (plains (y, .set s) (by simp)) (holds (y, .set s) (by simp))
      exact (Yields.pure arg).bind (set.bind (.pure _))
    | @domain ps arg s shows =>
      have set := yields_domainOf finds clear least shows compound plains holds
      exact (Yields.pure arg).bind (set.bind (.pure _))
    | domainOfElements => exact (plain x .refl name f _ _ form bound (Or.inr rfl)).elim
    | _ => cases followsNames

/-- The end of a chain is worked out by the derivation of its value. -/
private theorem yields_valueOfEnd {ps : List Judgement} (rule : Rule ev.toContext ps x v)
    (unnamed : ∀ name resolved, ev.model.form x ≠ .name name resolved) (plain : ev.Plain x)
    (holds : ∀ j ∈ ps, EvaluatesIn ev.toContext n j.1 j.2) : Yields p (ev.valueByForm x) v p := by
  have plains : ∀ j ∈ ps, ev.Plain j.1 :=
    (closed_avoids ev.toContext _).premises (ρ := .none) (fun _ _ h ↦ nomatch h)
      (fun _ _ h ↦ nomatch h) plain rule fun j hj ↦ (holds j hj).evaluates
  refine yields_valueByForm rule unnamed ?_ ?_
  · intro name f args b form bound applies
    exact yields_call finds clear least form bound applies plain plains holds
  · intro j hj
    exact yields_premise finds clear least (plains j hj) (holds j hj)

end Inside

/-! ### Along a chain -/

private theorem yields_valueStep {p q : Pending}
    (yields : Yields p (ev.chainEnd e) (.expression x) q)
    (value : Yields q (ev.valueByForm x) v q) (leave : q.leaveTo p.size = p) :
    Yields p (ev.valueStep e) v p := by
  apply ((Yields.locating (yields.bind value)).inScope leave).bind
  intro s hs
  refine ⟨s.keep v, ?_, rfl⟩
  unfold EvalState.keep
  split
  · exact hs
  · exact hs

/-- An evaluator that works everything out by its own rules finds all values. -/
theorem finds_of_fixed (fixed : ∀ e, ev.eval e = ev.valueStep e) (n : Nat) : ev.Finds n := by
  induction n using Nat.strongRecOn with
  | ind n ih =>
    intro e x v p us plain he passes fresh clear
    obtain ⟨q, yields, unlimited, holds, leave⟩ := yields_chainEnd passes clear.unlimited fresh
    obtain ⟨m, le, hm, lower⟩ := (he.of_leads passes.leads).exists_least
    obtain ⟨m, rfl⟩ : ∃ k, m = k + 1 := by
      cases m with
      | zero => exact hm.elim
      | succ k => exact ⟨k, rfl⟩
    have clear' : Clear ev.toContext (m + 1) x q := by
      refine ⟨unlimited, ?_, ?_⟩
      · intro u y w held ends hy
        rcases (holds u).1 held with mem | held
        · cases ends.unique (passes.ends mem)
          rfl
        · exact clear.values u y w held ends (hy.mono le)
      · intro u b d w held ends domain k lt
        rcases (holds u).1 held with mem | held
        · cases ends.unique (passes.ends mem)
        · exact clear.domains u b d w held ends domain k (by omega)
    obtain ⟨ps, rule, sub⟩ := hm
    have plain' : ev.Plain x := (closed_avoids ev.toContext _).chainEnd plain passes.leads
    have value := yields_valueOfEnd (fun k hk ↦ ih k (by omega)) clear'
      (fun k hk ↦ lower k (by omega)) rule passes.leads.unnamed plain' sub
    rw [fixed]
    exact yields_valueStep yields value leave

end Evaluator

/-- The model of the sum of an array that holds a name twice. -/
def sumOfNames : Model :=
  let build : Build Unit := do
    let sum ← Build.addOverload
      { name := "sum", params := [(Ty.int .par).arrayOf 1], result := .int .par }
    let x ← Build.addVariable
      { name := "x", span := .nowhere, ty := .int .par, domain := none, indexSets := [],
        definition := none }
    Build.define x (← Build.int .one)
    let a ← Build.addVariable
      { name := "a", span := .nowhere, ty := (Ty.int .par).arrayOf 1, domain := none,
        indexSets := [none], definition := none }
    let first ← Build.name x
    let second ← Build.name x
    Build.define a (← Build.array [first, second])
    let array ← Build.name a
    let _ ← Build.node (.call "sum" (some sum) [array]) .nowhere (.int .par)
  (build.run .empty).2

end ConstraintEval
