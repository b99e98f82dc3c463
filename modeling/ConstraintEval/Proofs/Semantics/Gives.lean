import ConstraintEval.Proofs.Evaluation.Run
import ConstraintEval.Proofs.Semantics.Rules
import Mathlib.Data.List.Forall2

/-!
# What a step may give

A result that a step gives in some state, whatever the state. What a sequence of steps gives
comes from what its steps give, so this is enough to see that only values by the rules are
given.
-/

namespace ConstraintEval

variable {α β : Type} {ctx : Context}

/-- An evaluation gives a result in some state. -/
def Gives (x : EvalM α) (a : α) : Prop := ∃ s t, x s = some (.ok a, t)

namespace Gives

theorem of_ofExcept {r : Except Failure α} {a : α} (h : Gives (EvalM.ofExcept r) a) :
    r = .ok a := by
  obtain ⟨s, t, h⟩ := h
  exact (Prod.mk.inj (Option.some.inj h)).1

theorem of_pure {a b : α} (h : Gives (pure a : EvalM α) b) : b = a :=
  (Except.ok.inj (of_ofExcept (r := .ok a) h)).symm

theorem not_throw {f : Failure} {a : α} (h : Gives (throw f : EvalM α) a) : False := by
  have := of_ofExcept (r := .error f) h
  cases this

theorem not_fail {cause : Cause} {a : α} (h : Gives (EvalM.fail cause) a) : False := not_throw h

theorem of_ofOption {cause : Cause} {o : Option α} {a : α}
    (h : Gives (EvalM.ofOption cause o) a) : o = some a := by
  cases o with
  | none => exact (not_fail h).elim
  | some b => rw [of_pure h]

theorem of_bind {x : EvalM α} {f : α → EvalM β} {b : β} (h : Gives (x >>= f) b) :
    ∃ a, Gives x a ∧ Gives (f a) b := by
  obtain ⟨s, t, h⟩ := h
  rw [EvalM.bind_apply] at h
  obtain ⟨⟨r, u⟩, hx, hf⟩ := Option.bind_eq_some_iff.1 h
  cases r with
  | error e => cases hf
  | ok a => exact ⟨a, ⟨s, u, hx⟩, u, t, hf⟩

theorem of_map {x : EvalM α} {f : α → β} {b : β} (h : Gives (f <$> x) b) :
    ∃ a, Gives x a ∧ b = f a := by
  rw [← bind_pure_comp] at h
  obtain ⟨a, hx, hb⟩ := of_bind h
  exact ⟨a, hx, of_pure hb⟩

theorem not_failAt {e : ExprKey} {cause : Cause} {a : α} (h : Gives (ctx.failAt e cause) a) :
    False := by
  obtain ⟨f, -, h⟩ := of_bind h
  exact not_throw h

theorem of_locating {e : ExprKey} {x : EvalM α} {a : α} (h : Gives (ctx.locating e x) a) :
    Gives x a := by
  obtain ⟨s, t, h⟩ := h
  rw [Context.locating_apply] at h
  obtain ⟨⟨r, u⟩, hx, hr⟩ := Option.map_eq_some_iff.1 h
  cases r with
  | error e => cases hr
  | ok b =>
    obtain rfl := Except.ok.inj (Prod.mk.inj hr).1
    exact ⟨s, u, hx⟩

theorem of_inScope {x : EvalM α} {a : α} (h : Gives (EvalM.inScope x) a) : Gives x a := by
  obtain ⟨s, t, h⟩ := h
  rw [EvalM.inScope_apply] at h
  obtain ⟨⟨r, u⟩, hx, hr⟩ := Option.map_eq_some_iff.1 h
  obtain rfl := (Prod.mk.inj hr).1
  exact ⟨_, u, hx⟩

theorem of_mapM {xs : List α} {f : α → EvalM β} {bs : List β} (h : Gives (xs.mapM f) bs) :
    List.Forall₂ (fun a b ↦ Gives (f a) b) xs bs := by
  induction xs generalizing bs with
  | nil =>
    rw [List.mapM_nil] at h
    rw [of_pure h]
    exact .nil
  | cons a xs ih =>
    rw [List.mapM_cons] at h
    obtain ⟨b, hb, h⟩ := of_bind h
    obtain ⟨cs, hcs, h⟩ := of_bind h
    rw [of_pure h]
    exact .cons hb (ih hcs)

/-- What a fold gives is what folding the results of its steps gives. -/
theorem of_foldlM {γ : Type} {xs : List α} {f : α → EvalM β} {next : γ → β → EvalM γ}
    {step : γ → β → Option γ} (hnext : ∀ c b d, Gives (next c b) d → step c b = some d) {c d : γ}
    (h : Gives (xs.foldlM (fun c x ↦ do next c (← f x)) c) d) :
    ∃ bs, List.Forall₂ (fun a b ↦ Gives (f a) b) xs bs ∧ bs.foldlM step c = some d := by
  induction xs generalizing c with
  | nil => exact ⟨[], .nil, by rw [of_pure h]; rfl⟩
  | cons a xs ih =>
    rw [List.foldlM_cons] at h
    obtain ⟨c', hc', h⟩ := of_bind h
    obtain ⟨b, hb, hc'⟩ := of_bind hc'
    obtain ⟨bs, hbs, fold⟩ := ih h
    refine ⟨b :: bs, .cons hb hbs, ?_⟩
    rw [List.foldlM_cons, hnext c b c' hc']
    exact fold

/-- A scan for a false item either finds all items true or stops at the first false one. -/
theorem of_allM {xs : List α} {f : α → EvalM Bool} {b : Bool} (h : Gives (xs.allM f) b) :
    (b = true ∧ ∀ a ∈ xs, Gives (f a) true) ∨
      b = false ∧ ∃ before a after, xs = before ++ a :: after ∧
        (∀ a ∈ before, Gives (f a) true) ∧ Gives (f a) false := by
  induction xs with
  | nil => exact Or.inl ⟨of_pure h, by simp⟩
  | cons a xs ih =>
    obtain ⟨c, hc, h⟩ := of_bind h
    cases c with
    | false => exact Or.inr ⟨of_pure h, [], a, xs, rfl, by simp, hc⟩
    | true =>
      rcases ih h with ⟨rfl, all⟩ | ⟨rfl, before, a', after, rfl, all, stop⟩
      · exact Or.inl ⟨rfl, List.forall_mem_cons.2 ⟨hc, all⟩⟩
      · exact Or.inr ⟨rfl, a :: before, a', after, rfl, List.forall_mem_cons.2 ⟨hc, all⟩, stop⟩

theorem of_anyM {xs : List α} {f : α → EvalM Bool} {b : Bool} (h : Gives (xs.anyM f) b) :
    (b = false ∧ ∀ a ∈ xs, Gives (f a) false) ∨
      b = true ∧ ∃ before a after, xs = before ++ a :: after ∧
        (∀ a ∈ before, Gives (f a) false) ∧ Gives (f a) true := by
  induction xs with
  | nil => exact Or.inl ⟨of_pure h, by simp⟩
  | cons a xs ih =>
    obtain ⟨c, hc, h⟩ := of_bind h
    cases c with
    | true => exact Or.inr ⟨of_pure h, [], a, xs, rfl, by simp, hc⟩
    | false =>
      rcases ih h with ⟨rfl, all⟩ | ⟨rfl, before, a', after, rfl, all, stop⟩
      · exact Or.inl ⟨rfl, List.forall_mem_cons.2 ⟨hc, all⟩⟩
      · exact Or.inr ⟨rfl, a :: before, a', after, rfl, List.forall_mem_cons.2 ⟨hc, all⟩, stop⟩

end Gives

/-- Following a chain of names comes to its end. -/
theorem leads_of_followChain {nested : Bool} {steps : Nat} {p q : Pending} {e : ExprKey}
    {c : ChainEnd} (h : ctx.followChain nested steps p e = (.ok c, q)) : Leads ctx e c := by
  induction steps generalizing nested p e with
  | zero =>
    unfold Context.followChain at h
    split at h
    · cases h
    · cases h
    · next none some =>
      cases h
      refine .expression fun name resolved form ↦ ?_
      cases resolved with
      | none => exact none name form
      | some v => exact some name v form
  | succ steps ih =>
    unfold Context.followChain at h
    split at h
    · cases h
    · next name v form =>
      simp only at h
      split at h
      · cases h
      · next entered enter =>
        split at h
        · next undefined =>
          cases h
          exact .undefined form undefined
        · next d defined => exact .definition form defined (ih h)
    · next none some =>
      cases h
      refine .expression fun name resolved form ↦ ?_
      cases resolved with
      | none => exact none name form
      | some v => exact some name v form

theorem Gives.of_chainEnd {e : ExprKey} {c : ChainEnd} (h : Gives (ctx.chainEnd e) c) :
    Leads ctx e c := by
  obtain ⟨s, t, h⟩ := h
  rw [Context.chainEnd_apply] at h
  obtain ⟨ok, -⟩ := Prod.mk.inj (Option.some.inj h)
  exact leads_of_followChain (Prod.ext ok rfl)

end ConstraintEval
