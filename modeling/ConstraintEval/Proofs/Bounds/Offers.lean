import ConstraintEval.Proofs.Semantics.Gives

/-!
# What a search for bounds may come up with

A result that a search for bounds comes up with in some state, whatever the state. Failures are
swallowed, so a search that goes on after one may have found its result on either way.
-/

namespace ConstraintEval

variable {α β : Type}

/-- A search for bounds comes up with a result in some state. -/
def Offers (x : BoundM α) (a : α) : Prop := ∃ s t, x s = some (some a, t)

namespace Offers

theorem of_ofOption {r : Option α} {a : α} (h : Offers (BoundM.ofOption r) a) : r = some a := by
  obtain ⟨s, t, h⟩ := h
  exact (Prod.mk.inj (Option.some.inj h)).1

theorem of_pure {a b : α} (h : Offers (pure a : BoundM α) b) : b = a :=
  (Option.some.inj (of_ofOption (r := some a) h)).symm

theorem not_failure {a : α} (h : Offers (failure : BoundM α) a) : False := by
  have := of_ofOption (r := none) h
  cases this

theorem of_bind {x : BoundM α} {f : α → BoundM β} {b : β} (h : Offers (x >>= f) b) :
    ∃ a, Offers x a ∧ Offers (f a) b := by
  obtain ⟨s, t, h⟩ := h
  rw [BoundM.bind_apply] at h
  obtain ⟨⟨r, u⟩, hx, hf⟩ := Option.bind_eq_some_iff.1 h
  cases r with
  | none => cases hf
  | some a => exact ⟨a, ⟨s, u, hx⟩, u, t, hf⟩

theorem of_orElse {x y : BoundM α} {a : α} (h : Offers (x <|> y) a) : Offers x a ∨ Offers y a := by
  obtain ⟨s, t, h⟩ := h
  rw [BoundM.orElse_apply] at h
  obtain ⟨⟨r, u⟩, hx, hr⟩ := Option.bind_eq_some_iff.1 h
  cases r with
  | none => exact Or.inr ⟨u, t, hr⟩
  | some b =>
    cases hr
    exact Or.inl ⟨s, t, hx⟩

theorem of_bounds {x : EvalM α} {a : α} (h : Offers x.bounds a) : Gives x a := by
  obtain ⟨s, t, h⟩ := h
  rw [EvalM.bounds_apply] at h
  obtain ⟨⟨r, u⟩, hx, hr⟩ := Option.map_eq_some_iff.1 h
  cases r with
  | error e => cases hr
  | ok b =>
    cases hr
    exact ⟨s, u, hx⟩

theorem of_inScope {x : BoundM α} {a : α} (h : Offers (BoundM.inScope x) a) : Offers x a := by
  obtain ⟨s, t, h⟩ := h
  rw [BoundM.inScope_apply] at h
  obtain ⟨⟨r, u⟩, hx, hr⟩ := Option.map_eq_some_iff.1 h
  cases hr
  exact ⟨_, u, hx⟩

theorem of_mapM {xs : List α} {f : α → BoundM β} {bs : List β} (h : Offers (xs.mapM f) bs) :
    List.Forall₂ (fun a b ↦ Offers (f a) b) xs bs := by
  induction xs generalizing bs with
  | nil =>
    rw [List.mapM_nil] at h
    rw [of_pure h]
    exact .nil
  | cons a xs ih =>
    rw [List.mapM_cons] at h
    obtain ⟨b, hb, h⟩ := of_bind h
    obtain ⟨cs, hcs, h⟩ := of_bind h
    rw [of_pure h]
    exact .cons hb (ih hcs)

/-- An evaluation that cannot do without bounds gives those that are found. -/
theorem of_orFail {x : BoundM α} {f : StepM Failure} {a : α} (h : Gives (x.orFail f) a) :
    Offers x a := by
  obtain ⟨s, t, h⟩ := h
  rw [BoundM.orFail_apply] at h
  obtain ⟨⟨r, u⟩, hx, hr⟩ := Option.bind_eq_some_iff.1 h
  cases r with
  | none =>
    obtain ⟨_, -, hr⟩ := Option.map_eq_some_iff.1 hr
    cases hr
  | some b =>
    cases hr
    exact ⟨s, t, hx⟩

end Offers

end ConstraintEval
