import ConstraintEval.Proofs.Reductions.Known

/-!
# Folds of what may fail or not end

An array is reduced in one go, after all its elements have been looked at or while they are, and a
chain of operations in as many steps as there are elements. An operation that is associative and
always has a result gives the same either way. Addition can leave the range of values, and then it
matters whether the elements that are left are still looked at: one of them may be such that
looking at it does not end.
-/

namespace ConstraintEval

variable {ε α β : Type}

/-! ### Operations that always have a result -/

section Nested

/-- Combine the results for the items of a list, the last two first. -/
def foldNested (op : α → α → α) (f : ε → OptionT Option α) : ε → List ε → OptionT Option α
  | x, [] => f x
  | x, y :: ys => do return op (← f x) (← foldNested op f y ys)

/-- Combine the results for the items of a list; there is none for the empty list. -/
def foldNested? (op : α → α → α) (f : ε → OptionT Option α) : List ε → OptionT Option α
  | [] => failure
  | x :: xs => foldNested op f x xs

variable {op : α → α → α} {f : ε → OptionT Option α}

theorem foldNested_cons (x y : ε) (ys : List ε) :
    foldNested op f x (y :: ys) = f x >>= fun a ↦ op a <$> foldNested op f y ys := by
  simp only [foldNested, bind_pure_comp]

theorem foldNested?_cons {x : ε} {xs : List ε} (others : xs ≠ []) :
    foldNested? op f (x :: xs) = f x >>= fun a ↦ op a <$> foldNested? op f xs := by
  cases xs with
  | nil => exact absurd rfl others
  | cons y ys => exact foldNested_cons x y ys

/-- To combine all results from the left comes to the same. -/
theorem mapM_foldl_eq_foldNested [Std.Associative op] (x : ε) (xs : List ε) :
    (f x >>= fun a ↦ (fun as ↦ as.foldl op a) <$> xs.mapM f) = foldNested op f x xs := by
  induction xs generalizing x with
  | nil => simp [foldNested]
  | cons y ys ih =>
    rw [foldNested_cons]
    refine bind_congr fun a ↦ ?_
    rw [← ih, List.mapM_cons, map_bind, map_bind]
    refine bind_congr fun b ↦ ?_
    simp only [List.foldl_cons, List.foldl_assoc, bind_pure_comp,
      Functor.map_map]

theorem mapM_foldl_eq_foldNested? [Std.Associative op] {fold : List α → OptionT Option α}
    (nil : fold [] = failure) (cons : ∀ a as, fold (a :: as) = pure (as.foldl op a))
    (xs : List ε) : xs.mapM f >>= fold = foldNested? op f xs := by
  cases xs with
  | nil => exact nil
  | cons x xs =>
    rw [foldNested?, ← mapM_foldl_eq_foldNested, List.mapM_cons]
    simp only [bind_assoc, pure_bind, cons, map_eq_pure_bind]

private theorem map_foldNested {op' : β → β → β} {g : α → β}
    (hom : ∀ a b, g (op a b) = op' (g a) (g b)) (x : ε) (xs : List ε) :
    g <$> foldNested op f x xs = foldNested op' (fun x ↦ g <$> f x) x xs := by
  induction xs generalizing x with
  | nil => rfl
  | cons y ys ih =>
    rw [foldNested_cons, foldNested_cons, ← ih, map_bind, bind_map_left]
    exact bind_congr fun a ↦ by simp only [Functor.map_map, hom]

theorem map_foldNested? {op' : β → β → β} {g : α → β}
    (hom : ∀ a b, g (op a b) = op' (g a) (g b)) (xs : List ε) :
    g <$> foldNested? op f xs = foldNested? op' (fun x ↦ g <$> f x) xs := by
  cases xs with
  | nil => rfl
  | cons x xs => exact map_foldNested hom x xs

end Nested

/-- Where the value nearest to one end is computed exactly, its bounds are found to be that value.
-/
theorem foretells_foldNested {value : ε → OptionT Option Integer}
    {bounds : ε → OptionT Option Interval} (side : Side) {x : ε} {xs : List ε}
    (foretells : ∀ y ∈ x :: xs, Foretells (value y) (bounds y)) :
    Foretells (foldNested side.pick value x xs) (foldNested side.pickBounds bounds x xs) := by
  induction xs generalizing x with
  | nil => exact foretells x (List.mem_singleton_self x)
  | cons y ys ih =>
    obtain ⟨first, rest⟩ := List.forall_mem_cons.1 foretells
    refine first.bind fun a ↦ (ih rest).bind fun b ↦ ?_
    rw [side.pickBounds_point]
    exact .of_value _

theorem foretells_foldNested? {value : ε → OptionT Option Integer}
    {bounds : ε → OptionT Option Interval} (side : Side) {xs : List ε}
    (foretells : ∀ x ∈ xs, Foretells (value x) (bounds x)) :
    Foretells (foldNested? side.pick value xs) (foldNested? side.pickBounds bounds xs) := by
  cases xs with
  | nil => exact .of_failed _
  | cons x xs => exact foretells_foldNested side foretells

/-! ### Sums -/

section Sums

variable (value : ε → OptionT Option Integer) (bounds : ε → OptionT Option Interval)

/-- Add the results for the items of a list, each as soon as it is there. -/
def total (t : Integer) (xs : List ε) : OptionT Option Integer :=
  xs.foldlM (fun t x ↦ do found? (t.add? (← value x))) t

/-- Add the bounds of the items of a list, each as soon as they are there. -/
def boundsInTurn (t : Interval) (xs : List ε) : OptionT Option Interval :=
  xs.foldlM (fun t x ↦ do found? (t.add? (← bounds x))) t

/-- Add the bounds of the items of a list when they are all there. -/
def boundsAtOnce (t : Interval) (xs : List ε) : OptionT Option Interval := do
  found? ((← xs.mapM bounds).foldlM Interval.add? t)

variable {value bounds} {t : Integer} {r : Interval} {xs : List ε}

/-- To look at the first item and to add the rest to it. -/
private theorem boundsAtOnce_cons (x : ε) :
    boundsAtOnce bounds r (x :: xs) = bounds x >>= fun b ↦ xs.mapM bounds >>= fun bs ↦
      found? ((r.add? b).bind fun u ↦ bs.foldlM Interval.add? u) := by
  simp only [boundsAtOnce, List.mapM_cons, bind_assoc, pure_bind, List.foldlM_cons]
  rfl

/-- Where a sum is computed exactly, its bounds are found to be the sum, in whichever way. -/
theorem foretells_total (foretells : ∀ x ∈ xs, Foretells (value x) (bounds x)) :
    Foretells (total value t xs) (boundsInTurn bounds (.point t) xs) ∧
      Foretells (total value t xs) (boundsAtOnce bounds (.point t) xs) := by
  induction xs generalizing t with
  | nil => exact ⟨.of_value t, .of_value t⟩
  | cons x xs ih =>
    obtain ⟨first, rest⟩ := List.forall_mem_cons.1 foretells
    rw [total, boundsInTurn, boundsAtOnce_cons, List.foldlM_cons, List.foldlM_cons, bind_assoc,
      bind_assoc]
    refine ⟨first.bind fun v ↦ ?_, first.bind fun v ↦ ?_⟩ <;> rw [Interval.add?_point]
    · cases t.add? v with
      | none => exact .of_failed _
      | some u => exact (ih rest).1
    · cases t.add? v with
      | none => exact .of_failed _
      | some u => exact (ih rest).2

/-- If adding the bounds ends when they are all there, then adding them in turn ends as well, and
in the same way. -/
theorem boundsInTurn_of_boundsAtOnce {o : Option Interval}
    (h : boundsAtOnce bounds r xs = some o) : boundsInTurn bounds r xs = some o := by
  induction xs generalizing r with
  | nil => exact h
  | cons x xs ih =>
    rw [boundsAtOnce_cons] at h
    rw [boundsInTurn, List.foldlM_cons, bind_assoc]
    generalize bounds x = found at h ⊢
    match found with
    | none => exact h
    | some none => exact h
    | some (some b) =>
      change (xs.mapM bounds >>= fun bs ↦ found? ((r.add? b).bind _)) = some o at h
      change (found? (r.add? b) >>= fun u ↦ boundsInTurn bounds u xs) = some o
      cases sum : r.add? b with
      | some u =>
        rw [sum] at h
        exact ih h
      | none =>
        rw [sum] at h
        -- what is left can only make a difference by not ending
        generalize xs.mapM bounds = rest at h
        match rest with
        | none => cases h
        | some none => exact h
        | some (some bs) => exact h

/-- Bounds that are found by adding in turn are found when all are there. -/
theorem boundsAtOnce_of_boundsInTurn {b : Interval}
    (h : boundsInTurn bounds r xs = some (some b)) : boundsAtOnce bounds r xs = some (some b) := by
  induction xs generalizing r with
  | nil => exact h
  | cons x xs ih =>
    rw [boundsInTurn, List.foldlM_cons, bind_assoc] at h
    rw [boundsAtOnce_cons]
    generalize bounds x = found at h ⊢
    match found with
    | none => exact h
    | some none => exact h
    | some (some c) =>
      change (found? (r.add? c) >>= fun u ↦ boundsInTurn bounds u xs) = some (some b) at h
      change (xs.mapM bounds >>= fun bs ↦ found? ((r.add? c).bind _)) = some (some b)
      cases sum : r.add? c with
      | none =>
        rw [sum] at h
        cases h
      | some u =>
        rw [sum] at h
        exact ih h

end Sums

end ConstraintEval
