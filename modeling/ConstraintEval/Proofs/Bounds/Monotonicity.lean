import ConstraintEval.Proofs.Bounds.Exactness

/-!
# Monotonicity of interval arithmetic

An operation on narrower intervals has narrower bounds, wherever it has bounds for these and for the
wider ones. Where bounds are tight this is so because the narrower intervals have fewer results; the
bounds of a remainder shrink with both operands by their definition.
-/

namespace ConstraintEval

/-- An interval covers another one, which is not empty. -/
structure Interval.Covers (r s : Interval) : Prop where
  lo : r.lo ≤ s.lo
  ordered : s.lo ≤ s.hi
  hi : s.hi ≤ r.hi

namespace Interval

variable {r s t u r' s' : Interval} {a : Integer}

theorem covers_point (a : Integer) : (point a).Covers (point a) :=
  ⟨Int.le_refl _, Int.le_refl _, Int.le_refl _⟩

namespace Covers

theorem outer (h : r.Covers s) : r.lo ≤ r.hi := Int.le_trans h.lo (Int.le_trans h.ordered h.hi)

theorem mem (h : r.Covers s) (ha : a ∈ s) : a ∈ r :=
  ⟨Int.le_trans h.lo ha.1, Int.le_trans ha.2 h.hi⟩

theorem hull (h : r.Covers s) (h' : r'.Covers s') : (r.hull r').Covers (s.hull s') := by
  obtain ⟨lo, ordered, hi⟩ := h
  obtain ⟨lo', ordered', hi'⟩ := h'
  simp only [Integer.le_def] at *
  constructor <;> simp only [Interval.hull, Integer.le_def, Integer.val_min, Integer.val_max] <;>
    omega

theorem minOf (h : r.Covers s) (h' : r'.Covers s') : (r.minOf r').Covers (s.minOf s') := by
  obtain ⟨lo, ordered, hi⟩ := h
  obtain ⟨lo', ordered', hi'⟩ := h'
  simp only [Integer.le_def] at *
  constructor <;> simp only [Interval.minOf, Integer.le_def, Integer.val_min] <;> omega

theorem maxOf (h : r.Covers s) (h' : r'.Covers s') : (r.maxOf r').Covers (s.maxOf s') := by
  obtain ⟨lo, ordered, hi⟩ := h
  obtain ⟨lo', ordered', hi'⟩ := h'
  simp only [Integer.le_def] at *
  constructor <;> simp only [Interval.maxOf, Integer.le_def, Integer.val_max] <;> omega

theorem neg? (h : r.Covers s) (wide : r.neg? = some t) (narrow : s.neg? = some u) :
    t.Covers u := by
  rw [Interval.neg?, ends_eq_some_iff, Integer.neg?_eq_some_iff, Integer.neg?_eq_some_iff]
    at wide narrow
  obtain ⟨lo, ordered, hi⟩ := h
  constructor <;> simp only [Integer.le_def] at * <;> omega

/-- Bounds that are tight for fewer results lie within those that are tight for more. -/
theorem of_tight {wide narrow : Option Interval} {results results' : Set Int}
    (fewer : results' ⊆ results) (h : Tight wide results) (h' : Tight narrow results')
    (ht : wide = some t) (hu : narrow = some u) : t.Covers u where
  lo := (h.isLeast t ht).2 (fewer (h'.isLeast u hu).1)
  ordered := (h'.isLeast u hu).2 (h'.isGreatest u hu).1
  hi := (h.isGreatest t ht).2 (fewer (h'.isGreatest u hu).1)

theorem results_subset (op : ArithOp) (h : r.Covers s) (h' : r'.Covers s') :
    op.results s s' ⊆ op.results r r' := by
  rintro n ⟨a, ha, b, hb, rfl⟩
  exact ⟨a, h.mem ha, b, h'.mem hb, rfl⟩

private theorem natAbs_le_max {l h a : Int} (low : l ≤ a) (high : a ≤ h) :
    (a.natAbs : Int) ≤ max (l.natAbs : Int) h.natAbs := by
  omega

/-- The bounds of a remainder shrink with the dividend and with the size of the greatest divisor. -/
theorem rem? (h : r.Covers s) (h' : r'.Covers s') (wide : r.rem? r' = some t)
    (narrow : s.rem? s' = some u) : t.Covers u := by
  obtain ⟨m, nonneg, hm, lo, hi⟩ := ends_of_rem? wide
  obtain ⟨m', nonneg', hm', lo', hi'⟩ := ends_of_rem? narrow
  have size {a : Integer} (ha : a ∈ r') :
      (a.val.natAbs : Int) ≤ max (r'.lo.val.natAbs : Int) r'.hi.val.natAbs :=
    natAbs_le_max ha.1 ha.2
  have le : m' ≤ m := by
    have := size (h'.mem (lo_mem h'.ordered))
    have := size (h'.mem (hi_mem h'.ordered))
    omega
  have low : r.lo.val ≤ s.lo.val := h.lo
  have high : s.hi.val ≤ r.hi.val := h.hi
  clear hm hm' size
  constructor <;> rw [Integer.le_def]
  · rw [lo, lo']
    split <;> split <;> omega
  · rw [lo', hi']
    split <;> split <;> omega
  · rw [hi, hi']
    split <;> split <;> omega

theorem add? (h : r.Covers s) (h' : r'.Covers s') (wide : r.add? r' = some t)
    (narrow : s.add? s' = some u) : t.Covers u :=
  of_tight (results_subset .add h h') (tight_add? h.outer h'.outer)
    (tight_add? h.ordered h'.ordered) wide narrow

/-! ### Lists -/

variable {rs ss : List Interval}

/-- Combining narrower intervals gives a narrower one, if that is so for two of them. -/
theorem reduce? {g : Interval → Interval → Interval}
    (hg : ∀ {r s r' s'}, Covers r s → Covers r' s' → Covers (g r r') (g s s'))
    (h : List.Forall₂ Covers rs ss) (wide : Interval.reduce? g rs = some t)
    (narrow : Interval.reduce? g ss = some u) : t.Covers u := by
  have fold {r s : Interval} (head : r.Covers s) {rs ss : List Interval}
      (tail : List.Forall₂ Covers rs ss) :
      (rs.foldl g r).Covers (ss.foldl g s) := by
    induction tail generalizing r s with
    | nil => exact head
    | cons first _ ih => exact ih (hg head first)
  cases h with
  | nil => cases wide
  | cons head tail =>
    cases wide
    cases narrow
    exact fold head tail

theorem foldlM_add? (h : List.Forall₂ Covers rs ss) (start : r.Covers s)
    (wide : rs.foldlM Interval.add? r = some t) (narrow : ss.foldlM Interval.add? s = some u) :
    t.Covers u := by
  induction h generalizing r s with
  | nil =>
    cases wide
    cases narrow
    exact start
  | cons head _ ih =>
    rw [List.foldlM_cons] at wide narrow
    obtain ⟨r', step, wide⟩ := Option.bind_eq_some_iff.1 wide
    obtain ⟨s', step', narrow⟩ := Option.bind_eq_some_iff.1 narrow
    exact ih (start.add? head step step') wide narrow

end Covers

end Interval

/-- Bounds of an operation on narrower intervals are narrower. -/
theorem ArithOp.covers_bounds? {op : ArithOp} {r s r' s' t u : Interval} (h : r.Covers s)
    (h' : r'.Covers s') (wide : op.bounds? r r' = some t) (narrow : op.bounds? s s' = some u) :
    t.Covers u := by
  by_cases mod : op = .mod
  · subst mod
    exact h.rem? h' wide narrow
  · -- a divisor that has bounds cannot be 0
    have nonzero : op = .div → Integer.zero ∉ r' := by
      rintro rfl zero
      rw [show ArithOp.div.bounds? r r' = none from Interval.div?_of_zero_mem r zero] at wide
      cases wide
    exact .of_tight (Interval.Covers.results_subset op h h')
      (ArithOp.tight h.outer h'.outer mod nonzero)
      (ArithOp.tight h.ordered h'.ordered mod fun div zero ↦ nonzero div (h'.mem zero)) wide narrow

/-! ### Sets -/

namespace IntegerSet

variable {s t : IntegerSet} {r u : Interval}

/-- The ends of the hull of a set are members of it. -/
theorem ends_mem_of_hull? (h : s.hull? = some r) : r.lo ∈ s ∧ r.hi ∈ s := by
  obtain ⟨low, high⟩ := hull?_eq_some_iff.1 h
  obtain ⟨first, head, lo⟩ := Option.map_eq_some_iff.1 low
  obtain ⟨last, tail, hi⟩ := Option.map_eq_some_iff.1 high
  have ordered := s.canonical.1
  have first_mem := List.mem_of_head? head
  have last_mem := List.mem_of_getLast? tail
  exact ⟨⟨first, first_mem, lo ▸ Interval.lo_mem (ordered first first_mem)⟩,
    ⟨last, last_mem, hi ▸ Interval.hi_mem (ordered last last_mem)⟩⟩

/-- The hull of a subset lies within the hull of the set. -/
theorem hull?_covers (subset : ∀ i ∈ t, i ∈ s) (wide : s.hull? = some r)
    (narrow : t.hull? = some u) : r.Covers u := by
  obtain ⟨lo, hi⟩ := ends_mem_of_hull? narrow
  exact ⟨(mem_hull? wide (subset _ lo)).1, (mem_hull? narrow lo).2,
    (mem_hull? wide (subset _ hi)).2⟩

end IntegerSet

end ConstraintEval
