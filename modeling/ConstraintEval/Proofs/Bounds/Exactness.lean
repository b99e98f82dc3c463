import ConstraintEval.Proofs.Bounds.Arithmetic
import Mathlib.Order.Bounds.Basic

/-!
# Exactness of interval arithmetic

Sums, differences, products and quotients of two intervals are not only bounded but bounded as
closely as possible: there is an answer exactly where no result leaves the range of values, and
its ends are the least and the greatest result. With one operand fixed each of these operations
grows or shrinks from end to end of the other, so the extremes stand at the ends. Remainders have
no such shape; their bounds hold every remainder, and they are missing exactly where a greatest
divisor cannot be worked out.
-/

namespace ConstraintEval

/-- The exact result of an operation on integers. A quotient is rounded toward zero and a remainder
has the sign of the dividend. -/
def ArithOp.exact : ArithOp → Int → Int → Int
  | .add, a, b => a + b
  | .sub, a, b => a - b
  | .mul, a, b => a * b
  | .div, a, b => a.tdiv b
  | .mod, a, b => a.tmod b

/-- The exact results of an operation on the members of two intervals. -/
def ArithOp.results (op : ArithOp) (r s : Interval) : Set Int :=
  {n | ∃ a ∈ r, ∃ b ∈ s, op.exact a.val b.val = n}

/-- Bounds of some results are tight: they exist exactly where every result is a value, and they are
then the least and the greatest result. -/
structure Tight (answer : Option Interval) (results : Set Int) : Prop where
  exists_iff : (∃ t, answer = some t) ↔ ∀ n ∈ results, ∃ c : Integer, c.val = n
  isLeast : ∀ t, answer = some t → IsLeast results t.lo.val
  isGreatest : ∀ t, answer = some t → IsGreatest results t.hi.val

theorem Integer.exists_val_eq_iff {n : Int} :
    (∃ c : Integer, c.val = n) ↔ -9223372036854775808 ≤ n ∧ n ≤ 9223372036854775807 :=
  ⟨fun ⟨c, h⟩ ↦ h ▸ ⟨c.least_le, c.le_greatest⟩, fun h ↦ ⟨⟨n, h.1, h.2⟩, rfl⟩⟩

/-- Bounds that are the extremes of some results wherever these are values are tight. -/
theorem Tight.of_extremes {answer : Option Interval} {results : Set Int} {l h : Int}
    (least : IsLeast results l) (greatest : IsGreatest results h)
    (ends : ∀ t, answer = some t ↔ t.lo.val = l ∧ t.hi.val = h) : Tight answer results where
  exists_iff := by
    simp only [Integer.exists_val_eq_iff]
    constructor
    · rintro ⟨t, ht⟩ n hn
      obtain ⟨lo, hi⟩ := (ends t).1 ht
      have := least.2 hn
      have := greatest.2 hn
      have := t.lo.least_le
      have := t.hi.le_greatest
      omega
    · intro values
      have low := values l least.1
      have high := values h greatest.1
      exact ⟨⟨⟨l, low.1, low.2⟩, ⟨h, high.1, high.2⟩⟩, (ends _).2 ⟨rfl, rfl⟩⟩
  isLeast t ht := ((ends t).1 ht).1 ▸ least
  isGreatest t ht := ((ends t).1 ht).2 ▸ greatest

namespace Interval

variable {r s t : Interval}

theorem lo_mem (hr : r.lo ≤ r.hi) : r.lo ∈ r := ⟨Int.le_refl _, hr⟩

theorem hi_mem (hr : r.lo ≤ r.hi) : r.hi ∈ r := ⟨hr, Int.le_refl _⟩

theorem ends_eq_some_iff {lo hi : Option Integer} :
    (do let l ← lo; let h ← hi; return (⟨l, h⟩ : Interval)) = some t ↔
      lo = some t.lo ∧ hi = some t.hi := by
  cases lo <;> cases hi <;> simp [Interval.ext_iff]

/-- Bounds of a sum are tight: it grows with both operands. -/
theorem tight_add? (hr : r.lo ≤ r.hi) (hs : s.lo ≤ s.hi) :
    Tight (r.add? s) (ArithOp.add.results r s) := by
  refine .of_extremes (l := r.lo.val + s.lo.val) (h := r.hi.val + s.hi.val)
    ⟨⟨_, lo_mem hr, _, lo_mem hs, rfl⟩, ?_⟩ ⟨⟨_, hi_mem hr, _, hi_mem hs, rfl⟩, ?_⟩ fun t ↦ ?_
  · rintro n ⟨a, ha, b, hb, rfl⟩
    exact Int.add_le_add ha.1 hb.1
  · rintro n ⟨a, ha, b, hb, rfl⟩
    exact Int.add_le_add ha.2 hb.2
  · rw [add?, ends_eq_some_iff, Integer.add?_eq_some_iff, Integer.add?_eq_some_iff]

/-- Bounds of a difference are tight: it grows with the first operand and shrinks with the
second. -/
theorem tight_sub? (hr : r.lo ≤ r.hi) (hs : s.lo ≤ s.hi) :
    Tight (r.sub? s) (ArithOp.sub.results r s) := by
  refine .of_extremes (l := r.lo.val - s.hi.val) (h := r.hi.val - s.lo.val)
    ⟨⟨_, lo_mem hr, _, hi_mem hs, rfl⟩, ?_⟩ ⟨⟨_, hi_mem hr, _, lo_mem hs, rfl⟩, ?_⟩ fun t ↦ ?_
  · rintro n ⟨a, ha, b, hb, rfl⟩
    exact Int.sub_le_sub ha.1 hb.2
  · rintro n ⟨a, ha, b, hb, rfl⟩
    exact Int.sub_le_sub ha.2 hb.1
  · rw [sub?, ends_eq_some_iff, Integer.sub?_eq_some_iff, Integer.sub?_eq_some_iff]

section Corners

variable {f : Integer → Integer → Option Integer} {g : Int → Int → Int}

/-- The corners of two intervals exist exactly where the least and the greatest of the four exact
results are values. -/
private theorem corners?_eq_some_iff (hs : s.lo ≤ s.hi)
    (exact : ∀ a, ∀ b ∈ s, ∀ c, f a b = some c ↔ c.val = g a.val b.val) :
    corners? f r s = some t ↔
      t.lo.val = min (min (min (g r.lo.val s.lo.val) (g r.lo.val s.hi.val))
        (g r.hi.val s.lo.val)) (g r.hi.val s.hi.val) ∧
      t.hi.val = max (max (max (g r.lo.val s.lo.val) (g r.lo.val s.hi.val))
        (g r.hi.val s.lo.val)) (g r.hi.val s.hi.val) := by
  constructor
  · intro h
    obtain ⟨w, hw, h⟩ := Option.bind_eq_some_iff.1 h
    obtain ⟨x, hx, h⟩ := Option.bind_eq_some_iff.1 h
    obtain ⟨y, hy, h⟩ := Option.bind_eq_some_iff.1 h
    obtain ⟨z, hz, h⟩ := Option.bind_eq_some_iff.1 h
    cases h
    rw [exact _ _ (lo_mem hs)] at hw hy
    rw [exact _ _ (hi_mem hs)] at hx hz
    simp only [Integer.val_min, Integer.val_max, hw, hx, hy, hz, true_and]
  · rintro ⟨low, high⟩
    have := t.lo.least_le
    have := t.hi.le_greatest
    obtain ⟨w, hw⟩ := Integer.exists_val_eq_iff.2
      (show _ ≤ g r.lo.val s.lo.val ∧ g r.lo.val s.lo.val ≤ _ by omega)
    obtain ⟨x, hx⟩ := Integer.exists_val_eq_iff.2
      (show _ ≤ g r.lo.val s.hi.val ∧ g r.lo.val s.hi.val ≤ _ by omega)
    obtain ⟨y, hy⟩ := Integer.exists_val_eq_iff.2
      (show _ ≤ g r.hi.val s.lo.val ∧ g r.hi.val s.lo.val ≤ _ by omega)
    obtain ⟨z, hz⟩ := Integer.exists_val_eq_iff.2
      (show _ ≤ g r.hi.val s.hi.val ∧ g r.hi.val s.hi.val ≤ _ by omega)
    rw [← hw, ← hx, ← hy, ← hz] at low high
    rw [← exact _ _ (lo_mem hs)] at hw hy
    rw [← exact _ _ (hi_mem hs)] at hx hz
    simp only [corners?, hw, hx, hy, hz, Option.bind_eq_bind, Option.bind_some, Option.pure_def,
      Option.some.injEq, Interval.ext_iff, Integer.ext_iff, Integer.val_min, Integer.val_max, low,
      high, true_and]

/-- The extremes over the four corners are tight bounds of an operation that, with either operand
fixed, stays between what the ends of the other interval give. -/
private theorem tight_corners? (hr : r.lo ≤ r.hi) (hs : s.lo ≤ s.hi)
    (exact : ∀ a, ∀ b ∈ s, ∀ c, f a b = some c ↔ c.val = g a.val b.val)
    (left : ∀ a ∈ r, ∀ b ∈ s, Between (g a.val b.val) (g r.lo.val b.val) (g r.hi.val b.val))
    (right : ∀ a, ∀ b ∈ s, Between (g a b.val) (g a s.lo.val) (g a s.hi.val)) :
    Tight (corners? f r s) {n | ∃ a ∈ r, ∃ b ∈ s, g a.val b.val = n} := by
  -- one of the four corners is the least of them and one the greatest
  have attained {n : Int} (h : n = g r.lo.val s.lo.val ∨ n = g r.lo.val s.hi.val ∨
      n = g r.hi.val s.lo.val ∨ n = g r.hi.val s.hi.val) :
      n ∈ {n | ∃ a ∈ r, ∃ b ∈ s, g a.val b.val = n} := by
    rcases h with rfl | rfl | rfl | rfl
    · exact ⟨_, lo_mem hr, _, lo_mem hs, rfl⟩
    · exact ⟨_, lo_mem hr, _, hi_mem hs, rfl⟩
    · exact ⟨_, hi_mem hr, _, lo_mem hs, rfl⟩
    · exact ⟨_, hi_mem hr, _, hi_mem hs, rfl⟩
  refine .of_extremes ⟨attained (by omega), ?_⟩ ⟨attained (by omega), ?_⟩
    fun t ↦ corners?_eq_some_iff hs exact
  all_goals
    rintro n ⟨a, ha, b, hb, rfl⟩
    have along := left a ha b hb
    have low := right r.lo.val b hb
    have high := right r.hi.val b hb
    unfold Between at along low high
    omega

end Corners

/-- Bounds of a product are tight. -/
theorem tight_mul? (hr : r.lo ≤ r.hi) (hs : s.lo ≤ s.hi) :
    Tight (r.mul? s) (ArithOp.mul.results r s) := by
  refine tight_corners? (g := (· * ·)) hr hs (fun _ _ _ _ ↦ Integer.mul?_eq_some_iff)
    (fun a ha b _ ↦ mul_between b.val ha.1 ha.2) fun x b hb ↦ ?_
  have swapped := mul_between x hb.1 hb.2
  simpa only [Int.mul_comm _ x] using swapped

/-- No member of an interval is 0 exactly where its ends lie on one side of 0. -/
theorem zero_notMem_iff :
    Integer.zero ∉ s ↔ Integer.zero < s.lo ∨ s.hi < Integer.zero := by
  rw [mem_def, Integer.lt_def, Integer.lt_def, Integer.val_zero]
  omega

/-- Bounds of a quotient are tight where no divisor is 0. -/
theorem tight_div? (hr : r.lo ≤ r.hi) (hs : s.lo ≤ s.hi) (nonzero : Integer.zero ∉ s) :
    Tight (r.div? s) (ArithOp.div.results r s) := by
  have side := zero_notMem_iff.1 nonzero
  have divisor : ∀ b ∈ s, b.val ≠ 0 := fun b hb zero ↦ nonzero <| by
    rwa [show b = Integer.zero from Integer.ext zero] at hb
  rw [div?, if_pos side]
  refine tight_corners? (g := Int.tdiv) hr hs ?_
    (fun a ha b hb ↦ tdiv_between_left (divisor b hb) ha.1 ha.2) ?_
  · intro a b hb c
    rw [Integer.div?_eq_some_iff, and_iff_right (divisor b hb)]
  · intro x b hb
    rw [Integer.lt_def, Integer.lt_def, Integer.val_zero] at side
    exact tdiv_between_right x side hb.1 hb.2

/-- A quotient has no bounds where a divisor could be 0. -/
theorem div?_of_zero_mem (r : Interval) (zero : Integer.zero ∈ s) : r.div? s = none := by
  rw [div?, if_neg fun side ↦ zero_notMem_iff.2 side zero]

private theorem abs?_eq_none_iff {a : Integer} : a.abs? = none ↔ a = Integer.least := by
  have := a.least_le
  have := a.le_greatest
  rw [Integer.abs?, Integer.ofInt?_eq_none_iff, Integer.ext_iff]
  simp only [Integer.least]
  omega

/-- A remainder has no bounds exactly where 0 is the only divisor or the size of an end of the
divisor's interval is out of range. -/
theorem rem?_eq_none_iff : r.rem? s = none ↔
    (s.lo = Integer.zero ∧ s.hi = Integer.zero) ∨ s.lo = Integer.least ∨ s.hi = Integer.least := by
  have only : (s.lo.isZero && s.hi.isZero) = true ↔ s.lo = Integer.zero ∧ s.hi = Integer.zero := by
    simp [Integer.isZero, Integer.ext_iff]
  rw [rem?, ← only, ← abs?_eq_none_iff, ← abs?_eq_none_iff]
  by_cases zero : (s.lo.isZero && s.hi.isZero) = true
  · simp only [zero, if_true, true_or]
  rw [if_neg zero, or_iff_right zero]
  cases hx : s.lo.abs? with
  | none => simp
  | some x =>
    cases hy : s.hi.abs? with
    | none => simp
    | some y =>
      -- both sizes are in range, and with them the greatest remainder and its opposite
      have hx := abs?_eq_some hx
      have hy := abs?_eq_some hy
      have := x.le_greatest
      have := y.le_greatest
      obtain ⟨m, hm⟩ : ∃ m : Integer, m.val = (max x y).val - Integer.one.val := by
        rw [Integer.exists_val_eq_iff, Integer.val_max, Integer.val_one]
        omega
      obtain ⟨n, hn⟩ : ∃ n : Integer, n.val = -m.val := by
        rw [Integer.val_max, Integer.val_one] at hm
        rw [Integer.exists_val_eq_iff]
        omega
      simp [Integer.sub?_eq_some_iff.2 hm, Integer.neg?_eq_some_iff.2 hn]

end Interval

/-- All bounds but those of remainders are tight, and those of quotients where no divisor is 0. -/
theorem ArithOp.tight {op : ArithOp} {r s : Interval} (hr : r.lo ≤ r.hi) (hs : s.lo ≤ s.hi)
    (notMod : op ≠ .mod) (nonzero : op = .div → Integer.zero ∉ s) :
    Tight (op.bounds? r s) (op.results r s) := by
  cases op with
  | add => exact Interval.tight_add? hr hs
  | sub => exact Interval.tight_sub? hr hs
  | mul => exact Interval.tight_mul? hr hs
  | div => exact Interval.tight_div? hr hs (nonzero rfl)
  | mod => exact absurd rfl notMod

/-- Interval arithmetic is exact. Sums, differences and products of two intervals that are not
empty, and quotients where no divisor is 0, have tight bounds; a quotient by a divisor that could be
0 has none. A remainder has no bounds exactly where 0 is the only divisor or an end of the divisor's
interval is the least value, and otherwise its bounds hold every exact remainder. -/
theorem ArithOp.bounds_exact {r s : Interval} (hr : r.lo ≤ r.hi) (hs : s.lo ≤ s.hi) :
    (∀ op : ArithOp, op ≠ .mod → (op = .div → Integer.zero ∉ s) →
      Tight (op.bounds? r s) (op.results r s)) ∧
    (Integer.zero ∈ s → ArithOp.div.bounds? r s = none) ∧
    (ArithOp.mod.bounds? r s = none ↔
      (s.lo = Integer.zero ∧ s.hi = Integer.zero) ∨ s.lo = Integer.least ∨
        s.hi = Integer.least) ∧
    ∀ t, ArithOp.mod.bounds? r s = some t → ∀ a ∈ r, ∀ b ∈ s, b ≠ Integer.zero →
      t.lo.val ≤ ArithOp.mod.exact a.val b.val ∧ ArithOp.mod.exact a.val b.val ≤ t.hi.val := by
  refine ⟨fun op notMod nonzero ↦ ArithOp.tight hr hs notMod nonzero,
    Interval.div?_of_zero_mem r, Interval.rem?_eq_none_iff, ?_⟩
  intro t ht a ha b hb nonzero
  exact Interval.tmod_mem_rem? ht ha hb fun zero ↦ nonzero (Integer.ext zero)

/-- The quotients of the values from -7 to 5 by 2 and 3 run from -3 to 2. -/
theorem ArithOp.bounds_exact_quotients :
    let r : Interval := ⟨⟨-7, by omega, by omega⟩, .ofByte 5⟩
    let s : Interval := ⟨.ofByte 2, .ofByte 3⟩
    r.lo ≤ r.hi ∧ s.lo ≤ s.hi ∧
      IsLeast (ArithOp.div.results r s) (-3) ∧ IsGreatest (ArithOp.div.results r s) 2 := by
  intro r s
  have hr : r.lo ≤ r.hi := by decide
  have hs : s.lo ≤ s.hi := by decide
  have tight := (ArithOp.bounds_exact hr hs).1 .div (by decide) fun _ ↦ by decide
  have answer : ArithOp.div.bounds? r s =
      some ⟨⟨-3, by omega, by omega⟩, .ofByte 2⟩ := by decide
  exact ⟨hr, hs, tight.isLeast _ answer, tight.isGreatest _ answer⟩

end ConstraintEval
