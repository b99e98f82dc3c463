import ConstraintEval.Number.Integer

/-!
# Intervals

An interval is a pair of ends and holds the values between them, both ends included. The
ends may be in the wrong order, and the interval is then empty; canonical sets and results
of bound analysis put them in order, declared index ranges need not.

Operations on intervals bound the operation on their members. Each answers `none` where an
end would leave the range of values, where a divisor could be 0, or where it has no rule.
-/

namespace ConstraintEval

/-- The values from `lo` to `hi`, none if `hi < lo`. -/
@[ext] structure Interval where
  lo : Integer
  hi : Integer
  deriving DecidableEq, Inhabited

namespace Interval

instance : Membership Integer Interval := ⟨fun r v ↦ r.lo ≤ v ∧ v ≤ r.hi⟩

instance (v : Integer) (r : Interval) : Decidable (v ∈ r) :=
  inferInstanceAs (Decidable (r.lo ≤ v ∧ v ≤ r.hi))

theorem mem_def {v : Integer} {r : Interval} :
    v ∈ r ↔ r.lo.val ≤ v.val ∧ v.val ≤ r.hi.val := Iff.rfl

/-- The interval that holds one value. -/
def point (v : Integer) : Interval := ⟨v, v⟩

/-- The number of members of an interval whose ends are in order; at most 0 otherwise. -/
def width (r : Interval) : Int := r.hi.val - r.lo.val + 1

/-- The number of members. -/
def size (r : Interval) : Nat := r.width.toNat

/-- The least interval that covers both. -/
def hull (r s : Interval) : Interval := ⟨min r.lo s.lo, max r.hi s.hi⟩

/-- The least interval that covers both, where both are known. -/
def hullOf? (r s : Option Interval) : Option Interval := do
  return hull (← r) (← s)

/-- The values common to both, where there are any. -/
def inter? (r s : Interval) : Option Interval :=
  if max r.lo s.lo ≤ min r.hi s.hi then some ⟨max r.lo s.lo, min r.hi s.hi⟩ else none

/-- Combine a non-empty list of intervals from the left. -/
def reduce? (f : Interval → Interval → Interval) : List Interval → Option Interval
  | [] => none
  | r :: rs => some (rs.foldl f r)

/-- The hull of four results, where all of them exist: what an operation that is monotone in
each operand does to the ends of two intervals. -/
def corners? (f : Integer → Integer → Option Integer) (r s : Interval) : Option Interval := do
  let a ← f r.lo s.lo
  let b ← f r.lo s.hi
  let c ← f r.hi s.lo
  let d ← f r.hi s.hi
  return ⟨min (min (min a b) c) d, max (max (max a b) c) d⟩

/-- Bounds of a sum. -/
def add? (r s : Interval) : Option Interval := do
  let lo ← r.lo.add? s.lo
  let hi ← r.hi.add? s.hi
  return ⟨lo, hi⟩

/-- Bounds of a difference. -/
def sub? (r s : Interval) : Option Interval := do
  let lo ← r.lo.sub? s.hi
  let hi ← r.hi.sub? s.lo
  return ⟨lo, hi⟩

/-- Bounds of a product: the extremes over the four corners. -/
def mul? (r s : Interval) : Option Interval := corners? Integer.mul? r s

/-- Bounds of a quotient: the extremes over the four corners, unless the divisor's interval
reaches 0. -/
def div? (r s : Interval) : Option Interval :=
  if Integer.zero < s.lo ∨ s.hi < Integer.zero then corners? Integer.div? r s else none

/-- Bounds of a remainder. It is smaller in size than the greatest divisor and has the sign
of the dividend, which it does not exceed in size. -/
def rem? (r s : Interval) : Option Interval :=
  if s.lo.isZero && s.hi.isZero then none
  else do
    let a ← s.lo.abs?
    let b ← s.hi.abs?
    let m ← (max a b).sub? Integer.one
    let n ← m.neg?
    let lo := if Integer.zero ≤ r.lo then Integer.zero else max r.lo n
    let hi := if r.hi ≤ Integer.zero then Integer.zero else min r.hi m
    return ⟨lo, hi⟩

/-- Bounds of a negation. -/
def neg? (r : Interval) : Option Interval := do
  let lo ← r.hi.neg?
  let hi ← r.lo.neg?
  return ⟨lo, hi⟩

/-- Bounds of the smaller of two values. -/
def minOf (r s : Interval) : Interval := ⟨min r.lo s.lo, min r.hi s.hi⟩

/-- Bounds of the greater of two values. -/
def maxOf (r s : Interval) : Interval := ⟨max r.lo s.lo, max r.hi s.hi⟩

@[simp] theorem mem_point {v w : Integer} : v ∈ point w ↔ v = w := by
  simp only [mem_def, point, Integer.ext_iff]
  omega

/-- The common part of two intervals is not empty and lies in both. -/
theorem ends_of_inter?_eq_some {r s t : Interval} (h : r.inter? s = some t) :
    t.lo.val ≤ t.hi.val ∧ t.lo.val = max r.lo.val s.lo.val ∧ t.hi.val = min r.hi.val s.hi.val := by
  unfold inter? at h
  split at h
  · rename_i hle
    obtain rfl := Option.some.inj h
    exact ⟨hle, Integer.val_max .., Integer.val_min ..⟩
  · simp at h

/-- The values common to two intervals are the members of their common part. -/
theorem mem_inter? {r s : Interval} {v : Integer} :
    (∃ t, r.inter? s = some t ∧ v ∈ t) ↔ v ∈ r ∧ v ∈ s := by
  constructor
  · rintro ⟨t, h, hv⟩
    have := ends_of_inter?_eq_some h
    simp only [mem_def] at hv ⊢
    omega
  · intro h
    simp only [mem_def] at h
    refine ⟨⟨max r.lo s.lo, min r.hi s.hi⟩, if_pos ?_, ?_⟩ <;>
      simp only [Integer.le_def, mem_def, Integer.val_max, Integer.val_min] <;> omega

end Interval

end ConstraintEval
