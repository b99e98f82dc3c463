import ConstraintEval.Eval.LazyArray

/-!
# Index arithmetic in machine words

The number of cells that index ranges describe is multiplied up in words of 128 bits with a sign,
and the place of a cell is worked out in words of 64 bits without one. A machine that checks its
arithmetic stops where a result does not fit its word; one that does not check wraps around.
-/

namespace ConstraintEval

/-- Numbers of cells that fit a word are below `2^127`. -/
def productLimit : Nat := 170141183460469231731687303715884105728

/-- Places and sizes that fit a word are below `2^64`. -/
def wordLimit : Nat := 18446744073709551616

/-- A product with the size of an index range, held at the greatest word where it would pass it. -/
def saturatedTimes (n : Nat) (r : Interval) : Nat := min (n * r.size) (productLimit - 1)

/-- A product with the size of an index range, where it fits its word. -/
def checkedTimes (n : Nat) (r : Interval) : Option Nat :=
  if n * r.size < productLimit then some (n * r.size) else none

/-- The number of cells that index ranges describe, held at the greatest word on the way. -/
def saturatedCells (ranges : List Interval) : Nat := ranges.foldl saturatedTimes 1

/-- The number of cells that index ranges describe, as long as it fits its word on the way. -/
def checkedCells (ranges : List Interval) : Option Nat := ranges.foldlM checkedTimes 1

/-- What a machine makes of the result of an operation on words. -/
abbrev WordArithmetic := Nat → Option Nat

/-- A machine that checks its arithmetic stops at results that do not fit a word. -/
def WordArithmetic.checked : WordArithmetic := fun n ↦ if n < wordLimit then some n else none

/-- A machine that does not check its arithmetic drops what does not fit a word. -/
def WordArithmetic.wrapping : WordArithmetic := fun n ↦ some (n % wordLimit)

/-- The row-major place of a cell as `cellPlace` finds it, worked out in words. A size that does not
fit a word is held at the greatest one. There is none where the machine stops. -/
def cellPlaceIn (machine : WordArithmetic) (k before : Nat) :
    List Integer → List Interval → Option (Except Failure Nat)
  | i :: is, r :: rs =>
    if i ∈ r then do
      let next ← machine (before * min r.size (wordLimit - 1) + (i.val - r.lo.val).toNat)
      cellPlaceIn machine (k + 1) next is rs
    else some (.error (.of (.indexOutside i k r)))
  | _, _ => some (.ok before)

/-- The row-major place of the element with given indices, worked out in words. -/
def LazyArray.placeIn (a : LazyArray) (machine : WordArithmetic) (indices : List Integer) :
    Option (Except Failure Nat) :=
  if indices.length = a.rank then cellPlaceIn machine 1 0 indices a.ranges
  else some (.error (.of (.wrongCount "array access" a.rank indices.length)))

end ConstraintEval
