import ConstraintEval.Eval.Failure
import ConstraintEval.Model.Node

/-!
# Lazy arrays

An array holds the elements of the literal that it comes from as expressions, which are
evaluated when they are asked for. Arranging the elements in other dimensions replaces the
index ranges and nothing else.

The index ranges always describe as many cells as there are elements, so indices within the
ranges lead to an element (`place_lt`).
-/

namespace ConstraintEval

/-- The number of cells that index ranges describe. -/
def cells (ranges : List Interval) : Nat := ranges.foldr (fun r n ↦ r.size * n) 1

@[simp] theorem cells_nil : cells [] = 1 := rfl

@[simp] theorem cells_cons (r : Interval) (rs : List Interval) :
    cells (r :: rs) = r.size * cells rs := rfl

/-- The row-major place of the cell with given indices, after `before` rows of the dimensions
that are left, of which the first has number `k`. -/
def cellPlace (k before : Nat) : List Integer → List Interval → Except Failure Nat
  | i :: is, r :: rs =>
    if i ∈ r then cellPlace (k + 1) (before * r.size + (i.val - r.lo.val).toNat) is rs
    else .error (.of (.indexOutside i k r))
  | _, _ => .ok before

/-- A cell is found within the rows that are left. -/
theorem cellPlace_lt {k before p : Nat} {is : List Integer} {rs : List Interval}
    (hlen : is.length = rs.length) (h : cellPlace k before is rs = .ok p) :
    p < (before + 1) * cells rs := by
  induction rs generalizing k before is with
  | nil =>
    cases is with
    | nil =>
      simp only [cellPlace, Except.ok.injEq] at h
      simp only [cells_nil]
      omega
    | cons i is => simp at hlen
  | cons r rs ih =>
    cases is with
    | nil => simp at hlen
    | cons i is =>
      unfold cellPlace at h
      split at h
      · rename_i hi
        rw [Interval.mem_def] at hi
        have step := ih (Nat.succ.inj hlen) h
        have width : r.size = (r.hi.val - r.lo.val + 1).toNat := rfl
        have row : before * r.size + (i.val - r.lo.val).toNat + 1 ≤ (before + 1) * r.size := by
          rw [Nat.succ_mul]
          omega
        rw [cells_cons, ← Nat.mul_assoc]
        exact Nat.lt_of_lt_of_le step (Nat.mul_le_mul_right _ row)
      · simp at h

/-- An array of unevaluated elements. -/
@[ext] structure LazyArray where
  /-- The literal that the elements come from. -/
  source : LiteralKey
  /-- The elements in row-major order. -/
  elements : List ExprKey
  /-- The index range of each dimension. -/
  ranges : List Interval
  /-- The type of the elements. -/
  elementTy : Ty
  cells_eq : cells ranges = elements.length
  deriving DecidableEq

namespace LazyArray

/-- The number of elements. -/
def length (a : LazyArray) : Nat := a.elements.length

/-- The number of dimensions. -/
def rank (a : LazyArray) : Nat := a.ranges.length

/-- Whether there are no elements. -/
def isEmpty (a : LazyArray) : Bool := a.elements.isEmpty

/-- The type of the whole array. -/
def ty (a : LazyArray) : Ty := a.elementTy.arrayOf a.rank

/-- The index range of a dimension, counted from 1. -/
def range? (a : LazyArray) : (dimension : Nat) → Option Interval
  | 0 => none
  | k + 1 => a.ranges[k]?

/-- The failure of arranging elements under index ranges that describe another number. -/
def wrongCellCount (ranges : List Interval) (found : Nat) : Cause :=
  .wrongCellCount (Integer.ofNat? (cells ranges)) found

/-- The value of an array literal of some type. A literal's index ranges need not fit its
elements, so this is where they are checked. -/
def ofLiteral (literal : ArrayLiteral) (ty : Ty) : Except Failure LazyArray :=
  if h : cells literal.ranges = literal.elements.length then
    .ok ⟨literal.key, literal.elements, literal.ranges, ty.elementTy, h⟩
  else
    .error (.of (wrongCellCount literal.ranges literal.elements.length))

/-- The same elements under other index ranges, if those describe as many cells. -/
def rearrange? (a : LazyArray) (ranges : List Interval) : Option LazyArray :=
  if h : cells ranges = a.elements.length then some { a with ranges, cells_eq := h } else none

/-- Whether the elements come from the same literal. -/
def sharesWith (a b : LazyArray) : Bool := a.source == b.source

/-- Whether both arrays have the same elements, as expressions, under the same index ranges. -/
def same (a b : LazyArray) : Bool :=
  a.elements == b.elements && a.ranges == b.ranges && a.elementTy == b.elementTy

/-- The row-major place of the element with given indices. -/
def place (a : LazyArray) (indices : List Integer) : Except Failure Nat :=
  if indices.length = a.rank then cellPlace 1 0 indices a.ranges
  else .error (.of (.wrongCount "array access" a.rank indices.length))

/-- Indices that have a place lead to an element. -/
theorem place_lt {a : LazyArray} {indices : List Integer} {p : Nat}
    (h : a.place indices = .ok p) : p < a.elements.length := by
  unfold place at h
  split at h
  · rename_i hlen
    have := cellPlace_lt hlen h
    rw [a.cells_eq] at this
    omega
  · simp at h

/-- The element with given indices. -/
def select (a : LazyArray) (indices : List Integer) : Except Failure ExprKey :=
  match h : a.place indices with
  | .ok p => .ok (a.elements.get ⟨p, place_lt h⟩)
  | .error f => .error f

/-- The text of an array: its index ranges and how many elements it has. -/
def text (a : LazyArray) : String :=
  s!"array{a.rank}d(" ++ String.join (a.ranges.map fun r ↦ s!"{r.lo}..{r.hi}, ") ++
    s!"<{a.length} elements>)"

end LazyArray

end ConstraintEval
