import ConstraintEval.Eval.IndexArithmetic
import ConstraintEval.Proofs.Bounds.Exactness
import ConstraintEval.Proofs.Evaluation.Termination
import ConstraintEval.Proofs.IndexSets

/-!
# Array indexing

Index ranges describe one cell for every way to pick an index from each of them. The place of a cell
is its rank in row-major order, in which the last index runs fastest, so places are the numbers
below the number of cells, and different cells have different ones. An array has as many elements
as its index ranges describe cells, so every cell has an element and every element a cell.
-/

namespace ConstraintEval

/-- The rank of the cell with given indices in row-major order: every index counts the cells of the
dimensions after its own. -/
def rowMajor : List Integer → List Interval → Nat
  | i :: is, r :: rs => (i.val - r.lo.val).toNat * cells rs + rowMajor is rs
  | _, _ => 0

section Rank

variable {i : Integer} {r : Interval} {is js : List Integer} {rs : List Interval} {k before p : Nat}

/-- The members of an interval are counted from the lower end. -/
theorem Interval.offset_lt_size (h : i ∈ r) : (i.val - r.lo.val).toNat < r.size := by
  rw [Interval.mem_def] at h
  unfold Interval.size Interval.width
  omega

/-- What comes before a row comes before all of a later one. -/
private theorem row_lt {m n c u v : Nat} (row : m < n) (column : u < c) :
    m * c + u < n * c + v :=
  calc m * c + u
      < m * c + c := Nat.add_lt_add_left column _
    _ = (m + 1) * c := (Nat.succ_mul m c).symm
    _ ≤ n * c := Nat.mul_le_mul_right c row
    _ ≤ n * c + v := Nat.le_add_right _ v

theorem rowMajor_lt_cells (inside : List.Forall₂ (· ∈ ·) is rs) : rowMajor is rs < cells rs := by
  induction inside with
  | nil => exact Nat.one_pos
  | cons mem _ ih => exact row_lt (v := 0) (Interval.offset_lt_size mem) ih

/-- A cell with a smaller index in a dimension, where the indices before agree, has a lower rank. -/
theorem rowMajor_lt_of_lex (inside : List.Forall₂ (· ∈ ·) is rs)
    (inside' : List.Forall₂ (· ∈ ·) js rs) (lex : List.Lex (fun i j ↦ i < j) is js) :
    rowMajor is rs < rowMajor js rs := by
  induction lex generalizing rs with
  | nil =>
    cases inside
    cases inside'
  | @rel i is j js less =>
    cases inside with
    | @cons _ r _ rs mem rest =>
      cases inside' with
      | cons mem' _ =>
        have row : (i.val - r.lo.val).toNat < (j.val - r.lo.val).toNat := by
          rw [Interval.mem_def] at mem mem'
          rw [Integer.lt_def] at less
          omega
        exact row_lt row (rowMajor_lt_cells rest)
  | cons _ ih =>
    cases inside with
    | cons _ rest =>
      cases inside' with
      | cons _ rest' => exact Nat.add_lt_add_left (ih rest rest') _

/-- Cells of the same rank are the same. -/
theorem eq_of_rowMajor_eq (inside : List.Forall₂ (· ∈ ·) is rs)
    (inside' : List.Forall₂ (· ∈ ·) js rs) (same : rowMajor is rs = rowMajor js rs) : is = js := by
  induction inside generalizing js with
  | nil =>
    cases inside'
    rfl
  | @cons i r is rs mem rest ih =>
    cases inside' with
    | @cons j _ js _ mem' rest' =>
      change (i.val - r.lo.val).toNat * cells rs + rowMajor is rs =
        (j.val - r.lo.val).toNat * cells rs + rowMajor js rs at same
      have row : (i.val - r.lo.val).toNat = (j.val - r.lo.val).toNat := by
        rcases Nat.lt_trichotomy (i.val - r.lo.val).toNat (j.val - r.lo.val).toNat with
          before | eq | after
        · exact absurd same (Nat.ne_of_lt (row_lt before (rowMajor_lt_cells rest)))
        · exact eq
        · exact absurd same (Nat.ne_of_gt (row_lt after (rowMajor_lt_cells rest')))
      rw [row] at same
      rw [ih rest' (Nat.add_left_cancel same)]
      have index : i = j := by
        rw [Interval.mem_def] at mem mem'
        apply Integer.ext
        omega
      rw [index]

/-- Every number below the number of cells is the rank of one. -/
theorem exists_rowMajor_eq (lt : p < cells rs) :
    ∃ is, List.Forall₂ (· ∈ ·) is rs ∧ rowMajor is rs = p := by
  induction rs generalizing p with
  | nil => exact ⟨[], .nil, (Nat.lt_one_iff.1 lt).symm⟩
  | cons r rs ih =>
    have positive : 0 < cells rs := by
      apply Nat.pos_of_ne_zero
      intro none
      rw [cells_cons, none, Nat.mul_zero] at lt
      exact Nat.not_lt_zero _ lt
    obtain ⟨is, inside, rank⟩ := ih (Nat.mod_lt p positive)
    have row : p / cells rs < r.size := (Nat.div_lt_iff_lt_mul positive).2 lt
    have split : p / cells rs * cells rs + p % cells rs = p := Nat.div_add_mod' p (cells rs)
    generalize p / cells rs = n at row split
    have least := r.lo.least_le
    have greatest := r.hi.le_greatest
    unfold Interval.size Interval.width at row
    obtain ⟨i, index⟩ : ∃ i : Integer, i.val = r.lo.val + n :=
      Integer.exists_val_eq_iff.2 (by omega)
    have mem : i ∈ r := by
      rw [Interval.mem_def]
      omega
    have offset : (i.val - r.lo.val).toNat = n := by omega
    refine ⟨i :: is, .cons mem inside, ?_⟩
    rw [rowMajor, offset, rank]
    exact split

/-! ### Places -/

/-- Indices have a place exactly if each of them is in the range of its dimension. It is the rank of
the cell, after the rows before. -/
theorem cellPlace_eq_ok_iff (length : is.length = rs.length) :
    cellPlace k before is rs = .ok p ↔
      List.Forall₂ (· ∈ ·) is rs ∧ p = before * cells rs + rowMajor is rs := by
  induction is generalizing rs k before with
  | nil =>
    obtain rfl : rs = [] := List.length_eq_zero_iff.1 length.symm
    simp [cellPlace, rowMajor, eq_comm]
  | cons i is ih =>
    cases rs with
    | nil => cases length
    | cons r rs =>
      have rows (m : Nat) : (before * r.size + m) * cells rs + rowMajor is rs =
          before * cells (r :: rs) + (m * cells rs + rowMajor is rs) := by
        rw [cells_cons, Nat.add_mul, Nat.mul_assoc, Nat.add_assoc]
      rw [cellPlace, List.forall₂_cons, rowMajor]
      split
      · next mem => rw [ih (Nat.succ.inj length), rows, and_iff_right mem]
      · next outside => simp [outside]

/-- Indices that have no place are refused for the first one that is not in its range. -/
theorem exists_cellPlace_eq_error (k before : Nat) (length : is.length = rs.length)
    (outside : ¬List.Forall₂ (· ∈ ·) is rs) :
    ∃ n i r, is[n]? = some i ∧ rs[n]? = some r ∧ i ∉ r ∧
      List.Forall₂ (· ∈ ·) (is.take n) (rs.take n) ∧
      cellPlace k before is rs = .error (.of (.indexOutside i (k + n) r)) := by
  induction is generalizing rs k before with
  | nil =>
    obtain rfl : rs = [] := List.length_eq_zero_iff.1 length.symm
    exact absurd .nil outside
  | cons i is ih =>
    cases rs with
    | nil => cases length
    | cons r rs =>
      rw [cellPlace]
      split
      · next mem =>
        rw [List.forall₂_cons, and_iff_right mem] at outside
        obtain ⟨n, j, s, index, range, notMem, inside, place⟩ :=
          ih (k + 1) _ (Nat.succ.inj length) outside
        refine ⟨n + 1, j, s, index, range, notMem, .cons mem inside, ?_⟩
        rw [place, Nat.add_right_comm, Nat.add_assoc]
      · next notMem => exact ⟨0, i, r, rfl, rfl, notMem, .nil, rfl⟩

end Rank

/-! ### The number of cells -/

/-- Holding products at a limit on the way comes to the product held at the limit, as a later size
of 0 makes both 0. -/
private theorem foldl_saturatedTimes {n : Nat} (rs : List Interval) (le : n ≤ productLimit - 1) :
    rs.foldl saturatedTimes n = min (n * cells rs) (productLimit - 1) := by
  induction rs generalizing n with
  | nil => rw [List.foldl_nil, cells_nil, Nat.mul_one, Nat.min_eq_left le]
  | cons r rs ih =>
    rw [List.foldl_cons, saturatedTimes, ih (Nat.min_le_right _ _), cells_cons, ← Nat.mul_assoc]
    rcases Nat.le_total (n * r.size) (productLimit - 1) with fits | passes
    · rw [Nat.min_eq_left fits]
    · rw [Nat.min_eq_right passes]
      rcases Nat.eq_zero_or_pos (cells rs) with none | some
      · rw [none, Nat.mul_zero, Nat.mul_zero]
      · rw [Nat.min_eq_right (Nat.le_mul_of_pos_right _ some),
          Nat.min_eq_right (Nat.le_trans passes (Nat.le_mul_of_pos_right _ some))]

theorem saturatedCells_eq (rs : List Interval) :
    saturatedCells rs = min (cells rs) (productLimit - 1) := by
  have le : 1 ≤ productLimit - 1 := by decide
  rw [saturatedCells, foldl_saturatedTimes rs le, Nat.one_mul]

/-- A number of elements that fits a word is compared with the exact number of cells, however many
there are. -/
theorem saturatedCells_eq_iff {rs : List Interval} {n : Nat} (fits : n < wordLimit) :
    saturatedCells rs = n ↔ cells rs = n := by
  have less : wordLimit ≤ productLimit - 1 := by decide
  rw [saturatedCells_eq]
  omega

/-! ### Arrays -/

namespace LazyArray

variable {a : LazyArray} {is : List Integer} {p : Nat}

theorem place_eq_ok_iff :
    a.place is = .ok p ↔ List.Forall₂ (· ∈ ·) is a.ranges ∧ p = rowMajor is a.ranges := by
  unfold place
  split
  · next length => rw [cellPlace_eq_ok_iff length, Nat.zero_mul, Nat.zero_add]
  · next length =>
    constructor
    · nofun
    · exact fun ⟨inside, _⟩ ↦ absurd inside.length_eq length

theorem exists_ofLiteral_iff {literal : ArrayLiteral} {ty : Ty} :
    (∃ a, ofLiteral literal ty = .ok a) ↔ cells literal.ranges = literal.elements.length := by
  unfold ofLiteral
  split
  · next eq => simp [eq]
  · next ne => simp [ne]

theorem exists_rearrange?_iff {ranges : List Interval} :
    (∃ b, a.rearrange? ranges = some b) ↔ cells ranges = a.length := by
  unfold rearrange? length
  split
  · next eq => simp [eq]
  · next ne => simp [ne]

/-- The element with given indices is the one at their place. -/
theorem select_of_place (h : a.place is = .ok p) :
    a.select is = .ok (a.elements.get ⟨p, place_lt h⟩) := by
  unfold select
  split
  · next q place =>
    cases h.symm.trans place
    rfl
  · next failed =>
    rw [h] at failed
    cases failed

/-- Places are refused for the number of indices, or for the first index that is not in the range of
its dimension. -/
theorem place_eq_error (outside : ¬List.Forall₂ (· ∈ ·) is a.ranges) :
    (is.length ≠ a.rank ∧
      a.place is = .error (.of (.wrongCount "array access" a.rank is.length))) ∨
    is.length = a.rank ∧ ∃ k i r, is[k]? = some i ∧ a.ranges[k]? = some r ∧ i ∉ r ∧
      List.Forall₂ (· ∈ ·) (is.take k) (a.ranges.take k) ∧
      a.place is = .error (.of (.indexOutside i (k + 1) r)) := by
  unfold place
  split
  · next length =>
    obtain ⟨k, i, r, index, range, notMem, before, refused⟩ :=
      exists_cellPlace_eq_error 1 0 length outside
    rw [Nat.add_comm] at refused
    exact .inr ⟨length, k, i, r, index, range, notMem, before, refused⟩
  · next length => exact .inl ⟨length, rfl⟩

end LazyArray

/-- Array indexing is a bijection. A literal has a value as an array exactly if its index ranges
describe as many cells as it has elements, and comparing these with a product that is held at the
greatest word comes to the same; the elements of an array can be rearranged under the same
condition, and every array that an expression evaluates to meets it. In any array, indices have a
place exactly if there is one for each dimension and within its range. The place is their rank in
row-major order, which is the number of an element, and this is the element that is selected.
Different indices have different places, in the order of the indices, and every element has one.
Other indices are refused for their number or for the first one outside of its range. Places are
exact numbers here, those of a machine that does not check its arithmetic; what becomes of them in
its words on the way is the subject of `index_arithmetic_fits`. -/
theorem indices_correspond_to_elements :
    (∀ (literal : ArrayLiteral) (ty : Ty),
      ((∃ a, LazyArray.ofLiteral literal ty = .ok a) ↔
        cells literal.ranges = literal.elements.length) ∧
      (literal.elements.length < wordLimit →
        (saturatedCells literal.ranges = literal.elements.length ↔
          cells literal.ranges = literal.elements.length))) ∧
    (∀ (ctx : Context) (e : ExprKey) (s t : EvalState) (a : LazyArray),
      ctx.evaluator.eval e s = some (.ok (.array a), t) → cells a.ranges = a.length) ∧
    ∀ a : LazyArray,
      (∀ ranges, (∃ b, a.rearrange? ranges = some b) ↔ cells ranges = a.length) ∧
      (∀ is p, a.place is = .ok p ↔
        List.Forall₂ (· ∈ ·) is a.ranges ∧ p = rowMajor is a.ranges) ∧
      (∀ is p, a.place is = .ok p →
        ∃ lt : p < a.elements.length, a.select is = .ok (a.elements.get ⟨p, lt⟩)) ∧
      (∀ is js p, a.place is = .ok p → a.place js = .ok p → is = js) ∧
      (∀ is js p q, a.place is = .ok p → a.place js = .ok q →
        List.Lex (fun i j ↦ i < j) is js → p < q) ∧
      (∀ p < a.length, ∃ is, a.place is = .ok p) ∧
      ∀ is, ¬List.Forall₂ (· ∈ ·) is a.ranges →
        (is.length ≠ a.rank ∧
          a.place is = .error (.of (.wrongCount "array access" a.rank is.length))) ∨
        is.length = a.rank ∧ ∃ k i r, is[k]? = some i ∧ a.ranges[k]? = some r ∧ i ∉ r ∧
          List.Forall₂ (· ∈ ·) (is.take k) (a.ranges.take k) ∧
          a.place is = .error (.of (.indexOutside i (k + 1) r)) := by
  refine ⟨fun literal ty ↦ ⟨LazyArray.exists_ofLiteral_iff, saturatedCells_eq_iff⟩,
    fun _ _ _ _ a _ ↦ a.cells_eq, fun a ↦ ⟨fun _ ↦ LazyArray.exists_rearrange?_iff,
      fun _ _ ↦ LazyArray.place_eq_ok_iff, ?element, ?distinct, ?order, ?every,
      fun _ ↦ LazyArray.place_eq_error⟩⟩
  case element =>
    exact fun is p place ↦ ⟨LazyArray.place_lt place, LazyArray.select_of_place place⟩
  case distinct =>
    intro is js p place place'
    obtain ⟨inside, rank⟩ := LazyArray.place_eq_ok_iff.1 place
    obtain ⟨inside', rank'⟩ := LazyArray.place_eq_ok_iff.1 place'
    exact eq_of_rowMajor_eq inside inside' (rank.symm.trans rank')
  case order =>
    intro is js p q place place' lex
    obtain ⟨inside, rfl⟩ := LazyArray.place_eq_ok_iff.1 place
    obtain ⟨inside', rfl⟩ := LazyArray.place_eq_ok_iff.1 place'
    exact rowMajor_lt_of_lex inside inside' lex
  case every =>
    intro p lt
    rw [LazyArray.length, ← a.cells_eq] at lt
    obtain ⟨is, inside, rank⟩ := exists_rowMajor_eq lt
    exact ⟨is, LazyArray.place_eq_ok_iff.2 ⟨inside, rank.symm⟩⟩

/-- An array of two rows, counted from 0, with three elements each, counted from -1. -/
def twoRows : LazyArray :=
  ⟨⟨0⟩, (List.range 6).map ExprKey.mk, [⟨.zero, .one⟩, ⟨⟨-1, by omega, by omega⟩, .one⟩], .int .par,
    rfl⟩

/-- The second element of the second row is the fifth one of all, and no other indices lead to it. -/
theorem indices_of_twoRows :
    twoRows.place [.one, .zero] = .ok 4 ∧ twoRows.select [.one, .zero] = .ok ⟨4⟩ ∧
    (∀ is, twoRows.place is = .ok 4 → is = [.one, .zero]) ∧
    ∃ is, twoRows.place is = .ok 5 := by
  obtain ⟨-, -, selects, distinct, -, every, -⟩ := indices_correspond_to_elements.2.2 twoRows
  have place : twoRows.place [.one, .zero] = .ok 4 := by decide
  obtain ⟨lt, selected⟩ := selects _ _ place
  exact ⟨place, selected, fun is other ↦ distinct is _ 4 other place, every 5 (by decide)⟩

end ConstraintEval
