import ConstraintEval.Proofs.ArrayIndexing

/-!
# Index arithmetic fits its words

As long as an array has elements, and no more than can be counted in a word, all numbers that come
up on the way to a place or to the number of cells fit their words, as none is greater than the
number of elements. An array without elements has an index range that is empty, but the others may
be as large as they like, and the numbers that come up before it is reached need not fit. Then a
machine that checks its arithmetic stops. One that does not check still gives the right answer, as
indices are refused at the empty range, whatever the numbers were.
-/

namespace ConstraintEval

variable {i : Integer} {r : Interval} {is : List Integer} {rs : List Interval}
  {k m n before : Nat}

/-! ### The number of cells -/

theorem cells_append (rs ss : List Interval) : cells (rs ++ ss) = cells rs * cells ss := by
  induction rs with
  | nil => rw [List.nil_append, cells_nil, Nat.one_mul]
  | cons r rs ih => rw [List.cons_append, cells_cons, cells_cons, ih, Nat.mul_assoc]

theorem checkedTimes_eq_some_iff :
    checkedTimes n r = some m ↔ n * r.size < productLimit ∧ n * r.size = m := by
  unfold checkedTimes
  split
  · next fits => rw [and_iff_right fits, Option.some.injEq]
  · next passes => simp [passes]

private theorem foldlM_checkedTimes_eq_some (h : rs.foldlM checkedTimes n = some m) :
    m = n * cells rs := by
  induction rs generalizing n with
  | nil =>
    cases h
    exact (Nat.mul_one _).symm
  | cons r rs ih =>
    rw [List.foldlM_cons] at h
    obtain ⟨next, times, h⟩ := Option.bind_eq_some_iff.1 h
    obtain ⟨-, rfl⟩ := checkedTimes_eq_some_iff.1 times
    rw [ih h, cells_cons, Nat.mul_assoc]

private theorem foldlM_checkedTimes_eq_none_iff (fits : n < productLimit) :
    rs.foldlM checkedTimes n = none ↔
      ∃ first rest, rs = first ++ rest ∧ productLimit ≤ n * cells first := by
  induction rs generalizing n with
  | nil =>
    simp only [List.foldlM_nil, List.nil_eq_append_iff]
    constructor
    · nofun
    · rintro ⟨_, _, ⟨rfl, rfl⟩, passes⟩
      rw [cells_nil, Nat.mul_one] at passes
      exact absurd passes (Nat.not_le.2 fits)
  | cons r rs ih =>
    rw [List.foldlM_cons]
    by_cases fits' : n * r.size < productLimit
    · rw [checkedTimes_eq_some_iff.2 ⟨fits', rfl⟩]
      refine (ih fits').trans ⟨?_, ?_⟩
      · rintro ⟨first, rest, rfl, passes⟩
        exact ⟨r :: first, rest, rfl, by rwa [cells_cons, ← Nat.mul_assoc]⟩
      · rintro ⟨first, rest, split, passes⟩
        cases first with
        | nil =>
          rw [cells_nil, Nat.mul_one] at passes
          exact absurd passes (Nat.not_le.2 fits)
        | cons s first =>
          obtain ⟨rfl, rfl⟩ := List.cons.inj split
          exact ⟨first, rest, rfl, by rwa [cells_cons, ← Nat.mul_assoc] at passes⟩
    · have refused : checkedTimes n r = none := by rw [checkedTimes, if_neg fits']
      rw [refused]
      refine ⟨fun _ ↦ ⟨[r], rs, rfl, ?_⟩, fun _ ↦ rfl⟩
      rw [cells_cons, cells_nil, Nat.mul_one]
      exact Nat.not_lt.1 fits'

/-- A product that fits its word on the way is exact. -/
theorem eq_cells_of_checkedCells (h : checkedCells rs = some n) : n = cells rs := by
  rw [foldlM_checkedTimes_eq_some h, Nat.one_mul]

/-- A product does not fit its word on the way exactly if some first ranges describe too many
cells. -/
theorem checkedCells_eq_none_iff : checkedCells rs = none ↔
    ∃ first rest, rs = first ++ rest ∧ productLimit ≤ cells first := by
  have fits : 1 < productLimit := by decide
  simp only [checkedCells, foldlM_checkedTimes_eq_none_iff fits, Nat.one_mul]

/-! ### Places -/

/-- A cell comes before the end of its row. -/
private theorem next_lt (before : Nat) (mem : i ∈ r) :
    before * r.size + (i.val - r.lo.val).toNat < (before + 1) * r.size := by
  rw [Nat.succ_mul]
  exact Nat.add_lt_add_left (Interval.offset_lt_size mem) _

/-- A machine that keeps numbers that fit a word finds the place of a cell if there are cells, and
no more than fit a word. -/
theorem cellPlaceIn_of_fits {machine : WordArithmetic}
    (keeps : ∀ n < wordLimit, machine n = some n) (length : is.length = rs.length)
    (positive : 0 < cells rs) (fits : (before + 1) * cells rs < wordLimit) :
    cellPlaceIn machine k before is rs = some (cellPlace k before is rs) := by
  induction is generalizing rs k before with
  | nil =>
    obtain rfl : rs = [] := List.length_eq_zero_iff.1 length.symm
    rfl
  | cons i is ih =>
    cases rs with
    | nil => cases length
    | cons r rs =>
      rw [cellPlaceIn, cellPlace]
      split
      · next mem =>
        have positive' : 0 < cells rs :=
          Nat.pos_of_ne_zero fun none ↦ by simp [cells_cons, none] at positive
        have size : r.size ≤ (before + 1) * r.size * cells rs :=
          Nat.le_trans (Nat.le_mul_of_pos_left _ before.succ_pos) (Nat.le_mul_of_pos_right _ positive')
        rw [cells_cons, ← Nat.mul_assoc] at fits
        have held : r.size ≤ wordLimit - 1 := Nat.le_pred_of_lt (Nat.lt_of_le_of_lt size fits)
        rw [Nat.min_eq_left held]
        have next := next_lt before mem
        generalize before * r.size + (i.val - r.lo.val).toNat = place at next
        have rest : (place + 1) * cells rs ≤ (before + 1) * r.size * cells rs :=
          Nat.mul_le_mul_right _ next
        have word : place + 1 ≤ (place + 1) * cells rs := Nat.le_mul_of_pos_right _ positive'
        have kept : machine place = some place := keeps place (by omega)
        rw [kept]
        exact ih (Nat.succ.inj length) positive' (Nat.lt_of_le_of_lt rest fits)
      · rfl

/-- Where there are no cells, indices are refused whatever the numbers on the way are. -/
theorem cellPlaceIn_of_empty {machine : WordArithmetic} {result : Except Failure Nat} {before' : Nat}
    (length : is.length = rs.length) (empty : cells rs = 0)
    (h : cellPlaceIn machine k before is rs = some result) : cellPlace k before' is rs = result := by
  induction is generalizing rs k before before' with
  | nil =>
    obtain rfl : rs = [] := List.length_eq_zero_iff.1 length.symm
    cases empty
  | cons i is ih =>
    cases rs with
    | nil => cases length
    | cons r rs =>
      rw [cellPlaceIn] at h
      rw [cellPlace]
      split at h
      · next mem =>
        rw [if_pos mem]
        obtain ⟨next, -, h⟩ := Option.bind_eq_some_iff.1 h
        have some : 0 < r.size := Nat.zero_lt_of_lt (Interval.offset_lt_size mem)
        have empty : cells rs = 0 := (Nat.mul_eq_zero.1 empty).resolve_left some.ne'
        exact ih (Nat.succ.inj length) empty h
      · next outside =>
        rw [if_neg outside]
        exact Option.some.inj h

/-! ### Machines -/

namespace WordArithmetic

theorem checked_of_lt {n : Nat} (fits : n < wordLimit) : checked n = some n := if_pos fits

theorem wrapping_of_lt {n : Nat} (fits : n < wordLimit) : wrapping n = some n :=
  congrArg some (Nat.mod_eq_of_lt fits)

end WordArithmetic

theorem exists_cellPlaceIn_wrapping (k before : Nat) (is : List Integer) (rs : List Interval) :
    ∃ result, cellPlaceIn .wrapping k before is rs = some result := by
  induction is generalizing rs k before with
  | nil => exact ⟨_, rfl⟩
  | cons i is ih =>
    cases rs with
    | nil => exact ⟨_, rfl⟩
    | cons r rs =>
      rw [cellPlaceIn]
      split
      · exact ih _ _ rs
      · exact ⟨_, rfl⟩

namespace LazyArray

variable {a : LazyArray} {machine : WordArithmetic}

/-- Where there are elements, and no more than can be counted, a machine finds all places. -/
theorem placeIn_of_nonempty (keeps : ∀ n < wordLimit, machine n = some n)
    (positive : 0 < cells a.ranges) (fits : cells a.ranges < wordLimit) :
    a.placeIn machine is = some (a.place is) := by
  unfold placeIn place
  split
  · next length =>
    rw [← Nat.one_mul (cells a.ranges)] at fits
    exact cellPlaceIn_of_fits keeps length positive fits
  · rfl

/-- Where the elements can be counted, a machine that finds a place finds the right one. -/
theorem eq_place_of_placeIn (keeps : ∀ n < wordLimit, machine n = some n)
    (fits : cells a.ranges < wordLimit) {result : Except Failure Nat}
    (h : a.placeIn machine is = some result) : result = a.place is := by
  rcases Nat.eq_zero_or_pos (cells a.ranges) with empty | positive
  · unfold placeIn at h
    unfold place
    split at h
    · next length =>
      rw [if_pos length]
      exact (cellPlaceIn_of_empty length empty h).symm
    · next length =>
      rw [if_neg length]
      exact (Option.some.inj h).symm
  · rw [placeIn_of_nonempty keeps positive fits] at h
    exact (Option.some.inj h).symm

theorem exists_placeIn_wrapping (a : LazyArray) (is : List Integer) :
    ∃ result, a.placeIn .wrapping is = some result := by
  unfold placeIn
  split
  · exact exists_cellPlaceIn_wrapping 1 0 is a.ranges
  · exact ⟨_, rfl⟩

/-- The cells that the first ranges describe are no more than all of them, where there are any. -/
private theorem checkedCells_of_nonempty {rs : List Interval} (positive : 0 < cells rs)
    (fits : cells rs < productLimit) : checkedCells rs = some (cells rs) := by
  cases counted : checkedCells rs with
  | none =>
    obtain ⟨first, rest, rfl, passes⟩ := checkedCells_eq_none_iff.1 counted
    rw [cells_append] at positive fits
    have le : cells first ≤ cells first * cells rest :=
      Nat.le_mul_of_pos_right _ (Nat.pos_of_mul_pos_left positive)
    exact absurd fits (Nat.not_lt.2 (Nat.le_trans passes le))
  | some n => rw [eq_cells_of_checkedCells counted]

end LazyArray

/-- Index arithmetic does not overflow where there are elements. Take an array with no more elements
than can be counted in a word. If it has any, the number of cells and the place of every cell are
found by a machine that checks its arithmetic, and are exact. In any case a machine that checks its
arithmetic finds no other places, and one that does not check it finds all of them, and refuses
indices as it should. The number of cells does not fit its word on the way exactly if some of the
first ranges describe too many cells, of which none is left in the end. -/
theorem index_arithmetic_fits (a : LazyArray) (countable : a.length < wordLimit) :
    (a.isEmpty = false → checkedCells a.ranges = some a.length ∧
      ∀ is, a.placeIn .checked is = some (a.place is)) ∧
    (∀ is result, a.placeIn .checked is = some result → result = a.place is) ∧
    (∀ is, a.placeIn .wrapping is = some (a.place is)) ∧
    (checkedCells a.ranges = none ↔
      ∃ first rest, a.ranges = first ++ rest ∧ productLimit ≤ cells first) := by
  have count : cells a.ranges = a.length := a.cells_eq
  rw [← count] at countable
  refine ⟨fun some ↦ ?nonempty, fun is result ↦
    LazyArray.eq_place_of_placeIn (fun _ ↦ WordArithmetic.checked_of_lt) countable,
    fun is ↦ ?wrapping, checkedCells_eq_none_iff⟩
  case nonempty =>
    have positive : 0 < cells a.ranges := by
      rw [count]
      exact List.length_pos_iff.2 (List.isEmpty_eq_false_iff.1 some)
    have fits : cells a.ranges < productLimit := Nat.lt_trans countable (by decide)
    exact ⟨count ▸ LazyArray.checkedCells_of_nonempty positive fits, fun is ↦
      LazyArray.placeIn_of_nonempty (fun _ ↦ WordArithmetic.checked_of_lt) positive countable⟩
  case wrapping =>
    obtain ⟨result, found⟩ := a.exists_placeIn_wrapping is
    rw [found, LazyArray.eq_place_of_placeIn (fun _ ↦ WordArithmetic.wrapping_of_lt) countable found]

/-! ### An empty range after large ones -/

/-- An array without elements, with all values for the indices of two dimensions. -/
def emptySpace : LazyArray :=
  ⟨⟨0⟩, [], [⟨.least, .greatest⟩, ⟨.least, .greatest⟩, ⟨.one, .zero⟩], .int .par, by decide⟩

/-- An array without elements, with all values for the index of one dimension. -/
def emptyRows : LazyArray :=
  ⟨⟨0⟩, [], [⟨.zero, .one⟩, ⟨.least, .greatest⟩, ⟨.one, .zero⟩], .int .par, by decide⟩

/-- Literals without elements have these arrays for their values. A machine that checks its
arithmetic stops at the number of cells of the first one and on the way to a place in the second
one, although one that does not check it refuses the indices for the empty range. It finds the
places of an array that has elements. -/
theorem index_arithmetic_of_empty :
    let indices : List Integer := [.one, .ofByte 5, .one]
    LazyArray.ofLiteral ⟨⟨0⟩, [], emptySpace.ranges⟩ (.int .par) = .ok emptySpace ∧
    checkedCells emptySpace.ranges = none ∧
    LazyArray.ofLiteral ⟨⟨0⟩, [], emptyRows.ranges⟩ (.int .par) = .ok emptyRows ∧
    emptyRows.length < wordLimit ∧ emptyRows.placeIn .checked indices = none ∧
    emptyRows.placeIn .wrapping indices =
      some (.error (.of (.indexOutside .one 3 ⟨.one, .zero⟩))) ∧
    twoRows.length < wordLimit ∧ twoRows.placeIn .checked [.one, .zero] = some (.ok 4) := by
  intro indices
  obtain ⟨-, -, wrapping, -⟩ := index_arithmetic_fits emptyRows (by decide)
  have refused : emptyRows.place indices =
      .error (.of (.indexOutside .one 3 ⟨.one, .zero⟩)) := by
    decide +kernel
  obtain ⟨nonempty, -⟩ := index_arithmetic_fits twoRows (by decide)
  have place : twoRows.place [.one, .zero] = .ok 4 := by decide
  exact ⟨by decide +kernel, by decide +kernel, by decide +kernel, by decide, by decide +kernel,
    refused ▸ wrapping indices, by decide, place ▸ (nonempty rfl).2 _⟩

end ConstraintEval
