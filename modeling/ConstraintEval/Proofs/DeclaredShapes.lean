import ConstraintEval.Proofs.AtPending
import Mathlib.Algebra.BigOperators.Group.List.Basic
import Mathlib.Data.List.TakeWhile

/-!
# Declared shapes

The number of elements of an array that declares all its index sets is multiplied up from the first
index set to the last, and refused as soon as it cannot be counted. Once an empty index set has come
the product is 0 and stays so, but the product of those before the first empty one has to be
counted even if the array has no elements. So the number is exact wherever there is one, and whether
there is one depends on the order of the index sets where some are empty and others are large.
-/

namespace ConstraintEval

variable {ctx : Context} {p : Pending} {e e' : ExprKey} {sets sets' : List IntegerSet}

namespace Shape

/-- The exact number of elements that index sets describe. -/
def cellCount (sets : List IntegerSet) : Nat := (sets.map IntegerSet.size).prod

/-- The index sets before the first empty one. -/
def leading (sets : List IntegerSet) : List IntegerSet := sets.takeWhile fun s ↦ 0 < s.size

/-- The index sets that are not empty. -/
def inhabited (sets : List IntegerSet) : List IntegerSet := sets.filter fun s ↦ 0 < s.size

/-- The sizes of sets are values. -/
def Counted (sets : List IntegerSet) : Prop :=
  ∀ s ∈ sets, (s.size : Int) ≤ Integer.greatest.val

theorem cellCount_cons (s : IntegerSet) (sets : List IntegerSet) :
    cellCount (s :: sets) = s.size * cellCount sets := by
  simp [cellCount]

theorem cellCount_perm (perm : sets.Perm sets') : cellCount sets = cellCount sets' :=
  (perm.map _).prod_eq

theorem leading_cons_of_empty {s : IntegerSet} (empty : s.size = 0) (sets : List IntegerSet) :
    leading (s :: sets) = [] := by
  simp [leading, empty]

theorem leading_cons_of_pos {s : IntegerSet} (pos : 0 < s.size) (sets : List IntegerSet) :
    leading (s :: sets) = s :: leading sets := by
  simp [leading, pos]

/-- Where no index set is empty, all come before the first empty one. -/
theorem leading_eq_self (inhabited : ∀ s ∈ sets, s.size ≠ 0) : leading sets = sets := by
  rw [leading, List.takeWhile_eq_self_iff]
  intro s mem
  exact decide_eq_true (Nat.pos_of_ne_zero (inhabited s mem))

theorem cellCount_pos (inhabited : ∀ s ∈ sets, 0 < s.size) : 0 < cellCount sets := by
  induction sets with
  | nil => exact Nat.one_pos
  | cons s sets ih =>
    obtain ⟨pos, others⟩ := List.forall_mem_cons.1 inhabited
    rw [cellCount_cons]
    exact Nat.mul_pos pos (ih others)

theorem cellCount_leading_pos (sets : List IntegerSet) : 0 < cellCount (leading sets) := by
  refine cellCount_pos fun s mem ↦ ?_
  have pos := List.mem_takeWhile_imp mem
  exact of_decide_eq_true pos

/-- Empty index sets do not count among those before the first empty one. -/
theorem cellCount_leading_le (sets : List IntegerSet) :
    cellCount (leading sets) ≤ cellCount (inhabited sets) := by
  induction sets with
  | nil => exact Nat.le_refl _
  | cons s sets ih =>
    rcases Nat.eq_zero_or_pos s.size with empty | pos
    · rw [leading_cons_of_empty empty]
      exact cellCount_pos fun _ mem ↦ of_decide_eq_true (List.mem_filter.1 mem).2
    · rw [leading_cons_of_pos pos, inhabited, List.filter_cons_of_pos (by simpa using pos),
        cellCount_cons, cellCount_cons]
      exact Nat.mul_le_mul_left _ ih

/-- Multiply up by one more index set, as long as the product can be counted. -/
private def times (n : Nat) (s : IntegerSet) : Option Nat := do
  let size ← s.size?
  let next := n * size.val.toNat
  if next < lengthLimit then some next else none

private theorem times_eq {s : IntegerSet} (counted : (s.size : Int) ≤ Integer.greatest.val)
    (n : Nat) : times n s = if n * s.size < lengthLimit then some (n * s.size) else none := by
  have least : Integer.least.val ≤ (s.size : Int) :=
    Int.le_trans (by decide) (Int.natCast_nonneg _)
  have value : s.size? = some ⟨s.size, least, counted⟩ := Integer.ofInt?_eq_some_iff.2 rfl
  rw [times, value]
  simp

/-- Multiplying up the sizes of index sets is exact, and goes on to the end if the product of the
sizes before the first empty one can be counted. -/
private theorem foldlM_times (counted : Counted sets) {n : Nat} (lt : n < lengthLimit) :
    sets.foldlM times n =
      if n * cellCount (leading sets) < lengthLimit then some (n * cellCount sets) else none := by
  induction sets generalizing n with
  | nil => simp [leading, cellCount, lt]
  | cons s sets ih =>
    obtain ⟨fits, others⟩ := List.forall_mem_cons.1 counted
    rw [List.foldlM_cons, times_eq fits, cellCount_cons]
    rcases Nat.eq_zero_or_pos s.size with empty | pos
    · have zero : n * s.size = 0 := by rw [empty, Nat.mul_zero]
      have possible : 0 < lengthLimit := Nat.zero_lt_of_lt lt
      rw [leading_cons_of_empty empty, zero, if_pos possible, ← Nat.mul_assoc, zero]
      simpa [cellCount, lt, possible] using ih others possible
    · rw [leading_cons_of_pos pos, cellCount_cons, ← Nat.mul_assoc, ← Nat.mul_assoc]
      by_cases next : n * s.size < lengthLimit
      · rw [if_pos next]
        exact ih others next
      · have le : n * s.size ≤ n * s.size * cellCount (leading sets) :=
          Nat.le_mul_of_pos_right _ (cellCount_leading_pos sets)
        rw [if_neg next, if_neg (by omega)]
        rfl

/-- The number of elements is exact, and can be counted if the product of the sizes before the first
empty index set can. -/
theorem countCells_eq (counted : Counted sets) :
    countCells sets =
      if cellCount (leading sets) < lengthLimit then some (cellCount sets) else none := by
  change sets.foldlM times 1 = _
  simpa using foldlM_times counted (n := 1) (by decide)

/-- The order of the index sets does not matter where none is empty, or where the product of those
that are not empty can be counted. -/
theorem countCells_perm (counted : Counted sets) (perm : sets.Perm sets')
    (orderly : (∀ s ∈ sets, s.size ≠ 0) ∨ cellCount (inhabited sets) < lengthLimit) :
    countCells sets' = countCells sets := by
  have counted' : Counted sets' := fun s mem ↦ counted s (perm.mem_iff.2 mem)
  rw [countCells_eq counted, countCells_eq counted', cellCount_perm perm]
  rcases orderly with full | fits
  · have full' : ∀ s ∈ sets', s.size ≠ 0 := fun s mem ↦ full s (perm.mem_iff.2 mem)
    rw [leading_eq_self full, leading_eq_self full', cellCount_perm perm]
  · have fits' : cellCount (inhabited sets') < lengthLimit :=
      cellCount_perm (perm.filter _) ▸ fits
    rw [if_pos (Nat.lt_of_le_of_lt (cellCount_leading_le sets) fits),
      if_pos (Nat.lt_of_le_of_lt (cellCount_leading_le sets') fits')]

end Shape

/-! ### Arrays that declare all their index sets -/

/-- An expression names a declaration that gives the index set of every dimension, of which there is
at least one, and these sets are their values. -/
def Context.DeclaresSets (ctx : Context) (p : Pending) (e : ExprKey) (sets : List IntegerSet) :
    Prop :=
  ∃ name v ds, ctx.model.form e = .name name (some v) ∧
    (ctx.model.variableAt v).indexSets = ds.map some ∧ ds ≠ [] ∧
    List.Forall₂ (fun d set ↦ GivesAt p (ctx.evaluator.setOf d) set) ds sets

/-- The shape of an array that declares all its index sets has their values, and the number of
elements that they describe. -/
private theorem shapeOf_apply (h : ctx.DeclaresSets p e sets) {s : EvalState}
    (pending : s.pending = p) :
    ∃ t, ctx.evaluator.shapeOf e s =
      some ((Shape.countCells sets).elim (.error (.of (.overflow "array shape")))
        fun n ↦ .ok ⟨sets, n⟩, t) := by
  obtain ⟨name, v, ds, form, declared, some, values⟩ := h
  replace form : ctx.evaluator.model.form e = .name name (Option.some v) := form
  replace declared : (ctx.evaluator.model.variableAt v).indexSets = ds.map Option.some := declared
  have rank : ctx.evaluator.declaredRank? e = Option.some ds.length := by
    simp [Evaluator.declaredRank?, form, declared, some]
  have one (i : Nat) (d : ExprKey) (entry : ds[i]? = Option.some d) :
      ctx.evaluator.indexSet e (i + 1) = ctx.evaluator.setOf d := by
    simp [Evaluator.indexSet, form, declared, Evaluator.entryOfDimension?, entry]
  have all : GivesAt p ((List.range ds.length).mapM fun i ↦ ctx.evaluator.indexSet e (i + 1))
      sets := by
    refine .mapM (List.forall₂_iff_get.2 ⟨?_, fun i lt lt' ↦ ?_⟩) fun i ↦
      steady_indexSet e (i + 1)
    · rw [List.length_range, values.length_eq]
    · have inside : i < ds.length := by simpa using lt
      rw [List.get_eq_getElem, List.getElem_range, one i ds[i] (List.getElem?_eq_getElem inside)]
      exact values.get inside lt'
  obtain ⟨t, -, run⟩ := all.run (.mapM _ fun i ↦ steady_indexSet e (i + 1)) pending
  refine ⟨t, ?_⟩
  rw [Evaluator.shapeOf, rank]
  simp only [EvalM.bind_apply, run, Option.bind_some]
  cases Shape.countCells sets <;> rfl

/-- The length of a shape is what can be counted of the index sets. -/
private theorem givesAt_shapeOf_iff (h : ctx.DeclaresSets p e sets) {n : Nat} :
    GivesAt p (ctx.evaluator.shapeOf e) ⟨sets, n⟩ ↔ Shape.countCells sets = some n := by
  constructor
  · rintro ⟨s, t, pending, run⟩
    obtain ⟨t', run'⟩ := shapeOf_apply h pending
    rw [run] at run'
    cases counts : Shape.countCells sets with
    | none =>
      rw [counts] at run'
      cases run'
    | some m =>
      rw [counts] at run'
      cases run'
      rfl
  · intro counts
    obtain ⟨t, run⟩ := shapeOf_apply h (s := ⟨p, [], 0⟩) rfl
    rw [counts] at run
    exact ⟨_, t, rfl, run⟩

/-- Of an array that declares all its index sets, whose sizes are values, the shape has the exact
number of elements if the product of the sizes before the first empty index set can be counted, and
is refused otherwise. Where no index set is empty that is the number of elements; then, and where
the product of the other sizes can be counted, the order of the index sets does not matter. -/
theorem shape_of_declared (declares : ctx.DeclaresSets p e sets) (counted : Shape.Counted sets) :
    (Shape.cellCount (Shape.leading sets) < Shape.lengthLimit →
      GivesAt p (ctx.evaluator.shapeOf e) ⟨sets, Shape.cellCount sets⟩) ∧
    (Shape.lengthLimit ≤ Shape.cellCount (Shape.leading sets) → ∀ s, s.pending = p →
      ∃ t, ctx.evaluator.shapeOf e s = some (.error (.of (.overflow "array shape")), t)) ∧
    ((∀ set ∈ sets, set.size ≠ 0) → Shape.leading sets = sets) ∧
    ∀ e' sets', ctx.DeclaresSets p e' sets' → sets.Perm sets' →
      ((∀ set ∈ sets, set.size ≠ 0) ∨
        Shape.cellCount (Shape.inhabited sets) < Shape.lengthLimit) →
      ∀ n, GivesAt p (ctx.evaluator.shapeOf e) ⟨sets, n⟩ ↔
        GivesAt p (ctx.evaluator.shapeOf e') ⟨sets', n⟩ := by
  refine ⟨fun fits ↦ ?_, fun exceeds s pending ↦ ?_, Shape.leading_eq_self, ?_⟩
  · rw [givesAt_shapeOf_iff declares, Shape.countCells_eq counted, if_pos fits]
  · obtain ⟨t, run⟩ := shapeOf_apply declares pending
    rw [Shape.countCells_eq counted, if_neg (by omega)] at run
    exact ⟨t, run⟩
  · intro e' sets' declares' perm orderly n
    rw [givesAt_shapeOf_iff declares, givesAt_shapeOf_iff declares',
      Shape.countCells_perm counted perm orderly]

/-- A model of two arrays with the same declared index sets, of which one is empty: it is the last
one of the first array and the first one of the second. -/
def emptyLastAndFirst : Context where
  model :=
    let build : Build Unit := do
      let many ← Build.between (← Build.int .zero)
        (← Build.int ⟨4611686018427387903, by omega, by omega⟩)
      let four ← Build.between (← Build.int .zero) (← Build.int (.ofByte 3))
      let no ← Build.between (← Build.int .one) (← Build.int .zero)
      let a ← Build.addVariable
        { name := "a", span := .nowhere, ty := (Ty.int .par).arrayOf 3, domain := none,
          indexSets := [some many, some four, some no], definition := none }
      let b ← Build.addVariable
        { name := "b", span := .nowhere, ty := (Ty.int .par).arrayOf 3, domain := none,
          indexSets := [some no, some many, some four], definition := none }
      let _ ← Build.name a
      let _ ← Build.name b
    (build.run .empty).2
  registry := .empty

/-- The values of the index sets of the first array. -/
def emptyLast : List IntegerSet :=
  [.range .zero ⟨4611686018427387903, by omega, by omega⟩, .range .zero (.ofByte 3),
    .range .one .zero]

/-- The array with the empty index set at the end has no shape, as `2 ^ 62 * 4` elements cannot be
counted, and the one with the empty index set in front has one without elements. -/
theorem shape_of_emptyLastAndFirst :
    Shape.Counted emptyLast ∧ Shape.cellCount emptyLast = 0 ∧
    (∃ t, emptyLastAndFirst.evaluator.shapeOf ⟨9⟩ (.fresh none) =
      some (.error (.of (.overflow "array shape")), t)) ∧
    GivesAt (.empty none) (emptyLastAndFirst.evaluator.shapeOf ⟨10⟩) ⟨emptyLast.rotate 2, 0⟩ := by
  have counted : Shape.Counted emptyLast := by
    unfold Shape.Counted
    decide +kernel
  have counted' : Shape.Counted (emptyLast.rotate 2) :=
    fun s mem ↦ counted s (List.mem_rotate.1 mem)
  have many : GivesAt (.empty none) (emptyLastAndFirst.evaluator.setOf ⟨2⟩) emptyLast[0] :=
    ⟨.fresh none, .fresh none, rfl, by decide +kernel⟩
  have four : GivesAt (.empty none) (emptyLastAndFirst.evaluator.setOf ⟨5⟩) emptyLast[1] :=
    ⟨.fresh none, .fresh none, rfl, by decide +kernel⟩
  have no : GivesAt (.empty none) (emptyLastAndFirst.evaluator.setOf ⟨8⟩) emptyLast[2] :=
    ⟨.fresh none, .fresh none, rfl, by decide +kernel⟩
  have last : emptyLastAndFirst.DeclaresSets (.empty none) ⟨9⟩ emptyLast :=
    ⟨"a", ⟨0⟩, [⟨2⟩, ⟨5⟩, ⟨8⟩], by decide +kernel, by decide +kernel, List.cons_ne_nil _ _,
      .cons many (.cons four (.cons no .nil))⟩
  have first : emptyLastAndFirst.DeclaresSets (.empty none) ⟨10⟩ (emptyLast.rotate 2) :=
    ⟨"b", ⟨1⟩, [⟨8⟩, ⟨2⟩, ⟨5⟩], by decide +kernel, by decide +kernel, List.cons_ne_nil _ _,
      .cons no (.cons many (.cons four .nil))⟩
  refine ⟨counted, by decide +kernel, ?_, ?_⟩
  · exact (shape_of_declared last counted).2.1 (by decide +kernel) _ rfl
  · exact (shape_of_declared first counted').1 (by decide +kernel)

end ConstraintEval
