import ConstraintEval.Proofs.Queries
import ConstraintEval.Proofs.Semantics.Elements

/-!
# Index sets and indices

Where the declaration of an array leaves the range of a dimension to the data, the index set of the
dimension is the range of the array, and where it gives a range that one is the index set, whatever
the array. So indices from the index sets of all dimensions lead to an element unless a declared
range holds more than the range of the array.
-/

namespace ConstraintEval

open Evaluator (entryOfDimension?)

variable {α β : Type} {ctx : Context} {p : Pending} {e : ExprKey}

/-! ### What evaluations give while some declarations are pending -/

/-- An evaluation gives a result while some declarations are pending. -/
def GivesAt (p : Pending) (x : EvalM α) (a : α) : Prop :=
  ∃ s t, s.pending = p ∧ x s = some (.ok a, t)

namespace GivesAt

/-- A steady evaluation gives the same in every state. -/
theorem run {x : EvalM α} {a : α} (h : GivesAt p x a) (steady : Steady x.run) {s : EvalState}
    (pending : s.pending = p) : ∃ t, t.pending = p ∧ x s = some (.ok a, t) := by
  obtain ⟨s', t', pending', run'⟩ := h
  obtain ⟨result, blind⟩ := steady.blind
  have same : (x.run s).map Prod.fst = some (.ok a) := by
    rw [blind s, pending, ← pending', ← blind s']
    exact congrArg (Option.map Prod.fst) run'
  obtain ⟨⟨r, t⟩, run, eq⟩ := Option.map_eq_some_iff.1 same
  cases eq
  exact ⟨t, (steady.traceless s _ t run).pending.trans pending, run⟩

theorem unique {x : EvalM α} {a b : α} (h : GivesAt p x a) (h' : GivesAt p x b)
    (steady : Steady x.run) : a = b := by
  obtain ⟨s, t, pending, run⟩ := h
  obtain ⟨t', -, run'⟩ := h'.run steady pending
  rw [run] at run'
  cases run'
  rfl

theorem of_bind {x : EvalM α} {f : α → EvalM β} {b : β} (h : GivesAt p (x >>= f) b)
    (steady : Steady x.run) : ∃ a, GivesAt p x a ∧ GivesAt p (f a) b := by
  obtain ⟨s, u, pending, run⟩ := h
  rw [EvalM.bind_apply] at run
  obtain ⟨⟨r, t⟩, first, next⟩ := Option.bind_eq_some_iff.1 run
  cases r with
  | error f => cases next
  | ok a =>
    have pending' := (steady.traceless s _ t first).pending.trans pending
    exact ⟨a, ⟨s, t, pending, first⟩, t, u, pending', next⟩

theorem of_map {x : EvalM α} {g : α → β} {b : β} (h : GivesAt p (g <$> x) b) :
    ∃ a, GivesAt p x a ∧ g a = b := by
  obtain ⟨s, t, pending, run⟩ := h
  rw [← bind_pure_comp, EvalM.bind_apply] at run
  obtain ⟨⟨r, u⟩, first, next⟩ := Option.bind_eq_some_iff.1 run
  cases r with
  | error f => cases next
  | ok a =>
    cases next
    exact ⟨a, ⟨s, _, pending, first⟩, rfl⟩

theorem map {x : EvalM α} {a : α} (g : α → β) (h : GivesAt p x a) :
    GivesAt p (g <$> x) (g a) := by
  obtain ⟨s, t, pending, run⟩ := h
  refine ⟨s, t, pending, ?_⟩
  rw [← bind_pure_comp, EvalM.bind_apply, run]
  rfl

theorem bind {x : EvalM α} {f : α → EvalM β} {a : α} {b : β} (h : GivesAt p x a)
    (steady : Steady x.run) (next : GivesAt p (f a) b) (steady' : Steady (f a).run) :
    GivesAt p (x >>= f) b := by
  obtain ⟨s, t, pending, run⟩ := h
  obtain ⟨u, -, run'⟩ := next.run steady' ((steady.traceless s _ t run).pending.trans pending)
  refine ⟨s, u, pending, ?_⟩
  rw [EvalM.bind_apply, run, Option.bind_some]
  exact run'

theorem gives {x : EvalM α} {a : α} (h : GivesAt p x a) : Gives x a := by
  obtain ⟨s, t, -, run⟩ := h
  exact ⟨s, t, run⟩

end GivesAt

/-! ### Index sets -/

/-- What the declaration of a named array says about the index set of a dimension: an expression,
or nothing where the index set is left to the data. -/
def Model.indexEntry? (m : Model) (e : ExprKey) (dimension : Nat) : Option (Option ExprKey) :=
  match m.form e with
  | .name _ (some v) => entryOfDimension? (m.variableAt v).indexSets dimension
  | _ => none

/-- An index set is the value of the declared one or else the range of the array. -/
private theorem cases_of_indexSet {k : Nat} {set : IntegerSet}
    (h : GivesAt p (ctx.evaluator.indexSet e k) set) :
    (∃ d, ctx.model.indexEntry? e k = some (some d) ∧ GivesAt p (ctx.evaluator.setOf d) set) ∨
    ctx.model.indexEntry? e k = some none ∧
      ∃ a r, GivesAt p (ctx.evaluator.arrayOf e) a ∧ a.range? k = some r ∧
        set = .range r.lo r.hi := by
  unfold Evaluator.indexSet at h
  unfold Model.indexEntry?
  split at h
  · next name v form =>
    rw [show ctx.model.form e = .name name (some v) from form]
    simp only at h
    split at h
    · exact h.gives.not_failAt.elim
    · next d entry => exact Or.inl ⟨d, entry, h⟩
    · next entry =>
      obtain ⟨a, array, h⟩ := h.of_bind (steady_arrayOf e)
      split at h
      · next r range => exact Or.inr ⟨entry, a, r, array, range, h.gives.of_pure⟩
      · exact h.gives.not_failAt.elim
  · exact h.gives.not_failAt.elim
  · exact h.gives.not_failAt.elim

/-! ### Indices within ranges -/

private theorem exists_cellPlace {is : List Integer} {rs : List Interval} {k before : Nat}
    (inside : List.Forall₂ (· ∈ ·) is rs) : ∃ p, cellPlace k before is rs = .ok p := by
  induction inside generalizing k before with
  | nil => exact ⟨before, rfl⟩
  | cons mem _ ih =>
    rw [cellPlace, if_pos mem]
    exact ih

/-- Indices within the ranges of all dimensions lead to an element. -/
theorem LazyArray.exists_select {a : LazyArray} {is : List Integer}
    (inside : List.Forall₂ (· ∈ ·) is a.ranges) : ∃ x, a.select is = .ok x := by
  have place : ∃ p, a.place is = .ok p := by
    have length : is.length = a.rank := inside.length_eq
    rw [LazyArray.place, if_pos length]
    exact exists_cellPlace inside
  obtain ⟨p, place⟩ := place
  unfold LazyArray.select
  split
  · exact ⟨_, rfl⟩
  · next f failed =>
    rw [place] at failed
    cases failed

private theorem forall₂_of_getElem? {is : List Integer} {rs : List Interval}
    (length : is.length = rs.length)
    (inside : ∀ (k : Nat) i r, is[k]? = some i → rs[k]? = some r → i ∈ r) :
    List.Forall₂ (· ∈ ·) is rs := by
  rw [List.forall₂_iff_get]
  refine ⟨length, fun k lt lt' ↦ inside k _ _ ?_ ?_⟩
  · rw [List.getElem?_eq_getElem lt, List.get_eq_getElem]
  · rw [List.getElem?_eq_getElem lt', List.get_eq_getElem]

/-- Where the index set of a dimension and the array are both found, the index set is the range of
the dimension if the declaration leaves it to the data, and else it is the declared one. Indices
from the index sets of all dimensions lead to an element of the array, and an access with such
indices has the value of that element, provided that every declared index set lies within the
range of its dimension. -/
theorem indexSets_agree (ctx : Context) (p : Pending) (e : ExprKey) (a : LazyArray)
    (array : GivesAt p (ctx.evaluator.arrayOf e) a) :
    (∀ k set, GivesAt p (ctx.evaluator.indexSet e k) set →
      (∃ d, ctx.model.indexEntry? e k = some (some d) ∧ GivesAt p (ctx.evaluator.setOf d) set) ∨
      ctx.model.indexEntry? e k = some none ∧
        ∃ r, a.range? k = some r ∧ set = .range r.lo r.hi) ∧
    ((∀ k d set r, ctx.model.indexEntry? e k = some (some d) →
        GivesAt p (ctx.evaluator.setOf d) set → a.range? k = some r → ∀ i ∈ set, i ∈ r) →
      ∀ is : List Integer, is.length = a.rank →
        (∀ (k : Nat) i, is[k]? = some i → ∃ set, GivesAt p (ctx.evaluator.indexSet e (k + 1)) set ∧
          i ∈ set) →
        ∃ x ∈ a.elements, a.select is = .ok x ∧
          ∀ indices, GivesAt p (indices.mapM ctx.evaluator.intOf) is → ∀ s, s.pending = p →
            ∃ t, t.pending = p ∧
              ctx.evaluator.valueOfElement e indices s = ctx.evaluator.eval x t) := by
  have agree (k : Nat) (set : IntegerSet) (found : GivesAt p (ctx.evaluator.indexSet e k) set) :
      (∃ d, ctx.model.indexEntry? e k = some (some d) ∧ GivesAt p (ctx.evaluator.setOf d) set) ∨
      ctx.model.indexEntry? e k = some none ∧
        ∃ r, a.range? k = some r ∧ set = .range r.lo r.hi := by
    rcases cases_of_indexSet found with declared | ⟨entry, a', r, array', range, eq⟩
    · exact Or.inl declared
    · rw [array.unique array' (steady_arrayOf e)]
      exact Or.inr ⟨entry, r, range, eq⟩
  refine ⟨agree, fun fits is length members ↦ ?_⟩
  have inside : ∀ (k : Nat) i r, is[k]? = some i → a.ranges[k]? = some r → i ∈ r := by
    intro k i r index range
    obtain ⟨set, found, mem⟩ := members k i index
    rcases agree (k + 1) set found with ⟨d, entry, value⟩ | ⟨-, r', range', rfl⟩
    · exact fits (k + 1) d set r entry value range i mem
    · cases range.symm.trans range'
      exact IntegerSet.mem_range.1 mem
  obtain ⟨x, selected⟩ := LazyArray.exists_select (forall₂_of_getElem? length inside)
  refine ⟨x, mem_elements_of_select selected, selected, fun indices values s pending ↦ ?_⟩
  have steady : Steady (indices.mapM ctx.evaluator.intOf).run := .mapM indices steady_intOf
  obtain ⟨t, pending, run⟩ := array.run (steady_arrayOf e) pending
  obtain ⟨u, pending, run'⟩ := values.run steady pending
  refine ⟨u, pending, ?_⟩
  unfold Evaluator.valueOfElement
  rw [EvalM.bind_apply, run, Option.bind_some]
  simp only
  rw [EvalM.bind_apply, run', Option.bind_some]
  simp only [selected]
  rfl

/-- A model of an array in two dimensions, of which the first one has a declared index set. -/
def halfDeclared : Context where
  model :=
    let build : Build Unit := do
      let zero ← Build.int .zero
      let one ← Build.int .one
      let indexSet ← Build.between zero one
      let array ← Build.arrayIn [⟨.zero, .one⟩, Build.fromOne 2] [zero, one, one, zero]
      let a ← Build.addVariable
        { name := "a", span := .nowhere, ty := (Ty.int .par).arrayOf 2, domain := none,
          indexSets := [some indexSet, none], definition := some array }
      let _ ← Build.name a
    (build.run .empty).2
  registry := .empty

/-- An access with an index from each of the two index sets has the value of an element. -/
theorem access_halfDeclared :
    halfDeclared.evaluator.indexSet ⟨4⟩ 1 (.fresh none) =
      some (.ok (.range .zero .one), .fresh none) ∧
    ∃ t, t.pending = .empty none ∧
      halfDeclared.evaluator.valueOfElement ⟨4⟩ [⟨1⟩, ⟨1⟩] (.fresh none) =
        halfDeclared.evaluator.eval ⟨1⟩ t := by
  let rows : Interval := ⟨.zero, .one⟩
  let columns : Interval := Build.fromOne 2
  let a : LazyArray := ⟨⟨0⟩, [⟨0⟩, ⟨1⟩, ⟨1⟩, ⟨0⟩], [rows, columns], .int .par, rfl⟩
  have array : GivesAt (.empty none) (halfDeclared.evaluator.arrayOf ⟨4⟩) a :=
    ⟨.fresh none, .fresh none, rfl, by decide +kernel⟩
  have declared : GivesAt (.empty none) (halfDeclared.evaluator.setOf ⟨2⟩)
      (.range rows.lo rows.hi) :=
    ⟨.fresh none, .fresh none, rfl, by decide +kernel⟩
  have first : halfDeclared.evaluator.indexSet ⟨4⟩ 1 (.fresh none) =
      some (.ok (.range .zero .one), .fresh none) := by
    decide +kernel
  have second : halfDeclared.evaluator.indexSet ⟨4⟩ 2 (.fresh none) =
      some (.ok (.range columns.lo columns.hi), .fresh none) := by
    decide +kernel
  have indices : GivesAt (.empty none) (List.mapM halfDeclared.evaluator.intOf [⟨1⟩, ⟨1⟩])
      [Integer.one, Integer.one] :=
    ⟨.fresh none, .fresh none, rfl, by decide +kernel⟩
  have fits : ∀ k d set r, halfDeclared.model.indexEntry? ⟨4⟩ k = some (some d) →
      GivesAt (.empty none) (halfDeclared.evaluator.setOf d) set → a.range? k = some r →
        ∀ i ∈ set, i ∈ r := by
    intro k d set r entry value range i mem
    match k with
    | 0 => cases entry
    | 1 =>
      cases entry
      cases range
      rw [value.unique declared (steady_setOf ⟨2⟩)] at mem
      exact IntegerSet.mem_range.1 mem
    | 2 => cases entry
    | k + 3 => cases entry
  have members : ∀ (k : Nat) i, [Integer.one, Integer.one][k]? = some i →
      ∃ set, GivesAt (.empty none) (halfDeclared.evaluator.indexSet ⟨4⟩ (k + 1)) set ∧
        i ∈ set := by
    intro k i index
    match k with
    | 0 =>
      cases index
      exact ⟨_, ⟨_, _, rfl, first⟩, IntegerSet.mem_range.2 (by decide)⟩
    | 1 =>
      cases index
      exact ⟨_, ⟨_, _, rfl, second⟩, IntegerSet.mem_range.2 (by decide)⟩
    | k + 2 => cases index
  obtain ⟨x, -, selected, access⟩ :=
    (indexSets_agree halfDeclared (.empty none) ⟨4⟩ a array).2 fits [.one, .one] rfl members
  have element : a.select [.one, .one] = .ok ⟨1⟩ := by decide +kernel
  cases element.symm.trans selected
  exact ⟨first, access _ indices (.fresh none) rfl⟩

/-- A model of an array that is counted from 1, with a declared index set that starts at 0. -/
def countedFromZero : Context where
  model :=
    let build : Build Unit := do
      let zero ← Build.int .zero
      let one ← Build.int .one
      let indexSet ← Build.between zero one
      let array ← Build.array [zero, one]
      let a ← Build.addVariable
        { name := "a", span := .nowhere, ty := (Ty.int .par).arrayOf 1, domain := none,
          indexSets := [some indexSet], definition := some array }
      let _ ← Build.element (← Build.name a) [zero]
    (build.run .empty).2
  registry := .empty

/-- The value of the array. -/
def countedFromOne : LazyArray := ⟨⟨0⟩, [⟨0⟩, ⟨1⟩], [Build.fromOne 2], .int .par, rfl⟩

/-- The declared index set is the index set although the array has another range, and the access
with its first member is refused. -/
theorem indexSet_countedFromZero :
    countedFromZero.evaluator.indexSet ⟨4⟩ 1 (.fresh none) =
      some (.ok (.range .zero .one), .fresh none) ∧
    countedFromZero.evaluator.arrayOf ⟨4⟩ (.fresh none) =
      some (.ok countedFromOne, .fresh none) ∧
    countedFromOne.range? 1 = some (Build.fromOne 2) ∧
    IntegerSet.range .zero .one ≠ .range (Build.fromOne 2).lo (Build.fromOne 2).hi ∧
    (IntegerSet.range .zero .one).contains .zero = true ∧
    countedFromZero.evaluator.eval ⟨5⟩ (.fresh none) =
      some (.error (.of (.indexOutside .zero 1 (Build.fromOne 2))), .fresh none) := by
  decide +kernel

end ConstraintEval
