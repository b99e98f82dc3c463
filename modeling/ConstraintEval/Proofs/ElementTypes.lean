import ConstraintEval.Model.Build
import ConstraintEval.Proofs.Overloads.TypeOrder
import Mathlib.Order.Bounds.Basic

/-!
# Types of elements

The type that an array literal gives its elements is put together part by part, one element after
another. Among scalar types that agree on whether they are sets each step is the join of two types,
so the whole is the least type above all elements, in whatever order and however often they come.
-/

namespace ConstraintEval

variable {t r u : Ty} {rs : List Ty}

/-! ### The join of two types -/

private theorem Mode.max_le_iff {a b c : Mode} : max a b ≤ c ↔ a ≤ c ∧ b ≤ c := by
  cases a <;> cases b <;> cases c <;> decide

private theorem Presence.max_le_iff {a b c : Presence} : max a b ≤ c ↔ a ≤ c ∧ b ≤ c := by
  cases a <;> cases b <;> cases c <;> decide

/-- Only the base variable stands for two bases that differ. -/
private theorem joined_base_iff {a b c : Base} :
    (c = .any ∨ (if b = a then a else .any) = c) ↔ (c = .any ∨ a = c) ∧ (c = .any ∨ b = c) := by
  rw [← or_and_left]
  refine or_congr_right' fun other ↦ ?_
  split
  · next same => rw [same, and_self]
  · next differ =>
    refine iff_of_false (fun any ↦ other any.symm) ?_
    rintro ⟨rfl, rfl⟩
    exact differ rfl

namespace Build

theorem joinTy_le_iff (ht : t.rank = 0) (hr : r.rank = 0) (alike : r.isSet = t.isSet) :
    joinTy t r ≤ u ↔ t ≤ u ∧ r ≤ u := by
  simp only [Ty.le_def, joinTy, Mode.max_le_iff, Presence.max_le_iff, joined_base_iff, ht, hr,
    alike, Bool.or_self]
  tauto

/-- Joining types one after another gives the least type above the first one and all others. -/
theorem foldl_joinTy_le_iff (ht : t.rank = 0)
    (others : ∀ r ∈ rs, r.rank = 0 ∧ r.isSet = t.isSet) :
    rs.foldl joinTy t ≤ u ↔ t ≤ u ∧ ∀ r ∈ rs, r ≤ u := by
  induction rs generalizing t with
  | nil => simp
  | cons r rs ih =>
    obtain ⟨⟨scalar, alike⟩, others⟩ := List.forall_mem_cons.1 others
    have sets : (joinTy t r).isSet = t.isSet := by rw [joinTy, alike, Bool.or_self]
    rw [List.foldl_cons, ih rfl fun r mem ↦ ⟨(others r mem).1, (others r mem).2.trans sets.symm⟩,
      joinTy_le_iff ht scalar alike, List.forall_mem_cons, and_assoc]

/-- The type from which the join starts adds nothing to the first element. -/
private theorem joinTy_start (scalar : t.rank = 0) :
    joinTy ⟨t.base, .par, .always, false, 0⟩ t = t := by
  refine Ty.ext (if_pos rfl) ?_ ?_ (Bool.false_or _) scalar.symm
  · cases mode : t.mode <;> simp only [joinTy, mode] <;> decide
  · cases presence : t.presence <;> simp only [joinTy, presence] <;> decide

variable {m : Model} {es es' : List ExprKey}

/-- What is above the type that a literal gives its elements is what is above all of them. -/
theorem commonTy_le_iff (nonempty : es ≠ []) (scalar : ∀ e ∈ es, (m.ty e).rank = 0)
    (alike : ∀ e ∈ es, ∀ e' ∈ es, (m.ty e).isSet = (m.ty e').isSet) :
    commonTy m es ≤ u ↔ ∀ e ∈ es, m.ty e ≤ u := by
  cases es with
  | nil => exact absurd rfl nonempty
  | cons first rest =>
    have start := scalar first List.mem_cons_self
    have others : ∀ r ∈ rest.map m.ty, r.rank = 0 ∧ r.isSet = (m.ty first).isSet := by
      refine List.forall_mem_map.2 fun e mem ↦ ?_
      have mem := List.mem_cons_of_mem first mem
      exact ⟨scalar e mem, alike e mem first List.mem_cons_self⟩
    rw [commonTy, List.foldl_cons, joinTy_start start, ← List.foldl_map,
      foldl_joinTy_le_iff start others, List.forall_mem_map, List.forall_mem_cons]

private theorem rank_foldl_joinTy (ht : t.rank = 0) (rs : List Ty) :
    (rs.foldl joinTy t).rank = 0 := by
  induction rs generalizing t with
  | nil => exact ht
  | cons r rs ih => exact ih rfl

/-- The type that a literal gives its elements is scalar. -/
theorem rank_commonTy (m : Model) (es : List ExprKey) : (commonTy m es).rank = 0 := by
  cases es with
  | nil => rfl
  | cons first rest =>
    rw [commonTy, ← List.foldl_map]
    exact rank_foldl_joinTy rfl _

end Build

/-- Types that have the same types above them are the same. -/
theorem Ty.eq_of_le_iff (h : ∀ u, t ≤ u ↔ r ≤ u) : t = r :=
  le_antisymm ((h r).2 r.le_refl) ((h t).1 t.le_refl)

/-! ### The type that a literal has -/

namespace Model

variable {m : Model} {es : List ExprKey}

/-- The type of the elements of an array literal, as the literal has it when it is added. -/
def literalElementTy (m : Model) (ranges : List Interval) (es : List ExprKey) : Ty :=
  let (a, m') := (Build.arrayIn ranges es).run m
  (m'.ty a).elementTy

theorem literalElementTy_eq (m : Model) (ranges : List Interval) (es : List ExprKey) :
    m.literalElementTy ranges es = Build.commonTy m es := by
  let t := (Build.commonTy m es).arrayOf ranges.length
  let literal : Node := ⟨.array ⟨⟨m.literals⟩, es, ranges⟩, .nowhere, t⟩
  have added : m.literalElementTy ranges es =
      ((m.nodes.push literal)[m.nodes.size]?.getD default).ty.elementTy := rfl
  rw [added, Array.getElem?_push_size, Option.getD_some]
  exact Ty.ext rfl rfl rfl rfl (Build.rank_commonTy m es).symm

/-- The type that an array literal gives its elements is the least one above the types of all its
elements, where these are scalar and agree on whether they are sets. It depends neither on their
order nor on how often each of them comes. -/
theorem isLUB_literalElementTy (m : Model) (ranges : List Interval) (nonempty : es ≠ [])
    (scalar : ∀ e ∈ es, (m.ty e).rank = 0)
    (alike : ∀ e ∈ es, ∀ e' ∈ es, (m.ty e).isSet = (m.ty e').isSet) :
    IsLUB {t | ∃ e ∈ es, m.ty e = t} (m.literalElementTy ranges es) ∧
      ∀ ranges' es', (∀ e, e ∈ es' ↔ e ∈ es) →
        m.literalElementTy ranges' es' = m.literalElementTy ranges es := by
  simp only [literalElementTy_eq]
  have above u : Build.commonTy m es ≤ u ↔ ∀ e ∈ es, m.ty e ≤ u :=
    Build.commonTy_le_iff nonempty scalar alike
  refine ⟨⟨?_, fun u bound ↦ (above u).2 fun e mem ↦ bound ⟨e, mem, rfl⟩⟩,
    fun _ es' same ↦ Ty.eq_of_le_iff fun u ↦ ?_⟩
  · rintro t ⟨e, mem, rfl⟩
    exact (above _).1 (Ty.le_refl _) e mem
  · have nonempty' : es' ≠ [] := by
      obtain ⟨e, mem⟩ := List.exists_mem_of_ne_nil es nonempty
      exact List.ne_nil_of_mem ((same e).2 mem)
    rw [above, Build.commonTy_le_iff nonempty' (fun e mem ↦ scalar e ((same e).1 mem))
      fun e mem e' mem' ↦ alike e ((same e).1 mem) e' ((same e').1 mem')]
    simp only [same]

/-- A model of an integer, a truth value and an integer that the solver decides or leaves out. -/
def mixedElements : Model :=
  let build : Build Unit := do
    let _ ← Build.int .one
    let _ ← Build.bool true
    let x ← Build.addVariable
      { name := "x", span := .nowhere, ty := (Ty.int .var).orAbsent, domain := none,
        indexSets := [], definition := none }
    let _ ← Build.name x
  (build.run .empty).2

/-- Three elements of different types have the least type above them, which is for every base and
possibly absent and decided by the solver, and have it in any other order too. -/
theorem isLUB_mixedElements :
    IsLUB {t | ∃ e ∈ [⟨0⟩, ⟨1⟩, ⟨2⟩], mixedElements.ty e = t} (.any .var .maybe 0) ∧
      mixedElements.literalElementTy [] [⟨2⟩, ⟨0⟩, ⟨2⟩, ⟨1⟩] = .any .var .maybe 0 := by
  have least : mixedElements.literalElementTy [] [⟨0⟩, ⟨1⟩, ⟨2⟩] = .any .var .maybe 0 := by
    decide +kernel
  obtain ⟨lub, same⟩ := mixedElements.isLUB_literalElementTy []
    (List.cons_ne_nil ⟨0⟩ [⟨1⟩, ⟨2⟩]) (by decide +kernel) (by decide +kernel)
  rw [least] at lub same
  exact ⟨lub, same [] _ (by simp only [List.mem_cons, List.not_mem_nil]; tauto)⟩

end Model

end ConstraintEval
