import ConstraintEval.Number.IntegerSet

/-!
# Runs of a union

Joining runs never makes more of them. It leaves their number as it is exactly if no two of them
overlap or touch, so the union of two sets has as many runs as the sets have together exactly if
every run of the one lies apart from every run of the other.
-/

namespace ConstraintEval

variable {r s : Interval} {rs ss : List Interval}

/-- Some value is missing between the intervals, whichever comes first. -/
def Interval.Separate (r s : Interval) : Prop :=
  r.hi.val + 1 < s.lo.val ∨ s.hi.val + 1 < r.lo.val

theorem Interval.Separate.symm (h : r.Separate s) : s.Separate r := Or.symm h

private theorem length_coalesceFrom_le (r : Interval) (rs : List Interval) :
    (coalesceFrom r rs).length ≤ rs.length + 1 := by
  induction rs generalizing r with
  | nil => exact Nat.le_refl _
  | cons next rest ih =>
    unfold coalesceFrom
    split
    · exact Nat.le_succ_of_le (ih _)
    · exact Nat.succ_le_succ (ih next)

/-- Joining never makes more runs. -/
theorem length_coalesce_le (rs : List Interval) : (coalesce rs).length ≤ rs.length := by
  cases rs with
  | nil => exact Nat.le_refl _
  | cons r rs => exact length_coalesceFrom_le r rs

/-- A first interval that is separate from the second one ends before everything that follows. -/
private theorem canonical_cons_cons (h : Ascending (r :: s :: rs)) :
    Canonical (r :: s :: rs) ↔ r.hi.val + 1 < s.lo.val ∧ Canonical (s :: rs) := by
  have ordered : r.lo ≤ r.hi := h.1 r List.mem_cons_self
  rw [canonical_cons, List.forall_mem_cons]
  constructor
  · exact fun ⟨_, ⟨gap, _⟩, canonical⟩ ↦ ⟨gap, canonical⟩
  · rintro ⟨gap, canonical⟩
    have later := (canonical_cons.1 canonical).2.1
    have next : s.lo ≤ s.hi := h.1 s (List.mem_cons_of_mem r List.mem_cons_self)
    rw [Integer.le_def] at next
    refine ⟨ordered, ⟨gap, fun t mem ↦ ?_⟩, canonical⟩
    have := later t mem
    omega

private theorem length_coalesceFrom_eq_iff (h : Ascending (r :: rs)) :
    (coalesceFrom r rs).length = rs.length + 1 ↔ Canonical (r :: rs) := by
  induction rs generalizing r with
  | nil =>
    have ordered : r.lo ≤ r.hi := h.1 r List.mem_cons_self
    simp [coalesceFrom, canonical_cons, canonical_nil, ordered]
  | cons next rest ih =>
    have later : Ascending (next :: rest) :=
      ⟨(List.forall_mem_cons.1 h.1).2, (List.pairwise_cons.1 h.2).2⟩
    rw [canonical_cons_cons h]
    unfold coalesceFrom
    split
    · next touching =>
      -- one run is lost here, and no later one makes up for it
      have fewer := length_coalesceFrom_le ⟨r.lo, max r.hi next.hi⟩ rest
      rw [List.length_cons]
      exact iff_of_false (by omega) (by omega)
    · next gap =>
      rw [List.length_cons, List.length_cons, Nat.add_right_cancel_iff, ih later]
      exact (and_iff_right (by omega)).symm

/-- Joining leaves the number of runs as it is exactly if there is nothing to join. -/
theorem length_coalesce_eq_iff (h : Ascending rs) :
    (coalesce rs).length = rs.length ↔ Canonical rs := by
  cases rs with
  | nil => exact iff_of_true rfl canonical_nil
  | cons r rs => exact length_coalesceFrom_eq_iff h

/-- In the order of their starts, separate intervals are runs. -/
theorem canonical_iff_separate (h : Ascending rs) :
    Canonical rs ↔ rs.Pairwise Interval.Separate := by
  constructor
  · exact fun canonical ↦ canonical.2.imp fun gap ↦ Or.inl gap
  · intro separate
    refine ⟨h.1, (h.2.and separate).imp_of_mem ?_⟩
    rintro r s - mem ⟨start, gap | gap⟩
    · exact gap
    · have ordered := h.1 s mem
      rw [Integer.le_def] at start ordered
      omega

/-- In which order intervals are listed does not matter to whether they are separate. -/
theorem pairwise_separate_merge :
    (rs.merge ss startsBy).Pairwise Interval.Separate ↔
      rs.Pairwise Interval.Separate ∧ ss.Pairwise Interval.Separate ∧
        ∀ r ∈ rs, ∀ s ∈ ss, r.Separate s := by
  rw [(List.merge_perm_append startsBy).pairwise_iff Interval.Separate.symm, List.pairwise_append]

/-- Two canonical lists have no more runs when they are joined, and as many exactly if each run of
the one is separate from each run of the other. -/
theorem length_unionRuns_eq_iff (hr : Canonical rs) (hs : Canonical ss) :
    (unionRuns rs ss).length = rs.length + ss.length ↔ ∀ r ∈ rs, ∀ s ∈ ss, r.Separate s := by
  have ascending := ascending_merge hr.ascending hs.ascending
  have left := (canonical_iff_separate hr.ascending).1 hr
  have right := (canonical_iff_separate hs.ascending).1 hs
  rw [unionRuns, ← List.length_merge startsBy, length_coalesce_eq_iff ascending,
    canonical_iff_separate ascending, pairwise_separate_merge, and_iff_right left,
    and_iff_right right]

/-- A union never has more runs than the sets together, and as many exactly if between any run of
the one and any run of the other there is a value that lies in neither. -/
theorem IntegerSet.length_runs_union (a b : IntegerSet) :
    (a.union b).runs.length ≤ a.runs.length + b.runs.length ∧
      ((a.union b).runs.length = a.runs.length + b.runs.length ↔
        ∀ x ∈ a.runs, ∀ y ∈ b.runs, x.hi.val + 1 < y.lo.val ∨ y.hi.val + 1 < x.lo.val) := by
  refine ⟨?_, length_unionRuns_eq_iff a.canonical b.canonical⟩
  rw [← List.length_merge startsBy]
  exact length_coalesce_le _

end ConstraintEval
