import ConstraintEval.Number.IntegerSet

/-!
# Set algebra

The operations on runs are stated here on plain lists, with no type that promises the canonical
form: from canonical lists every one of them gives a canonical list, and looking a value up in
the result answers what set algebra says. The only steps that could leave the range of values
are those of the difference, and the difference always answers.
-/

namespace ConstraintEval

/-- A list is canonical when its intervals are in order and each one leaves a gap before the
next. -/
theorem canonical_iff_consecutive (rs : List Interval) :
    Canonical rs ↔ (∀ r ∈ rs, r.lo ≤ r.hi) ∧
      ∀ i (h : i + 1 < rs.length), rs[i].hi.val + 1 < rs[i + 1].lo.val := by
  constructor
  · intro h
    refine ⟨h.1, ?_⟩
    intro i hi
    exact List.pairwise_iff_getElem.1 h.2 i (i + 1) (by omega) hi (by omega)
  · rintro ⟨ordered, gaps⟩
    refine ⟨ordered, ?_⟩
    -- the ends only grow, so a gap before the next interval is one before every later one
    have later : ∀ d i (h : i + 1 + d < rs.length),
        rs[i].hi.val + 1 < rs[i + 1 + d].lo.val := by
      intro d
      induction d with
      | zero => exact gaps
      | succ d ih =>
        intro i h
        have first := ih i (by omega)
        have middle := Integer.le_def.1 (ordered _ (List.getElem_mem (n := i + 1 + d) (by omega)))
        have last : rs[i + 1 + d].hi.val + 1 < rs[i + 1 + (d + 1)].lo.val := gaps _ h
        omega
    rw [List.pairwise_iff_getElem]
    intro i j hi hj hij
    have := later (j - (i + 1)) i (by omega)
    have eq : i + 1 + (j - (i + 1)) = j := by omega
    simpa only [eq] using this

/-- A canonical list in which looking a value up answers whether it has a property. -/
def Denotes (rs : List Interval) (P : Integer → Prop) : Prop :=
  Canonical rs ∧ ∀ v, holds rs v = true ↔ P v

private theorem denotes_of_covers {rs : List Interval} {P : Integer → Prop} (h : Canonical rs)
    (covers : ∀ v, Covers rs v ↔ P v) : Denotes rs P := by
  refine ⟨h, ?_⟩
  intro v
  rw [holds_iff h, covers]

/-- Every operation gives a canonical list that denotes the right set, and the difference stays
within the range of values. -/
theorem operations_denote (lo hi : Integer) (vs : List Integer) (pairs as bs : List Interval)
    (ha : Canonical as) (hb : Canonical bs) :
    Denotes (runsBetween lo hi) (fun v ↦ lo ≤ v ∧ v ≤ hi) ∧
    Denotes (runsBetween lo lo) (fun v ↦ v = lo) ∧
    Denotes (runsOfList vs) (fun v ↦ v ∈ vs) ∧
    Denotes (runsOfIntervals pairs) (fun v ↦ ∃ r ∈ pairs, r.lo ≤ v ∧ v ≤ r.hi) ∧
    Denotes (unionRuns as bs) (fun v ↦ holds as v = true ∨ holds bs v = true) ∧
    Denotes (meetRuns as bs) (fun v ↦ holds as v = true ∧ holds bs v = true) ∧
    ∃ kept, cutRuns as bs = some kept ∧
      Denotes kept (fun v ↦ holds as v = true ∧ ¬ holds bs v = true) := by
  refine ⟨?_, ?_, ?_, ?_, ?_, ?_, ?_⟩
  · exact denotes_of_covers (canonical_runsBetween lo hi) fun _ ↦ covers_runsBetween
  · apply denotes_of_covers (canonical_runsBetween lo lo)
    intro v
    rw [covers_runsBetween, Integer.ext_iff, Integer.le_def, Integer.le_def]
    omega
  · exact denotes_of_covers (canonical_runsOfList vs) fun _ ↦ covers_runsOfList
  · exact denotes_of_covers (canonical_runsOfIntervals pairs) fun _ ↦ covers_runsOfIntervals
  · apply denotes_of_covers (canonical_unionRuns ha hb)
    intro v
    rw [covers_unionRuns ha hb, holds_iff ha, holds_iff hb]
  · apply denotes_of_covers (canonical_meetRuns ha hb)
    intro v
    rw [covers_meetRuns ha hb, holds_iff ha, holds_iff hb]
  · obtain ⟨kept, hkept, canonical, -, covers⟩ := cutRuns_eq_some ha hb
    refine ⟨kept, hkept, denotes_of_covers canonical ?_⟩
    intro v
    rw [covers, holds_iff ha, holds_iff hb]

/-- Taking a set that touches both limits out of a set that touches both limits stays in
range. -/
theorem operations_denote_at_limits :
    Canonical [⟨Integer.least, Integer.zero⟩, ⟨Integer.greatest, Integer.greatest⟩] ∧
    Canonical [⟨Integer.least, Integer.least⟩, ⟨Integer.one, Integer.greatest⟩] ∧
    ∃ kept,
      cutRuns [⟨Integer.least, Integer.zero⟩, ⟨Integer.greatest, Integer.greatest⟩]
        [⟨Integer.least, Integer.least⟩, ⟨Integer.one, Integer.greatest⟩] = some kept ∧
      Canonical kept := by
  have ha : Canonical [⟨Integer.least, Integer.zero⟩, ⟨Integer.greatest, Integer.greatest⟩] := by
    decide
  have hb : Canonical [⟨Integer.least, Integer.least⟩, ⟨Integer.one, Integer.greatest⟩] := by
    decide
  obtain ⟨kept, hkept, canonical, -⟩ :=
    (operations_denote Integer.zero Integer.one [] [] _ _ ha hb).2.2.2.2.2.2
  exact ⟨ha, hb, kept, hkept, canonical⟩

end ConstraintEval
