import ConstraintEval.Number.Interval

/-!
# Runs of consecutive values

A set of integers is held as its maximal runs of consecutive members: intervals in increasing
order, none empty, with at least one missing value between neighbours (`Canonical`). The
operations of this module walk such lists once. Each gets two lemmas: its result is canonical,
and it covers exactly the values that it should.
-/

namespace ConstraintEval

/-- Increasing, non-empty intervals with a gap between each two. -/
def Canonical (rs : List Interval) : Prop :=
  (∀ r ∈ rs, r.lo ≤ r.hi) ∧ rs.Pairwise fun r s ↦ r.hi.val + 1 < s.lo.val

instance (rs : List Interval) : Decidable (Canonical rs) :=
  inferInstanceAs (Decidable (_ ∧ _))

/-- Some interval of the list holds the value. -/
def Covers (rs : List Interval) (v : Integer) : Prop := ∃ r ∈ rs, v ∈ r

theorem canonical_nil : Canonical [] := by simp [Canonical]

theorem canonical_cons {r : Interval} {rs : List Interval} :
    Canonical (r :: rs) ↔
      r.lo ≤ r.hi ∧ (∀ s ∈ rs, r.hi.val + 1 < s.lo.val) ∧ Canonical rs := by
  simp only [Canonical, List.forall_mem_cons, List.pairwise_cons]
  exact ⟨fun ⟨⟨a, b⟩, c, d⟩ ↦ ⟨a, c, b, d⟩, fun ⟨a, c, b, d⟩ ↦ ⟨⟨a, b⟩, c, d⟩⟩

@[simp] theorem covers_nil (v : Integer) : ¬ Covers [] v := by simp [Covers]

@[simp] theorem covers_cons {r : Interval} {rs : List Interval} {v : Integer} :
    Covers (r :: rs) v ↔ v ∈ r ∨ Covers rs v := by simp [Covers]

/-- Interval lists cover the members of their parts. -/
@[simp] theorem covers_append {rs ss : List Interval} {v : Integer} :
    Covers (rs ++ ss) v ↔ Covers rs v ∨ Covers ss v := by
  simp only [Covers, List.mem_append, or_and_right, exists_or]

/-- Lists with a gap between them form one canonical list. -/
theorem canonical_append {rs ss : List Interval} (hr : Canonical rs) (hs : Canonical ss)
    (gap : ∀ r ∈ rs, ∀ s ∈ ss, r.hi.val + 1 < s.lo.val) : Canonical (rs ++ ss) := by
  constructor
  · intro r hmem
    rcases List.mem_append.1 hmem with h | h
    · exact hr.1 r h
    · exact hs.1 r h
  · exact List.pairwise_append.2 ⟨hr.2, hs.2, gap⟩

/-! ### Joining runs -/

/-- Let a run grow over the runs that follow it as long as they overlap or touch it. The sum
is exact, so a run that ends at the greatest value is handled like any other. -/
def coalesceFrom (current : Interval) : List Interval → List Interval
  | [] => [current]
  | next :: rest =>
    if next.lo.val ≤ current.hi.val + 1 then
      coalesceFrom ⟨current.lo, max current.hi next.hi⟩ rest
    else current :: coalesceFrom next rest

/-- Join the intervals of a list that overlap or touch, given in the order of their starts. -/
def coalesce : List Interval → List Interval
  | [] => []
  | r :: rs => coalesceFrom r rs

/-- Intervals in the order of their starts, none empty. -/
def Ascending (rs : List Interval) : Prop :=
  (∀ r ∈ rs, r.lo ≤ r.hi) ∧ rs.Pairwise fun r s ↦ r.lo ≤ s.lo

private theorem lt_lo_of_mem_coalesceFrom {k : Int} {r : Interval} {rs : List Interval}
    (hr : k < r.lo.val) (hrs : ∀ s ∈ rs, k < s.lo.val) :
    ∀ s ∈ coalesceFrom r rs, k < s.lo.val := by
  induction rs generalizing r with
  | nil => simpa [coalesceFrom] using hr
  | cons t rest ih =>
    obtain ⟨ht, hrest⟩ := List.forall_mem_cons.1 hrs
    unfold coalesceFrom
    split
    · exact ih hr hrest
    · exact List.forall_mem_cons.2 ⟨hr, ih ht hrest⟩

private theorem canonical_coalesceFrom {r : Interval} {rs : List Interval}
    (h : Ascending (r :: rs)) : Canonical (coalesceFrom r rs) := by
  induction rs generalizing r with
  | nil => simpa [coalesceFrom, canonical_cons, canonical_nil] using h.1
  | cons t rest ih =>
    obtain ⟨hr, ht, hrest⟩ := by simpa only [List.forall_mem_cons] using h.1
    obtain ⟨hfirst, htrest, hlater⟩ := by simpa only [List.pairwise_cons] using h.2
    rw [Integer.le_def] at hr
    unfold coalesceFrom
    split
    · apply ih
      refine ⟨List.forall_mem_cons.2 ⟨?_, hrest⟩, List.pairwise_cons.2 ⟨?_, hlater⟩⟩
      · simp only [Integer.le_def, Integer.val_max]
        omega
      · intro s hs
        exact hfirst s (List.mem_cons_of_mem t hs)
    · next hgap =>
      rw [canonical_cons]
      refine ⟨hr, ?_, ih ⟨List.forall_mem_cons.2 ⟨ht, hrest⟩,
        List.pairwise_cons.2 ⟨htrest, hlater⟩⟩⟩
      apply lt_lo_of_mem_coalesceFrom
      · omega
      · intro s hs
        have := Integer.le_def.1 (htrest s hs)
        omega

private theorem covers_coalesceFrom {r : Interval} {rs : List Interval}
    (h : Ascending (r :: rs)) (v : Integer) :
    Covers (coalesceFrom r rs) v ↔ v ∈ r ∨ Covers rs v := by
  induction rs generalizing r with
  | nil => simp [coalesceFrom]
  | cons t rest ih =>
    obtain ⟨hr, ht, hrest⟩ := by simpa only [List.forall_mem_cons] using h.1
    obtain ⟨hfirst, htrest, hlater⟩ := by simpa only [List.pairwise_cons] using h.2
    have hrt := Integer.le_def.1 (hfirst t (List.mem_cons_self ..))
    rw [Integer.le_def] at hr ht
    unfold coalesceFrom
    split
    · have grown : v ∈ (⟨r.lo, max r.hi t.hi⟩ : Interval) ↔ v ∈ r ∨ v ∈ t := by
        simp only [Interval.mem_def, Integer.val_max]
        omega
      rw [ih, grown, covers_cons, or_assoc]
      refine ⟨List.forall_mem_cons.2 ⟨?_, hrest⟩, List.pairwise_cons.2 ⟨?_, hlater⟩⟩
      · simp only [Integer.le_def, Integer.val_max]
        omega
      · intro s hs
        exact hfirst s (List.mem_cons_of_mem t hs)
    · rw [covers_cons, covers_cons, ih ⟨List.forall_mem_cons.2 ⟨ht, hrest⟩,
        List.pairwise_cons.2 ⟨htrest, hlater⟩⟩]

/-- Joining brings intervals into canonical form. -/
theorem canonical_coalesce {rs : List Interval} (h : Ascending rs) : Canonical (coalesce rs) := by
  cases rs with
  | nil => exact canonical_nil
  | cons r rs => exact canonical_coalesceFrom h

/-- Joining intervals neither adds nor loses a value. -/
theorem covers_coalesce {rs : List Interval} (h : Ascending rs) (v : Integer) :
    Covers (coalesce rs) v ↔ Covers rs v := by
  cases rs with
  | nil => rfl
  | cons r rs => rw [coalesce, covers_coalesceFrom h, covers_cons]

/-- A canonical list is in order. -/
theorem Canonical.ascending {rs : List Interval} (h : Canonical rs) : Ascending rs := by
  refine ⟨h.1, List.Pairwise.imp_of_mem ?_ h.2⟩
  intro r s hr _ hgap
  have := Integer.le_def.1 (h.1 r hr)
  rw [Integer.le_def]
  omega

/-! ### Runs of given intervals -/

/-- Whether one interval starts no later than another. -/
def startsBy (r s : Interval) : Bool := r.lo ≤ s.lo

private theorem startsBy_total (r s : Interval) : (startsBy r s || startsBy s r) = true := by
  simp only [startsBy, Bool.or_eq_true, decide_eq_true_eq, Integer.le_def]
  omega

private theorem startsBy_trans (r s t : Interval) (h : startsBy r s = true)
    (h' : startsBy s t = true) : startsBy r t = true := by
  simp only [startsBy, decide_eq_true_eq, Integer.le_def] at h h' ⊢
  omega

/-- The runs from `lo` to `hi`: one, or none if `hi < lo`. -/
def runsBetween (lo hi : Integer) : List Interval := if lo ≤ hi then [⟨lo, hi⟩] else []

/-- The runs of the members of some intervals. -/
def runsOfIntervals (rs : List Interval) : List Interval :=
  coalesce ((rs.filter fun r ↦ r.lo ≤ r.hi).mergeSort startsBy)

/-- The runs of some values. -/
def runsOfList (vs : List Integer) : List Interval :=
  coalesce ((vs.mergeSort fun v w ↦ decide (v ≤ w)).map Interval.point)

theorem canonical_runsBetween (lo hi : Integer) : Canonical (runsBetween lo hi) := by
  unfold runsBetween
  split
  · next h => exact canonical_cons.2 ⟨h, by simp, canonical_nil⟩
  · exact canonical_nil

theorem covers_runsBetween {lo hi v : Integer} :
    Covers (runsBetween lo hi) v ↔ lo ≤ v ∧ v ≤ hi := by
  unfold runsBetween
  split
  · simp only [covers_cons, covers_nil, or_false]
    exact Iff.rfl
  · next h =>
    simp only [covers_nil, false_iff, Integer.le_def] at h ⊢
    omega

private theorem ascending_sorted {rs : List Interval} (h : ∀ r ∈ rs, r.lo ≤ r.hi) :
    Ascending (rs.mergeSort startsBy) := by
  constructor
  · intro r hr
    exact h r (List.mem_mergeSort.1 hr)
  · refine (List.pairwise_mergeSort startsBy_trans startsBy_total rs).imp ?_
    intro r s hrs
    simpa [startsBy] using hrs

private theorem ascending_filtered (rs : List Interval) :
    Ascending ((rs.filter fun r ↦ r.lo ≤ r.hi).mergeSort startsBy) := by
  apply ascending_sorted
  intro r hr
  simpa using (List.mem_filter.1 hr).2

private theorem ascending_points (vs : List Integer) :
    Ascending ((vs.mergeSort fun v w ↦ decide (v ≤ w)).map Interval.point) := by
  constructor
  · simp [Interval.point, Integer.le_def]
  · rw [List.pairwise_map]
    refine (List.pairwise_mergeSort ?_ ?_ vs).imp ?_
    · intro a b c hab hbc
      simp only [decide_eq_true_eq, Integer.le_def] at hab hbc ⊢
      omega
    · intro a b
      simp only [Bool.or_eq_true, decide_eq_true_eq, Integer.le_def]
      omega
    · intro v w hvw
      simpa [Interval.point] using hvw

theorem canonical_runsOfIntervals (rs : List Interval) : Canonical (runsOfIntervals rs) :=
  canonical_coalesce (ascending_filtered rs)

theorem covers_runsOfIntervals {rs : List Interval} {v : Integer} :
    Covers (runsOfIntervals rs) v ↔ Covers rs v := by
  rw [runsOfIntervals, covers_coalesce (ascending_filtered rs)]
  simp only [Covers, List.mem_mergeSort, List.mem_filter, decide_eq_true_eq]
  constructor
  · rintro ⟨r, ⟨hr, _⟩, hv⟩
    exact ⟨r, hr, hv⟩
  · rintro ⟨r, hr, hv⟩
    refine ⟨r, ⟨hr, ?_⟩, hv⟩
    rw [Interval.mem_def] at hv
    rw [Integer.le_def]
    omega

theorem canonical_runsOfList (vs : List Integer) : Canonical (runsOfList vs) :=
  canonical_coalesce (ascending_points vs)

theorem covers_runsOfList {vs : List Integer} {v : Integer} :
    Covers (runsOfList vs) v ↔ v ∈ vs := by
  rw [runsOfList, covers_coalesce (ascending_points vs)]
  simp only [Covers, List.mem_map, List.mem_mergeSort]
  constructor
  · rintro ⟨_, ⟨w, hw, rfl⟩, hv⟩
    exact Interval.mem_point.1 hv ▸ hw
  · intro hv
    exact ⟨_, ⟨v, hv, rfl⟩, Interval.mem_point.2 rfl⟩

/-! ### Values of either list -/

/-- The runs of the values of either list. -/
def unionRuns (rs ss : List Interval) : List Interval := coalesce (rs.merge ss startsBy)

theorem ascending_merge {rs ss : List Interval} (hr : Ascending rs) (hs : Ascending ss) :
    Ascending (rs.merge ss startsBy) := by
  have before : ∀ {ts}, Ascending ts → ts.Pairwise fun r s ↦ startsBy r s = true := by
    intro ts h
    refine h.2.imp ?_
    intro r s hrs
    simpa [startsBy] using hrs
  constructor
  · intro t ht
    rcases List.mem_merge.1 ht with h | h
    · exact hr.1 t h
    · exact hs.1 t h
  · refine (List.pairwise_merge startsBy_trans startsBy_total rs ss (before hr) (before hs)).imp ?_
    intro r s hrs
    simpa [startsBy] using hrs

theorem canonical_unionRuns {rs ss : List Interval} (hr : Canonical rs) (hs : Canonical ss) :
    Canonical (unionRuns rs ss) :=
  canonical_coalesce (ascending_merge hr.ascending hs.ascending)

theorem covers_unionRuns {rs ss : List Interval} (hr : Canonical rs) (hs : Canonical ss)
    {v : Integer} : Covers (unionRuns rs ss) v ↔ Covers rs v ∨ Covers ss v := by
  rw [unionRuns, covers_coalesce (ascending_merge hr.ascending hs.ascending)]
  simp only [Covers, List.mem_merge, or_and_right, exists_or]

/-! ### Values of both lists -/

/-- The common parts of the runs of two lists. The run that ends first is left behind. -/
def meetParts : List Interval → List Interval → List Interval
  | [], _ => []
  | _ :: _, [] => []
  | r :: rs, s :: ss =>
    (r.inter? s).toList ++
      if r.hi < s.hi then meetParts rs (s :: ss) else meetParts (r :: rs) ss
termination_by rs ss => rs.length + ss.length

/-- The runs of the values of both lists. -/
def meetRuns (rs ss : List Interval) : List Interval := coalesce (meetParts rs ss)

/-- A list below which a value lies does not cover it. -/
theorem not_covers_of_lt {rs : List Interval} {v : Integer} (h : ∀ r ∈ rs, v.val < r.lo.val) :
    ¬ Covers rs v := by
  rintro ⟨r, hr, hv⟩
  have := h r hr
  rw [Interval.mem_def] at hv
  omega

private theorem covers_inter? {r s : Interval} {v : Integer} :
    Covers (r.inter? s).toList v ↔ v ∈ r ∧ v ∈ s := by
  rw [← Interval.mem_inter?]
  simp only [Covers, Option.mem_toList]

private theorem covers_meetParts {rs ss : List Interval} (hr : Canonical rs) (hs : Canonical ss)
    {v : Integer} : Covers (meetParts rs ss) v ↔ Covers rs v ∧ Covers ss v := by
  fun_induction meetParts rs ss with
  | case1 => simp
  | case2 => simp
  | case3 r rs s ss ihr ihs =>
    obtain ⟨-, hgapr, hrs⟩ := canonical_cons.1 hr
    obtain ⟨-, hgaps, hss⟩ := canonical_cons.1 hs
    rw [covers_append, covers_inter?]
    split
    · next hlt =>
      rw [Integer.lt_def] at hlt
      -- the run left behind ends below everything after the other one
      have apart : v ∈ r → ¬ Covers ss v := by
        intro hv
        apply not_covers_of_lt
        intro t ht
        have := hgaps t ht
        rw [Interval.mem_def] at hv
        omega
      rw [ihr hrs hs, covers_cons, covers_cons]
      grind
    · next hlt =>
      rw [Integer.lt_def] at hlt
      have apart : v ∈ s → ¬ Covers rs v := by
        intro hv
        apply not_covers_of_lt
        intro t ht
        have := hgapr t ht
        rw [Interval.mem_def] at hv
        omega
      rw [ihs hr hss, covers_cons, covers_cons]
      grind

/-- Every common part lies in a run of each list. -/
private theorem within_of_mem_meetParts {rs ss : List Interval} {t : Interval}
    (ht : t ∈ meetParts rs ss) :
    t.lo ≤ t.hi ∧ (∃ r ∈ rs, r.lo ≤ t.lo ∧ t.hi ≤ r.hi) ∧ ∃ s ∈ ss, s.lo ≤ t.lo ∧ t.hi ≤ s.hi := by
  fun_induction meetParts rs ss with
  | case1 => simp at ht
  | case2 => simp at ht
  | case3 r rs s ss ihr ihs =>
    simp only [List.mem_append, Option.mem_toList] at ht
    rcases ht with ht | ht
    · have := Interval.ends_of_inter?_eq_some ht
      simp only [Integer.le_def]
      refine ⟨by omega, ⟨r, List.mem_cons_self .., ?_⟩, s, List.mem_cons_self .., ?_⟩
      · omega
      · omega
    · split at ht
      · obtain ⟨hle, ⟨r', hr', hin⟩, inS⟩ := ihr ht
        exact ⟨hle, ⟨r', List.mem_cons_of_mem r hr', hin⟩, inS⟩
      · obtain ⟨hle, inR, s', hs', hin⟩ := ihs ht
        exact ⟨hle, inR, s', List.mem_cons_of_mem s hs', hin⟩

private theorem ascending_meetParts {rs ss : List Interval} (hr : Canonical rs)
    (hs : Canonical ss) : Ascending (meetParts rs ss) := by
  refine ⟨fun t ht ↦ (within_of_mem_meetParts ht).1, ?_⟩
  fun_induction meetParts rs ss with
  | case1 => exact List.Pairwise.nil
  | case2 => exact List.Pairwise.nil
  | case3 r rs s ss ihr ihs =>
    obtain ⟨-, hgapr, hrs⟩ := canonical_cons.1 hr
    obtain ⟨-, hgaps, hss⟩ := canonical_cons.1 hs
    rw [List.pairwise_append]
    refine ⟨?_, ?_, ?_⟩
    · cases r.inter? s <;> simp
    · split
      · exact ihr hrs hs
      · exact ihs hr hss
    · intro t ht t' ht'
      have ends := Interval.ends_of_inter?_eq_some (Option.mem_toList.1 ht)
      rw [Integer.le_def]
      split at ht'
      · obtain ⟨-, ⟨r', hr', hin, -⟩, -⟩ := within_of_mem_meetParts ht'
        have := hgapr r' hr'
        rw [Integer.le_def] at hin
        omega
      · obtain ⟨-, -, s', hs', hin, -⟩ := within_of_mem_meetParts ht'
        have := hgaps s' hs'
        rw [Integer.le_def] at hin
        omega

theorem canonical_meetRuns {rs ss : List Interval} (hr : Canonical rs) (hs : Canonical ss) :
    Canonical (meetRuns rs ss) :=
  canonical_coalesce (ascending_meetParts hr hs)

theorem covers_meetRuns {rs ss : List Interval} (hr : Canonical rs) (hs : Canonical ss)
    {v : Integer} : Covers (meetRuns rs ss) v ↔ Covers rs v ∧ Covers ss v := by
  rw [meetRuns, covers_coalesce (ascending_meetParts hr hs), covers_meetParts hr hs]

/-! ### Values of one list that are not in another -/

/-- The part of a run from a start on. There is no start past the greatest value. -/
def restOf (r : Interval) : Option Integer → List Interval
  | some start => if start ≤ r.hi then [⟨start, r.hi⟩] else []
  | none => []

/-- The values from a start up to the value before a cut. The answer is `none` where the step
below the cut leaves the range of values. -/
def before? (start : Integer) (cut : Interval) : Option (List Interval) :=
  if start < cut.lo then cut.lo.pred?.map fun last ↦ [⟨start, last⟩] else some []

/-- Take the cuts of a list out of a run, from a start on. The answer is what is left of the
run and the cuts that can still reach a later run. -/
def cutRun (r : Interval) :
    Option Integer → List Interval → Option (List Interval × List Interval)
  | none, cuts => some ([], cuts)
  | some start, [] => some (restOf r (some start), [])
  | some start, cut :: cuts =>
    if cut.hi < start then cutRun r (some start) cuts
    else if r.hi < cut.lo then some (restOf r (some start), cut :: cuts)
    else do
      let before ← before? start cut
      if r.hi < cut.hi then return (before ++ restOf r cut.hi.succ?, cut :: cuts)
      let (kept, left) ← cutRun r cut.hi.succ? cuts
      return (before ++ kept, left)

/-- Take the cuts of a list out of each run of another. -/
def cutRuns : List Interval → List Interval → Option (List Interval)
  | [], _ => some []
  | r :: rs, cuts => do
    let (kept, left) ← cutRun r (some r.lo) cuts
    let rest ← cutRuns rs left
    return kept ++ rest

/-- The exact integer at which a start stands: just past the greatest value where it is
missing. -/
private def startVal : Option Integer → Int
  | some start => start.val
  | none => 9223372036854775808

private theorem startVal_succ? (a : Integer) : startVal a.succ? = a.val + 1 := by
  have top := a.le_greatest
  have bottom := a.least_le
  cases h : a.succ? with
  | none =>
    have := Integer.ofInt?_eq_none_iff.1 h
    simp only [startVal]
    omega
  | some n => exact Integer.succ?_eq_some_iff.1 h

private theorem mem_restOf {r t : Interval} {start : Option Integer} (h : t ∈ restOf r start) :
    t.lo.val = startVal start ∧ t.hi = r.hi ∧ t.lo ≤ t.hi := by
  cases start with
  | none => simp [restOf] at h
  | some start =>
    simp only [restOf] at h
    split at h
    · next hle =>
      obtain rfl := List.mem_singleton.1 h
      exact ⟨rfl, rfl, hle⟩
    · simp at h

private theorem canonical_restOf (r : Interval) (start : Option Integer) :
    Canonical (restOf r start) := by
  refine ⟨fun t ht ↦ (mem_restOf ht).2.2, ?_⟩
  cases start with
  | none => exact List.Pairwise.nil
  | some start =>
    simp only [restOf]
    split
    · exact List.pairwise_singleton ..
    · exact List.Pairwise.nil

private theorem covers_restOf {r : Interval} {start : Option Integer} {v : Integer} :
    Covers (restOf r start) v ↔ startVal start ≤ v.val ∧ v.val ≤ r.hi.val := by
  have top := v.le_greatest
  cases start with
  | none =>
    simp only [restOf, covers_nil, startVal, false_iff]
    omega
  | some start =>
    simp only [restOf, startVal]
    split
    · simp only [covers_cons, covers_nil, or_false]
      exact Iff.rfl
    · next h =>
      rw [Integer.le_def] at h
      simp only [covers_nil, false_iff]
      omega

/-- The step below a cut is in range wherever it is made. -/
private theorem before?_eq_some (start : Integer) (cut : Interval) :
    ∃ before, before? start cut = some before ∧ Canonical before ∧
      (∀ t ∈ before, start.val ≤ t.lo.val ∧ t.hi.val + 1 = cut.lo.val) ∧
      ∀ v, Covers before v ↔ start.val ≤ v.val ∧ v.val < cut.lo.val := by
  unfold before?
  split
  · next h =>
    rw [Integer.lt_def] at h
    have bottom := start.least_le
    cases hp : cut.lo.pred? with
    | none =>
      have := Integer.ofInt?_eq_none_iff.1 hp
      have := cut.lo.le_greatest
      omega
    | some last =>
      have hlast := Integer.pred?_eq_some_iff.1 hp
      refine ⟨[⟨start, last⟩], rfl, ?_, ?_, ?_⟩
      · refine canonical_cons.2 ⟨?_, by simp, canonical_nil⟩
        change start.val ≤ last.val
        omega
      · intro t ht
        obtain rfl := List.mem_singleton.1 ht
        simp only
        omega
      · intro v
        simp only [covers_cons, covers_nil, or_false, Interval.mem_def]
        omega
  · next h =>
    rw [Integer.lt_def] at h
    refine ⟨[], rfl, canonical_nil, by simp, ?_⟩
    intro v
    simp only [covers_nil, false_iff]
    omega

/-- What a cut run must be: canonical, within the run, holding the values from the start on
that no cut holds; and the cuts left over are the last ones and say the same about values past
the run. -/
private structure Cut (r : Interval) (start : Int) (cuts kept left : List Interval) :
    Prop where
  canonical : Canonical kept
  within : ∀ t ∈ kept, start ≤ t.lo.val ∧ t.hi.val ≤ r.hi.val
  covers : ∀ v, Covers kept v ↔ start ≤ v.val ∧ v.val ≤ r.hi.val ∧ ¬ Covers cuts v
  last : left <:+ cuts
  beyond : ∀ v : Integer, r.hi.val < v.val → (Covers left v ↔ Covers cuts v)

private theorem Canonical.of_suffix {rs ss : List Interval} (h : Canonical ss) (hs : rs <:+ ss) :
    Canonical rs :=
  ⟨fun r hr ↦ h.1 r (hs.subset hr), h.2.sublist hs.sublist⟩

/-- A run that no cut meets from the start on is kept whole. -/
private theorem Cut.uncut {r : Interval} {start : Option Integer} {cuts : List Interval}
    (apart : ∀ v : Integer, startVal start ≤ v.val → v.val ≤ r.hi.val → ¬ Covers cuts v) :
    Cut r (startVal start) cuts (restOf r start) cuts where
  canonical := canonical_restOf r start
  within := by
    intro t ht
    obtain ⟨hlo, hhi, -⟩ := mem_restOf ht
    rw [hlo, hhi]
    omega
  covers := by
    intro v
    rw [covers_restOf]
    constructor
    · intro ⟨hlo, hhi⟩
      exact ⟨hlo, hhi, apart v hlo hhi⟩
    · intro ⟨hlo, hhi, _⟩
      exact ⟨hlo, hhi⟩
  last := List.suffix_refl cuts
  beyond _ _ := Iff.rfl

/-- A cut that ends before the start takes nothing out. -/
private theorem Cut.skip {r cut : Interval} {start : Int} {cuts kept left : List Interval}
    (hlt : cut.hi.val < start) (hstart : start ≤ r.hi.val + 1) (h : Cut r start cuts kept left) :
    Cut r start (cut :: cuts) kept left where
  canonical := h.canonical
  within := h.within
  covers := by
    intro v
    rw [h.covers, covers_cons, Interval.mem_def]
    grind
  last := h.last.trans (List.suffix_cons ..)
  beyond := by
    intro v hv
    rw [h.beyond v hv, covers_cons, Interval.mem_def]
    grind

private theorem not_covers_of_gap {r : Interval} {rs : List Interval} {v : Integer}
    (hgap : ∀ s ∈ rs, r.hi.val + 1 < s.lo.val) (hv : v.val ≤ r.hi.val) : ¬ Covers rs v := by
  apply not_covers_of_lt
  intro s hs
  have := hgap s hs
  omega

/-- A cut that ends past the run leaves what comes before it, and stays for later runs. -/
private theorem Cut.reach {r cut : Interval} {start : Int} {cuts before : List Interval}
    (hgap : ∀ s ∈ cuts, cut.hi.val + 1 < s.lo.val) (hbegin : cut.lo.val ≤ r.hi.val)
    (hend : r.hi.val < cut.hi.val) (canonical : Canonical before)
    (within : ∀ t ∈ before, start ≤ t.lo.val ∧ t.hi.val + 1 = cut.lo.val)
    (covers : ∀ v, Covers before v ↔ start ≤ v.val ∧ v.val < cut.lo.val) :
    Cut r start (cut :: cuts) before (cut :: cuts) where
  canonical := canonical
  within := by
    intro t ht
    have := within t ht
    omega
  covers := by
    intro v
    have later : v.val ≤ cut.hi.val → ¬ Covers cuts v := not_covers_of_gap hgap
    rw [covers, covers_cons, Interval.mem_def]
    grind
  last := List.suffix_refl _
  beyond _ _ := Iff.rfl

/-- A cut that ends within the run leaves what comes before it and what later cuts leave. -/
private theorem Cut.through {r cut : Interval} {start : Int} {cuts before kept left : List Interval}
    (hgap : ∀ s ∈ cuts, cut.hi.val + 1 < s.lo.val) (hcut : cut.lo.val ≤ cut.hi.val)
    (hskip : start ≤ cut.hi.val) (hend : cut.hi.val ≤ r.hi.val) (canonical : Canonical before)
    (within : ∀ t ∈ before, start ≤ t.lo.val ∧ t.hi.val + 1 = cut.lo.val)
    (covers : ∀ v, Covers before v ↔ start ≤ v.val ∧ v.val < cut.lo.val)
    (h : Cut r (cut.hi.val + 1) cuts kept left) :
    Cut r start (cut :: cuts) (before ++ kept) left where
  canonical := by
    apply canonical_append canonical h.canonical
    intro t ht t' ht'
    have := within t ht
    have := h.within t' ht'
    omega
  within := by
    intro t ht
    rcases List.mem_append.1 ht with ht | ht
    · have := within t ht
      omega
    · have := h.within t ht
      omega
  covers := by
    intro v
    have later : v.val ≤ cut.hi.val → ¬ Covers cuts v := not_covers_of_gap hgap
    rw [covers_append, covers, h.covers, covers_cons, Interval.mem_def]
    grind
  last := h.last.trans (List.suffix_cons ..)
  beyond := by
    intro v hv
    rw [h.beyond v hv, covers_cons, Interval.mem_def]
    grind

private theorem restOf_eq_nil {r : Interval} {start : Option Integer}
    (h : r.hi.val < startVal start) : restOf r start = [] := by
  apply List.eq_nil_iff_forall_not_mem.2
  intro t ht
  obtain ⟨hlo, hhi, hle⟩ := mem_restOf ht
  rw [Integer.le_def, hhi] at hle
  omega

/-- Cutting a run always answers: each step below or above a cut is in range where it is
needed. -/
private theorem cutRun_eq_some (r : Interval) (start : Option Integer) {cuts : List Interval}
    (hc : Canonical cuts) (hstart : startVal start ≤ r.hi.val + 1) :
    ∃ kept left, cutRun r start cuts = some (kept, left) ∧
      Cut r (startVal start) cuts kept left := by
  induction cuts generalizing start with
  | nil =>
    have uncut : Cut r (startVal start) [] (restOf r start) [] := Cut.uncut (by simp)
    cases start with
    | none => exact ⟨_, _, rfl, uncut⟩
    | some start => exact ⟨_, _, rfl, uncut⟩
  | cons cut cuts ih =>
    cases start with
    | none =>
      refine ⟨_, _, rfl, Cut.uncut ?_⟩
      intro v hv
      have := v.le_greatest
      simp only [startVal] at hv
      omega
    | some start =>
      obtain ⟨hcut, hgap, hcuts⟩ := canonical_cons.1 hc
      rw [Integer.le_def] at hcut
      simp only [cutRun]
      split
      · next hlt =>
        obtain ⟨kept, left, hrun, h⟩ := ih (some start) hcuts hstart
        exact ⟨kept, left, hrun, h.skip hlt hstart⟩
      split
      · next hlt =>
        rw [Integer.lt_def] at hlt
        refine ⟨_, _, rfl, Cut.uncut ?_⟩
        intro v _ hv
        apply not_covers_of_lt
        intro t ht
        rcases List.mem_cons.1 ht with rfl | ht
        · omega
        · have := hgap t ht
          omega
      · next hskip hbegin =>
        rw [Integer.lt_def] at hskip hbegin
        obtain ⟨before, hbefore, canonical, within, covers⟩ := before?_eq_some start cut
        simp only [hbefore, Option.bind_eq_bind, Option.bind_some]
        split
        · next hend =>
          rw [Integer.lt_def] at hend
          have past : r.hi.val < startVal cut.hi.succ? := by
            rw [startVal_succ?]
            omega
          rw [restOf_eq_nil past, List.append_nil]
          exact ⟨_, _, rfl, Cut.reach hgap (by omega) hend canonical within covers⟩
        · next hend =>
          rw [Integer.lt_def] at hend
          have next : startVal cut.hi.succ? ≤ r.hi.val + 1 := by
            rw [startVal_succ?]
            omega
          obtain ⟨kept, left, hrun, h⟩ := ih cut.hi.succ? hcuts next
          rw [startVal_succ?] at h
          refine ⟨before ++ kept, left, by simp [hrun], ?_⟩
          exact Cut.through hgap hcut (by simp only [startVal]; omega) (by omega) canonical within
            covers h

/-- Taking cuts out of runs always answers, and leaves the values that no cut holds. -/
theorem cutRuns_eq_some {rs cuts : List Interval} (hr : Canonical rs) (hc : Canonical cuts) :
    ∃ kept, cutRuns rs cuts = some kept ∧ Canonical kept ∧
      (∀ t ∈ kept, ∃ r ∈ rs, r.lo ≤ t.lo) ∧
      ∀ v, Covers kept v ↔ Covers rs v ∧ ¬ Covers cuts v := by
  induction rs generalizing cuts with
  | nil => exact ⟨[], rfl, canonical_nil, by simp, by simp⟩
  | cons r rs ih =>
    obtain ⟨hlohi, hgap, hrs⟩ := canonical_cons.1 hr
    rw [Integer.le_def] at hlohi
    obtain ⟨kept, left, hrun, h⟩ := cutRun_eq_some r (some r.lo) hc (by simp only [startVal]; omega)
    simp only [startVal] at h
    obtain ⟨rest, hrest, canonicalRest, startRest, coversRest⟩ := ih hrs (hc.of_suffix h.last)
    have apart : ∀ t ∈ kept, ∀ t' ∈ rest, t.hi.val + 1 < t'.lo.val := by
      intro t ht t' ht'
      obtain ⟨s, hs, hle⟩ := startRest t' ht'
      have := hgap s hs
      have := h.within t ht
      rw [Integer.le_def] at hle
      omega
    refine ⟨kept ++ rest, by simp [cutRuns, hrun, hrest],
      canonical_append h.canonical canonicalRest apart, ?_, ?_⟩
    · intro t ht
      rcases List.mem_append.1 ht with ht | ht
      · exact ⟨r, List.mem_cons_self .., (h.within t ht).1⟩
      · obtain ⟨s, hs, hle⟩ := startRest t ht
        exact ⟨s, List.mem_cons_of_mem r hs, hle⟩
    · intro v
      have past : Covers rs v → r.hi.val < v.val := by
        rintro ⟨s, hs, hv⟩
        have := hgap s hs
        rw [Interval.mem_def] at hv
        omega
      have beyond := h.beyond v
      rw [covers_append, h.covers, coversRest, covers_cons, Interval.mem_def]
      grind

/-! ### Looking up a value -/

/-- The number of runs that pass a test, by halving the range from `low` to `high`. The test
must hold of no run after one that fails it. -/
def partitionPoint (p : Interval → Bool) (rs : List Interval) (low high : Nat) : Nat :=
  if low < high then
    let middle := (low + high) / 2
    if rs[middle]?.any p then partitionPoint p rs (middle + 1) high
    else partitionPoint p rs low middle
  else low
termination_by high - low

/-- Whether a run holds a value: only the first run that does not end below it can. -/
def holds (rs : List Interval) (v : Integer) : Bool :=
  rs[partitionPoint (fun r ↦ r.hi < v) rs 0 rs.length]?.any fun r ↦ r.lo ≤ v

/-- What halving keeps: every run before the range passes the test and every run after it
fails. -/
private structure Halved (p : Interval → Bool) (rs : List Interval) (low high : Nat) : Prop where
  le : low ≤ high
  bound : high ≤ rs.length
  before : ∀ i (h : i < rs.length), i < low → p rs[i] = true
  after : ∀ i (h : i < rs.length), high ≤ i → p rs[i] = false

private theorem partitionPoint_spec {p : Interval → Bool} {rs : List Interval} {low high : Nat}
    (hp : rs.Pairwise fun r s ↦ p s = true → p r = true) (h : Halved p rs low high)
    (i : Nat) (hi : i < rs.length) : p rs[i] = true ↔ i < partitionPoint p rs low high := by
  rw [List.pairwise_iff_getElem] at hp
  fun_induction partitionPoint p rs low high with
  | case1 low high hlt middle hmiddle ih =>
    have hlen : middle < rs.length := by
      have := h.bound
      omega
    rw [List.getElem?_eq_getElem hlen, Option.any_some] at hmiddle
    refine ih ⟨by omega, h.bound, ?_, h.after⟩
    intro j hj hjm
    rcases Nat.lt_or_eq_of_le (Nat.le_of_lt_succ hjm) with hjm | rfl
    · exact hp j middle hj hlen hjm hmiddle
    · exact hmiddle
  | case2 low high hlt middle hmiddle ih =>
    have hlen : middle < rs.length := by
      have := h.bound
      omega
    rw [List.getElem?_eq_getElem hlen, Option.any_some, Bool.not_eq_true] at hmiddle
    refine ih ⟨by omega, by omega, h.before, ?_⟩
    intro j hj hmj
    rcases Nat.lt_or_eq_of_le hmj with hmj | rfl
    · cases hpj : p rs[j] with
      | false => rfl
      | true =>
        have := hp middle j hlen hj hmj hpj
        rw [hmiddle] at this
        exact this.symm
    · exact hmiddle
  | case3 low high hlt =>
    constructor
    · intro hpi
      refine Nat.lt_of_not_le fun hle ↦ ?_
      have := h.le
      have := h.after i hi (by omega)
      rw [hpi] at this
      exact Bool.noConfusion this
    · exact h.before i hi

/-- Looking up by halving finds exactly the covered values of a canonical list. -/
theorem holds_iff {rs : List Interval} (hr : Canonical rs) {v : Integer} :
    holds rs v = true ↔ Covers rs v := by
  have order : rs.Pairwise fun r s ↦ decide (s.hi < v) = true → decide (r.hi < v) = true := by
    refine List.Pairwise.imp_of_mem ?_ hr.2
    intro r s _ hs hgap
    have := Integer.le_def.1 (hr.1 s hs)
    simp only [decide_eq_true_eq, Integer.lt_def]
    omega
  have all : Halved (fun r ↦ decide (r.hi < v)) rs 0 rs.length := by
    refine ⟨Nat.zero_le _, Nat.le_refl _, ?_, ?_⟩
    · intro i _ hi
      omega
    · intro i hi hle
      omega
  have point := partitionPoint_spec order all
  unfold holds
  generalize partitionPoint (fun r ↦ decide (r.hi < v)) rs 0 rs.length = k at point
  simp only [decide_eq_true_eq, Integer.lt_def] at point
  rw [Option.any_eq_true]
  constructor
  · rintro ⟨r, hget, hlo⟩
    obtain ⟨hk, rfl⟩ := List.getElem?_eq_some_iff.1 hget
    have := point k hk
    rw [decide_eq_true_eq, Integer.le_def] at hlo
    exact ⟨_, List.getElem_mem hk, Interval.mem_def.2 ⟨hlo, by omega⟩⟩
  · rintro ⟨r, hmem, hv⟩
    obtain ⟨i, hi, rfl⟩ := List.getElem_of_mem hmem
    rw [Interval.mem_def] at hv
    have hki : ¬ i < k := fun hlt ↦ by
      have := (point i hi).2 hlt
      omega
    have hk : k < rs.length := by omega
    have hnot : ¬ rs[k].hi.val < v.val := fun hlt ↦ Nat.lt_irrefl k ((point k hk).1 hlt)
    refine ⟨rs[k], List.getElem?_eq_getElem hk, ?_⟩
    rw [decide_eq_true_eq, Integer.le_def]
    rcases Nat.lt_or_eq_of_le (Nat.le_of_not_lt hki) with hlt | rfl
    · have := (List.pairwise_iff_getElem.1 hr.2) k i hk hi hlt
      have := Integer.le_def.1 (hr.1 _ hmem)
      have := Integer.le_def.1 (hr.1 _ (List.getElem_mem hk))
      omega
    · exact hv.1

end ConstraintEval
