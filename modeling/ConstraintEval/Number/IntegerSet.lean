import ConstraintEval.Number.Runs

/-!
# Finite integer sets

A set has one representation only, its canonical list of runs. Its size is found from the ends
of its runs, and `1..1000000000` costs as much as `1..3`. The main statements are `mem_union`,
`mem_inter` and `mem_diff`.
-/

namespace ConstraintEval

/-- A finite set of integer values. -/
@[ext] structure IntegerSet where
  /-- The maximal runs of consecutive members, in increasing order. -/
  runs : List Interval
  canonical : Canonical runs
  deriving DecidableEq

namespace IntegerSet

instance : Membership Integer IntegerSet := ⟨fun s v ↦ Covers s.runs v⟩

theorem mem_def {v : Integer} {s : IntegerSet} : v ∈ s ↔ Covers s.runs v := Iff.rfl

/-- The empty set. -/
def empty : IntegerSet := ⟨[], canonical_nil⟩

instance : Inhabited IntegerSet := ⟨empty⟩

/-- The set of the members of some intervals. -/
def ofIntervals (rs : List Interval) : IntegerSet :=
  ⟨runsOfIntervals rs, canonical_runsOfIntervals rs⟩

/-- The set of some values. -/
def ofList (vs : List Integer) : IntegerSet := ⟨runsOfList vs, canonical_runsOfList vs⟩

/-- The set of the values from `lo` to `hi`, empty if `hi < lo`. -/
def range (lo hi : Integer) : IntegerSet := ⟨runsBetween lo hi, canonical_runsBetween lo hi⟩

/-- The set of one value. -/
def singleton (v : Integer) : IntegerSet := range v v

/-- The members of either set. -/
def union (s t : IntegerSet) : IntegerSet :=
  ⟨unionRuns s.runs t.runs, canonical_unionRuns s.canonical t.canonical⟩

/-- The members of both sets. -/
def inter (s t : IntegerSet) : IntegerSet :=
  ⟨meetRuns s.runs t.runs, canonical_meetRuns s.canonical t.canonical⟩

private theorem isSome_cutRuns (s t : IntegerSet) : (cutRuns s.runs t.runs).isSome := by
  obtain ⟨kept, h, -⟩ := cutRuns_eq_some s.canonical t.canonical
  exact Option.isSome_of_eq_some h

private theorem get_cutRuns_spec (s t : IntegerSet) :
    Canonical ((cutRuns s.runs t.runs).get (isSome_cutRuns s t)) ∧
      ∀ v, Covers ((cutRuns s.runs t.runs).get (isSome_cutRuns s t)) v ↔
        Covers s.runs v ∧ ¬ Covers t.runs v := by
  obtain ⟨kept, h, canonical, -, covers⟩ := cutRuns_eq_some s.canonical t.canonical
  simp only [h, Option.get_some]
  exact ⟨canonical, covers⟩

/-- The members of the first set that are not in the second. -/
def diff (s t : IntegerSet) : IntegerSet :=
  ⟨(cutRuns s.runs t.runs).get (isSome_cutRuns s t), (get_cutRuns_spec s t).1⟩

/-- Whether a value is a member. -/
def contains (s : IntegerSet) (v : Integer) : Bool := holds s.runs v

/-- Whether there is no member. -/
def isEmpty (s : IntegerSet) : Bool := s.runs.isEmpty

/-- The interval that the set is, where it is just one. -/
def interval? (s : IntegerSet) : Option Interval :=
  match s.runs with
  | [r] => some r
  | _ => none

/-- The least member. -/
def min? (s : IntegerSet) : Option Integer := s.runs.head?.map Interval.lo

/-- The greatest member. -/
def max? (s : IntegerSet) : Option Integer := s.runs.getLast?.map Interval.hi

/-- The least interval that covers the set. -/
def hull? (s : IntegerSet) : Option Interval := do
  let lo ← s.min?
  let hi ← s.max?
  return ⟨lo, hi⟩

/-- The number of members. -/
def size (s : IntegerSet) : Nat := s.runs.foldr (fun r n ↦ r.size + n) 0

/-- The number of members as a value, where it is in range. -/
def size? (s : IntegerSet) : Option Integer := Integer.ofNat? s.size

/-- One run as it is written inside braces. -/
def runText (r : Interval) : String :=
  if r.lo = r.hi then toString r.lo else s!"{r.lo}..{r.hi}"

/-- The text of a set: an interval of two or more values stands alone, all else is a list of
runs in braces. -/
def text (s : IntegerSet) : String :=
  match s.interval? with
  | some r => if r.lo = r.hi then braced else runText r
  | none => braced
where
  braced : String := "\x7b" ++ ", ".intercalate (s.runs.map runText) ++ "\x7d"

/-- The text of a set for a trace: the ends of every run. -/
def debugText (s : IntegerSet) : String :=
  "IntSetVal(" ++ String.join (s.runs.map fun r ↦ s!"[{r.lo},{r.hi}]") ++ ")"

instance : ToString IntegerSet := ⟨text⟩

theorem contains_iff {s : IntegerSet} {v : Integer} : s.contains v = true ↔ v ∈ s :=
  holds_iff s.canonical

theorem not_mem_empty (v : Integer) : v ∉ empty := covers_nil v

theorem mem_ofIntervals {rs : List Interval} {v : Integer} :
    v ∈ ofIntervals rs ↔ ∃ r ∈ rs, v ∈ r := covers_runsOfIntervals

theorem mem_ofList {vs : List Integer} {v : Integer} : v ∈ ofList vs ↔ v ∈ vs :=
  covers_runsOfList

theorem mem_range {lo hi v : Integer} : v ∈ range lo hi ↔ lo ≤ v ∧ v ≤ hi :=
  covers_runsBetween

theorem mem_union {s t : IntegerSet} {v : Integer} : v ∈ s.union t ↔ v ∈ s ∨ v ∈ t :=
  covers_unionRuns s.canonical t.canonical

theorem mem_inter {s t : IntegerSet} {v : Integer} : v ∈ s.inter t ↔ v ∈ s ∧ v ∈ t :=
  covers_meetRuns s.canonical t.canonical

theorem mem_diff {s t : IntegerSet} {v : Integer} : v ∈ s.diff t ↔ v ∈ s ∧ v ∉ t :=
  (get_cutRuns_spec s t).2 v

end IntegerSet

end ConstraintEval
