import ConstraintEval.Eval.IndexArithmetic
import ConstraintEval.Proofs.Bounds.Monotonicity
import ConstraintEval.Proofs.Rearrangement
import ConstraintEval.Proofs.Reductions.Results
import Mathlib.Data.Int.Interval
import Mathlib.Data.Set.Card

/-!
# Equality and size of sets

A canonical list of runs can be told from the values that it covers, so sets are equal when they
have the same members. The runs have no member in common, so the sum of their widths is the number
of members. Adding the widths up in machine words never leaves a word, as there are no more than
`2^64` values.
-/

namespace ConstraintEval

variable {rs ss : List Interval} {r s : Interval} {v : Integer}

/-! ### Runs from their values -/

/-- A canonical list covers nothing below its first run. -/
private theorem lo_le_of_covers (h : Canonical (r :: rs)) (hv : Covers (r :: rs) v) :
    r.lo.val ≤ v.val := by
  obtain ⟨ordered, gaps, -⟩ := canonical_cons.1 h
  rw [Integer.le_def] at ordered
  rcases covers_cons.1 hv with hv | ⟨t, mem, hv⟩
  · exact hv.1
  · have gap := gaps t mem
    have first := hv.1
    rw [Integer.le_def] at first
    omega

/-- What comes after the first run of a canonical list lies beyond a gap. -/
private theorem lt_of_covers_tail (h : Canonical (r :: rs)) (hv : Covers rs v) :
    r.hi.val + 1 < v.val := by
  obtain ⟨-, gaps, -⟩ := canonical_cons.1 h
  obtain ⟨t, mem, hv⟩ := hv
  have gap := gaps t mem
  have first := hv.1
  rw [Integer.le_def] at first
  omega

/-- Of two canonical lists that cover the same, neither starts later. -/
private theorem lo_le_of_same (hr : Canonical (r :: rs)) (hs : Canonical (s :: ss))
    (same : ∀ v, Covers (r :: rs) v ↔ Covers (s :: ss) v) : s.lo.val ≤ r.lo.val := by
  refine lo_le_of_covers hs ((same r.lo).1 (covers_cons.2 (.inl ?_)))
  exact ⟨Int.le_refl _, (canonical_cons.1 hr).1⟩

/-- Of two canonical lists that cover the same and start with the same value, neither has the
longer first run: the value after the shorter one would be covered by one of them only. -/
private theorem hi_le_of_same (hr : Canonical (r :: rs)) (lo : s.lo.val = r.lo.val)
    (same : ∀ v, Covers (r :: rs) v ↔ Covers (s :: ss) v) : s.hi.val ≤ r.hi.val := by
  by_contra longer
  have ordered := Integer.le_def.1 (canonical_cons.1 hr).1
  have least := r.hi.least_le
  have greatest := s.hi.le_greatest
  let next : Integer := ⟨r.hi.val + 1, by omega, by omega⟩
  have inside : next ∈ s := Interval.mem_def.2 (by simp only [next]; omega)
  rcases covers_cons.1 ((same next).2 (covers_cons.2 (.inl inside))) with here | after
  · have := (Interval.mem_def.1 here).2
    simp only [next] at this
    omega
  · have := lt_of_covers_tail hr after
    simp only [next] at this
    omega

/-- Canonical lists that cover the same values are the same. -/
theorem eq_of_covers (hr : Canonical rs) (hs : Canonical ss)
    (same : ∀ v, Covers rs v ↔ Covers ss v) : rs = ss := by
  induction rs generalizing ss with
  | nil =>
    cases ss with
    | nil => rfl
    | cons s ss =>
      have start : s.lo ∈ s := ⟨Int.le_refl _, (canonical_cons.1 hs).1⟩
      exact (covers_nil _ ((same s.lo).2 (covers_cons.2 (.inl start)))).elim
  | cons r rs ih =>
    cases ss with
    | nil =>
      have start : r.lo ∈ r := ⟨Int.le_refl _, (canonical_cons.1 hr).1⟩
      exact (covers_nil _ ((same r.lo).1 (covers_cons.2 (.inl start)))).elim
    | cons s ss =>
      have same' v := (same v).symm
      have lo : s.lo.val = r.lo.val :=
        Int.le_antisymm (lo_le_of_same hr hs same) (lo_le_of_same hs hr same')
      have hi : s.hi.val = r.hi.val :=
        Int.le_antisymm (hi_le_of_same hr lo same) (hi_le_of_same hs lo.symm same')
      obtain rfl : s = r := Interval.ext (Integer.ext lo) (Integer.ext hi)
      have tails v : Covers rs v ↔ Covers ss v := by
        have split := same v
        rw [covers_cons, covers_cons] at split
        -- no value is in the first run and in a later one
        have apart (hv : v ∈ s) : ¬ Covers rs v ∧ ¬ Covers ss v := by
          have last := (Interval.mem_def.1 hv).2
          constructor
          · intro later
            have := lt_of_covers_tail hr later
            omega
          · intro later
            have := lt_of_covers_tail hs later
            omega
        tauto
      rw [ih (canonical_cons.1 hr).2.2 (canonical_cons.1 hs).2.2 tails]

/-! ### Counting -/

/-- An interval has as many members as its width says. -/
theorem Interval.encard_mem (r : Interval) : {v | v ∈ r}.encard = r.size := by
  have image : Integer.val '' {v | v ∈ r} = Finset.Icc r.lo.val r.hi.val := by
    ext n
    simp only [Set.mem_image, Set.mem_ofPred_eq, Interval.mem_def, Finset.coe_Icc, Set.mem_Icc]
    constructor
    · rintro ⟨v, hv, rfl⟩
      exact hv
    · intro between
      have least := r.lo.least_le
      have greatest := r.hi.le_greatest
      exact ⟨⟨n, by omega, by omega⟩, between, rfl⟩
  have injective : Function.Injective Integer.val := fun _ _ ↦ Integer.ext
  rw [← injective.encard_image, image, Set.encard_coe_eq_coe_finsetCard, Int.card_Icc, size, width]
  congr 2
  omega

/-- The sum of the widths of runs. -/
def totalSize (rs : List Interval) : Nat := rs.foldr (fun r n ↦ r.size + n) 0

theorem totalSize_cons (r : Interval) (rs : List Interval) :
    totalSize (r :: rs) = r.size + totalSize rs := rfl

/-- The runs of a canonical list have as many values as their widths say together. -/
theorem encard_covers (h : Canonical rs) : {v | Covers rs v}.encard = totalSize rs := by
  induction rs with
  | nil => simp [totalSize]
  | cons r rs ih =>
    have split : {v | Covers (r :: rs) v} = {v | v ∈ r} ∪ {v | Covers rs v} := by
      ext v
      exact covers_cons
    have disjoint : Disjoint {v | v ∈ r} {v | Covers rs v} := by
      rw [Set.disjoint_left]
      intro v here later
      have last := (Interval.mem_def.1 here).2
      have := lt_of_covers_tail h later
      omega
    rw [split, Set.encard_union_eq disjoint, r.encard_mem, ih (canonical_cons.1 h).2.2,
      totalSize_cons, Nat.cast_add]

/-- There are no more values in the runs of a canonical list than from the start of the first one
on. -/
theorem totalSize_le (h : Canonical rs) {k : Int} (bound : k ≤ 9223372036854775808)
    (start : ∀ r ∈ rs, k ≤ r.lo.val) : (totalSize rs : Int) ≤ 9223372036854775808 - k := by
  induction rs generalizing k with
  | nil =>
    simp only [totalSize, List.foldr_nil]
    omega
  | cons r rs ih =>
    obtain ⟨ordered, gaps, canonical⟩ := canonical_cons.1 h
    rw [Integer.le_def] at ordered
    have first := start r List.mem_cons_self
    have greatest := r.hi.le_greatest
    have rest := ih canonical (k := r.hi.val + 1) (by omega) fun t mem ↦ by
      have := gaps t mem
      omega
    have width : (r.size : Int) = r.hi.val - r.lo.val + 1 := by
      rw [Interval.size, Interval.width]
      omega
    rw [totalSize_cons, Nat.cast_add, width]
    omega

/-! ### Counting in machine words -/

/-- A number, where it fits a word of 128 bits with a sign. -/
def fitted (n : Int) : Option Int :=
  if -(productLimit : Int) ≤ n ∧ n < productLimit then some n else none

/-- The width of an interval, worked out in words. -/
def widthInWords (r : Interval) : Option Int := do
  fitted ((← fitted (r.hi.val - r.lo.val)) + 1)

/-- The widths of some runs, added up in words from the first to the last. -/
def sizeInWords (rs : List Interval) : Option Int :=
  rs.foldlM (fun n r ↦ do fitted (n + (← widthInWords r))) 0

private theorem fitted_eq_some {n : Int} (least : -36893488147419103232 ≤ n)
    (greatest : n ≤ 36893488147419103232) : fitted n = some n := by
  refine if_pos ?_
  simp only [productLimit]
  omega

theorem widthInWords_eq (r : Interval) : widthInWords r = some r.width := by
  have lo := r.lo.least_le
  have lo' := r.lo.le_greatest
  have hi := r.hi.least_le
  have hi' := r.hi.le_greatest
  rw [widthInWords, fitted_eq_some (by omega) (by omega), Option.bind_eq_bind, Option.bind_some,
    fitted_eq_some (by omega) (by omega), Interval.width]

private theorem foldlM_width (ordered : ∀ r ∈ rs, r.lo ≤ r.hi) {n : Int} (pos : 0 ≤ n)
    (small : n + totalSize rs ≤ 18446744073709551616) :
    rs.foldlM (fun n r ↦ do fitted (n + (← widthInWords r))) n = some (n + totalSize rs) := by
  induction rs generalizing n with
  | nil => simp [totalSize]
  | cons r rs ih =>
    obtain ⟨first, others⟩ := List.forall_mem_cons.1 ordered
    rw [Integer.le_def] at first
    have width : r.width = r.size := by
      rw [Interval.size, Interval.width]
      omega
    rw [totalSize_cons, Nat.cast_add] at small
    rw [List.foldlM_cons, widthInWords_eq, Option.bind_eq_bind, Option.bind_some, width,
      fitted_eq_some (by omega) (by omega), Option.bind_some]
    rw [totalSize_cons, Nat.cast_add, ← Int.add_assoc]
    exact ih others (by omega) (by omega)

/-- The widths of the runs of a canonical list never leave a word while they are added up. -/
theorem sizeInWords_eq (h : Canonical rs) : sizeInWords rs = some (totalSize rs : Int) := by
  have small := totalSize_le h (k := -9223372036854775808) (by omega) fun r _ ↦ r.lo.least_le
  rw [sizeInWords, foldlM_width h.1 (Int.le_refl 0) (by omega), Int.zero_add]

namespace IntegerSet

variable {a b : IntegerSet}

/-- The values that are found in a set. -/
def members (s : IntegerSet) : Set Integer := {v | s.contains v = true}

theorem mem_members : v ∈ a.members ↔ v ∈ a := contains_iff

/-- Sets with the same members are equal. -/
theorem eq_iff_members : a = b ↔ a.members = b.members := by
  constructor
  · exact congrArg members
  · intro same
    refine IntegerSet.ext (eq_of_covers a.canonical b.canonical fun v ↦ ?_)
    rw [← mem_def, ← mem_def, ← mem_members, ← mem_members, same]

theorem encard_members (a : IntegerSet) : a.members.encard = a.size := by
  have covered : a.members = {v | Covers a.runs v} := Set.ext fun v ↦ mem_members
  rw [covered, encard_covers a.canonical]
  rfl

theorem isEmpty_iff_members : a.isEmpty = true ↔ a.members = ∅ := by
  rw [Set.eq_empty_iff_forall_notMem]
  simp only [mem_members, isEmpty, List.isEmpty_iff, mem_def]
  constructor
  · intro none v
    rw [none]
    exact covers_nil v
  · intro none
    refine eq_of_covers a.canonical canonical_nil fun v ↦ ?_
    exact ⟨fun h ↦ (none v h).elim, fun h ↦ (covers_nil v h).elim⟩

/-- A set with a member has a least and a greatest one, which are its ends. -/
private theorem exists_ends (h : v ∈ a.members) :
    ∃ r : Interval, a.min? = some r.lo ∧ a.max? = some r.hi ∧ IsLeast a.members r.lo ∧
      IsGreatest a.members r.hi := by
  have inhabited : a.isEmpty = false := by
    rw [← Bool.not_eq_true, isEmpty_iff_members, ← ne_eq, ← Set.nonempty_iff_ne_empty]
    exact ⟨v, h⟩
  obtain ⟨r, hull⟩ := exists_hull? inhabited
  obtain ⟨min, max⟩ := hull?_eq_some_iff.1 hull
  obtain ⟨lo, hi⟩ := ends_mem_of_hull? hull
  refine ⟨r, min, max, ⟨mem_members.2 lo, ?_⟩, mem_members.2 hi, ?_⟩
  · exact fun w mem ↦ (mem_hull? hull (mem_members.1 mem)).1
  · exact fun w mem ↦ (mem_hull? hull (mem_members.1 mem)).2

/-- A set without members has no ends. -/
private theorem runs_eq_nil (h : a.members = ∅) : a.runs = [] :=
  List.isEmpty_iff.1 (isEmpty_iff_members.2 h)

theorem min?_eq_some_iff : a.min? = some v ↔ IsLeast a.members v := by
  rcases a.members.eq_empty_or_nonempty with none | ⟨w, mem⟩
  · simp [min?, runs_eq_nil none, none, IsLeast]
  · obtain ⟨r, min, -, least, -⟩ := exists_ends mem
    rw [min, Option.some.injEq]
    constructor
    · rintro rfl
      exact least
    · intro least'
      exact Integer.ext (Int.le_antisymm (least.2 least'.1) (least'.2 least.1))

theorem max?_eq_some_iff : a.max? = some v ↔ IsGreatest a.members v := by
  rcases a.members.eq_empty_or_nonempty with none | ⟨w, mem⟩
  · simp [max?, runs_eq_nil none, none, IsGreatest]
  · obtain ⟨r, -, max, -, greatest⟩ := exists_ends mem
    rw [max, Option.some.injEq]
    constructor
    · rintro rfl
      exact greatest
    · intro greatest'
      exact Integer.ext (Int.le_antisymm (greatest'.2 greatest.1) (greatest.2 greatest'.1))

theorem size?_eq_some_iff {n : Integer} :
    a.size? = some n ↔ ∃ count : Nat, n.val = count ∧ a.members.encard = count := by
  rw [size?, Integer.ofNat?, Integer.ofInt?_eq_some_iff, encard_members]
  constructor
  · exact fun h ↦ ⟨a.size, h, rfl⟩
  · rintro ⟨count, h, same⟩
    rw [h, Nat.cast_inj.1 same]

theorem size?_eq_none_iff :
    a.size? = none ↔ (9223372036854775807 : ℕ∞) < a.members.encard := by
  have cast : (9223372036854775807 : ℕ∞) < a.size ↔ 9223372036854775807 < a.size := by norm_cast
  rw [size?, Integer.ofNat?, Integer.ofInt?_eq_none_iff, encard_members, cast]
  omega

end IntegerSet

/-! ### In evaluations -/

section Evaluations

variable {ctx : Context} {p : Pending} {e l x : ExprKey} {a b : IntegerSet}

/-- An operator that asks whether two values are equal asks it of sets. -/
private theorem GivesAt.equality {op : CompareOp} {c : Bool}
    (form : ctx.model.form e = .binary (.compare op) l x)
    (left : GivesAt p (ctx.evaluator.eval l) (.set a))
    (right : GivesAt p (ctx.evaluator.eval x) (.set b)) (asks : op.equality? a b = some c) :
    GivesAt p (ctx.evaluator.eval e) (.bool c) := by
  rw [← resultAt_eq_some_iff (steady_eval e), EvalM.resultAt_binary form, bind_eq_some_iff]
  refine ⟨.set a, (resultAt_eq_some_iff (steady_eval l)).2 left, ?_⟩
  refine bind_eq_some_iff.2 ⟨.set b, (resultAt_eq_some_iff (steady_eval x)).2 right, ?_⟩
  simp only [BinaryOp.apply, asks]
  rfl

/-- The number of members of a set is given where there is a set and its size is a value. -/
private theorem givesAt_cardinality_iff {n : Integer} :
    GivesAt p (ctx.evaluator.cardinality e) n ↔
      ∃ s, GivesAt p (ctx.evaluator.eval e) (.set s) ∧ s.size? = some n := by
  constructor
  · intro h
    obtain ⟨s, value, h⟩ := h.of_bind (steady_setOf e)
    refine ⟨s, value.of_setOf, ?_⟩
    cases size : s.size? with
    | none =>
      rw [size] at h
      exact (h.gives.not_failAt).elim
    | some k =>
      rw [size] at h
      rw [h.gives.of_pure]
  · rintro ⟨s, value, size⟩
    refine value.setOf.bind (steady_setOf e) ?_ ?_ <;> rw [size]
    · exact .ok n
    · exact .ok n

private theorem givesAt_call_cardinality_iff {name : String} {f : FnKey} {n : Integer}
    (form : ctx.model.form e = .call name (some f) [x])
    (bound : ctx.registry.builtin? f = some .cardinality) :
    GivesAt p (ctx.evaluator.eval e) (.int n) ↔ GivesAt p (ctx.evaluator.cardinality x) n := by
  have applied : ctx.evaluator.apply [x] .cardinality =
      Value.int <$> ctx.evaluator.cardinality x := rfl
  constructor
  · intro h
    obtain ⟨g, b, same, bound', h⟩ := h.exists_builtin form
    cases same
    cases bound.symm.trans bound'
    rw [applied] at h
    obtain ⟨k, h, same⟩ := h.of_map
    cases same
    exact h
  · intro h
    refine .call_of_apply form bound ?_ ?_ <;> rw [applied]
    · exact (steady_cardinality x).andThen fun k ↦ .ok (Value.int k)
    · exact h.map Value.int

end Evaluations

/-- In a state, the value of an expression is a set with a certain number of members. -/
def Context.HasMembers (ctx : Context) (s : EvalState) (e : ExprKey) (n : Integer) : Prop :=
  ∃ set t, ∃ count : Nat, ctx.evaluator.eval e s = some (.ok (.set set), t) ∧
    n.val = count ∧ set.members.encard = count

private theorem Context.hasMembers_iff {ctx : Context} {s : EvalState} {e : ExprKey} {n : Integer} :
    ctx.HasMembers s e n ↔ GivesAt s.pending (ctx.evaluator.cardinality e) n := by
  rw [givesAt_cardinality_iff]
  constructor
  · rintro ⟨set, t, count, value, size⟩
    exact ⟨set, ⟨s, t, rfl, value⟩, IntegerSet.size?_eq_some_iff.2 ⟨count, size⟩⟩
  · rintro ⟨set, value, size⟩
    obtain ⟨t, -, run⟩ := value.run (steady_eval e) (s := s) rfl
    obtain ⟨count, size⟩ := IntegerSet.size?_eq_some_iff.1 size
    exact ⟨set, t, count, run, size⟩

/-- A steady evaluation has a result in a state exactly if it gives it with the same declarations
pending. -/
private theorem Steady.run_iff {α : Type} {x : EvalM α} (steady : Steady x.run) {s : EvalState}
    {a : α} : (∃ t, x s = some (.ok a, t)) ↔ GivesAt s.pending x a := by
  constructor
  · rintro ⟨t, run⟩
    exact ⟨s, t, rfl, run⟩
  · intro h
    obtain ⟨t, -, run⟩ := h.run steady (s := s) rfl
    exact ⟨t, run⟩

/-- Canonical sets are the same list of runs exactly if the same values are found in them. A set is
empty exactly if it has no member, and its ends are its least and its greatest member. Its size is
the number of its members, or missing if that is no value, and is found without leaving the words
that the widths of the runs are added up in. So evaluations of `=` and `!=` decide whether sets have
the same members, and `card` is the number of members of the set that its argument comes to. -/
theorem sets_compare_and_count (ctx : Context) (s : EvalState) (a b : IntegerSet) :
    (a.runs = b.runs ↔ ∀ v, a.contains v = b.contains v) ∧
    (a.isEmpty = true ↔ ∀ v, a.contains v = false) ∧
    (∀ v, a.min? = some v ↔ IsLeast a.members v) ∧
    (∀ v, a.max? = some v ↔ IsGreatest a.members v) ∧
    (∀ n, a.size? = some n ↔ ∃ count : Nat, n.val = count ∧ a.members.encard = count) ∧
    (a.size? = none ↔ (9223372036854775807 : ℕ∞) < a.members.encard) ∧
    (∃ total, sizeInWords a.runs = some total ∧ a.size? = Integer.ofInt? total) ∧
    (∀ e l r, (∃ t, ctx.evaluator.eval l s = some (.ok (.set a), t)) →
      (∃ t, ctx.evaluator.eval r s = some (.ok (.set b), t)) →
        (ctx.model.form e = .binary (.compare .eq) l r →
          ∃ c t, ctx.evaluator.eval e s = some (.ok (.bool c), t) ∧
            (c = true ↔ ∀ v, a.contains v = b.contains v)) ∧
        (ctx.model.form e = .binary (.compare .ne) l r →
          ∃ c t, ctx.evaluator.eval e s = some (.ok (.bool c), t) ∧
            (c = true ↔ ¬∀ v, a.contains v = b.contains v))) ∧
    (∀ e n, (∃ t, ctx.evaluator.cardinality e s = some (.ok n, t)) ↔ ctx.HasMembers s e n) ∧
    ∀ c name f e n, ctx.model.form c = .call name (some f) [e] →
      ctx.registry.builtin? f = some .cardinality →
        ((∃ t, ctx.evaluator.eval c s = some (.ok (.int n), t)) ↔ ctx.HasMembers s e n) := by
  have extensional : a = b ↔ ∀ v, a.contains v = b.contains v := by
    rw [IntegerSet.eq_iff_members, Set.ext_iff]
    exact forall_congr' fun v ↦ Bool.eq_iff_iff.symm
  refine ⟨IntegerSet.ext_iff.symm.trans extensional, ?_, fun v ↦ IntegerSet.min?_eq_some_iff,
    fun v ↦ IntegerSet.max?_eq_some_iff, fun n ↦ IntegerSet.size?_eq_some_iff,
    IntegerSet.size?_eq_none_iff, ⟨a.size, sizeInWords_eq a.canonical, rfl⟩, ?_, ?_, ?_⟩
  · rw [IntegerSet.isEmpty_iff_members, Set.eq_empty_iff_forall_notMem]
    exact forall_congr' fun v ↦ (Bool.not_eq_true _).to_iff
  · intro e l r left right
    have left := (steady_eval l).run_iff.1 left
    have right := (steady_eval r).run_iff.1 right
    rw [← extensional]
    constructor
    · intro form
      obtain ⟨t, run⟩ := (steady_eval e).run_iff.2 (left.equality form right rfl)
      exact ⟨_, t, run, decide_eq_true_iff⟩
    · intro form
      obtain ⟨t, run⟩ := (steady_eval e).run_iff.2 (left.equality form right rfl)
      exact ⟨_, t, run, decide_eq_true_iff⟩
  · intro e n
    rw [(steady_cardinality e).run_iff, Context.hasMembers_iff]
  · intro c name f e n form bound
    rw [(steady_eval c).run_iff, givesAt_call_cardinality_iff form bound, Context.hasMembers_iff]

/-- The model of a set that is written as a range and as the difference of two, of the questions
whether both are the same and whether they differ, and of the number of members. -/
def writtenTwice : Model :=
  let build : Build Unit := do
    Library.declareAll
    let range ← Build.literalRange .one (.ofByte 4)
    let whole ← Build.literalRange .one (.ofByte 9)
    let high ← Build.literalRange (.ofByte 5) (.ofByte 9)
    let low ← Build.binary (.set .diff) whole high
    let _ ← Build.binary (.compare .eq) range low
    let _ ← Build.binary (.compare .ne) range low
    let _ ← Build.call "card" [low]
  (build.run .empty).2

/-- The model with the standard library. -/
def twiceContext : Context where
  model := writtenTwice
  registry := ((Registry.ofLibrary writtenTwice).toOption).getD .empty

/-- The range and the difference have the same four members, and evaluation says so. -/
theorem range_equals_difference :
    let range : IntegerSet := .range .one (.ofByte 4)
    twiceContext.model.form ⟨10⟩ = .binary (.compare .eq) ⟨2⟩ ⟨9⟩ ∧
    twiceContext.model.form ⟨11⟩ = .binary (.compare .ne) ⟨2⟩ ⟨9⟩ ∧
    twiceContext.model.form ⟨12⟩ = .call "card" (some ⟨17⟩) [⟨9⟩] ∧
    twiceContext.registry.builtin? ⟨17⟩ = some .cardinality ∧
    (∃ t, twiceContext.evaluator.eval ⟨2⟩ (.fresh none) = some (.ok (.set range), t)) ∧
    (∃ t, twiceContext.evaluator.eval ⟨9⟩ (.fresh none) = some (.ok (.set range), t)) ∧
    (∃ t, twiceContext.evaluator.eval ⟨10⟩ (.fresh none) = some (.ok (.bool true), t)) ∧
    (∃ t, twiceContext.evaluator.eval ⟨11⟩ (.fresh none) = some (.ok (.bool false), t)) ∧
    ∃ t, twiceContext.evaluator.eval ⟨12⟩ (.fresh none) = some (.ok (.int (.ofByte 4)), t) := by
  intro range
  have forms : twiceContext.model.form ⟨10⟩ = .binary (.compare .eq) ⟨2⟩ ⟨9⟩ ∧
      twiceContext.model.form ⟨11⟩ = .binary (.compare .ne) ⟨2⟩ ⟨9⟩ ∧
      twiceContext.model.form ⟨12⟩ = .call "card" (some ⟨17⟩) [⟨9⟩] ∧
      twiceContext.registry.builtin? ⟨17⟩ = some .cardinality := by
    decide +kernel
  have values : twiceContext.evaluator.eval ⟨2⟩ (.fresh none) =
        some (.ok (.set range), .fresh none) ∧
      twiceContext.evaluator.eval ⟨9⟩ (.fresh none) =
        some (.ok (.set range), .fresh none) := by
    decide +kernel
  obtain ⟨eq, ne, card, bound⟩ := forms
  obtain ⟨-, -, -, -, size, -, -, compared, -, counted⟩ :=
    sets_compare_and_count twiceContext (.fresh none) range range
  refine ⟨eq, ne, card, bound, ⟨_, values.1⟩, ⟨_, values.2⟩, ?_, ?_, ?_⟩
  · obtain ⟨c, t, run, same⟩ := (compared ⟨10⟩ ⟨2⟩ ⟨9⟩ ⟨_, values.1⟩ ⟨_, values.2⟩).1 eq
    rw [same.2 fun _ ↦ rfl] at run
    exact ⟨t, run⟩
  · obtain ⟨c, t, run, differ⟩ := (compared ⟨11⟩ ⟨2⟩ ⟨9⟩ ⟨_, values.1⟩ ⟨_, values.2⟩).2 ne
    have same : c = false := by
      rw [← Bool.not_eq_true, differ, not_not]
      exact fun _ ↦ rfl
    rw [same] at run
    exact ⟨t, run⟩
  · have four : range.size? = some (.ofByte 4) := by decide
    obtain ⟨count, number, members⟩ := (size (.ofByte 4)).1 four
    exact (counted ⟨12⟩ "card" ⟨17⟩ ⟨9⟩ (.ofByte 4) card bound).2
      ⟨range, _, count, values.2, number, members⟩

end ConstraintEval
