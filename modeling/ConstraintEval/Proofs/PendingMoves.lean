import ConstraintEval.Proofs.Evaluation.Growth
import ConstraintEval.Proofs.Evaluation.Run
import Mathlib.Data.List.DropRight

/-!
# What happens to pending declarations

Visits begin, nested or along a chain of names, and end, one by one or many at once. What is
pending says three things of them: which visits are going on, which variables they are to, and how
many of them count. Whatever happens, in whatever order, the three agree: no variable is visited
twice, so that ending a visit takes its variable from those that are visited, and the visits that
count are never more than the limit.

Ending visits until some are left gives back what was pending when those were all of them.
-/

namespace ConstraintEval

namespace Pending

/-- What can happen to pending declarations. -/
inductive Move where
  /-- A visit begins, if it may. -/
  | enter (visit : Visit) (nested : Bool)
  /-- The innermost visit ends. -/
  | leave
  /-- Visits end until no more than some number are going on. -/
  | leaveTo (size : Nat)
  deriving DecidableEq

/-- What is pending after a move. A visit that is refused does not begin. -/
def moved (p : Pending) : Move → Pending
  | .enter v nested => (p.enter v nested).toOption.getD p
  | .leave => p.leave
  | .leaveTo size => p.leaveTo size

/-- What is pending after some moves, one after another, from nothing. -/
def after (limit : Option Nat) (moves : List Move) : Pending := moves.foldl moved (.empty limit)

/-- A visit does not begin, for a cause. -/
def Refuses (p : Pending) (v : Visit) (nested : Bool) (cause : Cause) : Prop :=
  ∃ f, p.enter v nested = .error f ∧ f.cause = cause

/-- A visit to a variable is going on. -/
def Visits (p : Pending) (u : VarKey) : Prop := ∃ o ∈ p.visits, o.visit.key = u

/-- The visits, the variables that are visited and the number of visits that count agree. -/
structure Consistent (p : Pending) : Prop where
  distinct : (p.visits.map (·.visit.key)).Nodup
  visited : p.visited = p.visits.map (·.visit.key)
  nesting : p.nesting = p.visits.countP (·.nested)
  within : ∀ limit, p.limit = some limit → p.nesting ≤ limit

variable {p q : Pending} {o : OpenVisit} {v : Visit} {nested : Bool}

/-- Nothing changes, or a visit begins where nothing is against it. -/
theorem moved_enter (p : Pending) (v : Visit) (nested : Bool) :
    p.moved (.enter v nested) = p ∨
      p.holds v.key = false ∧ (∀ limit, p.limit = some limit → nested = true → p.nesting < limit) ∧
        p.moved (.enter v nested) = p.add v nested := by
  cases entered : p.enter v nested with
  | error f => exact .inl (by rw [moved, entered]; rfl)
  | ok q =>
    obtain ⟨fresh, room, rfl⟩ := enter_eq_ok_iff.1 entered
    exact .inr ⟨fresh, room, by rw [moved, entered]; rfl⟩

/-! ### Consistency -/

namespace Consistent

theorem empty (limit : Option Nat) : (empty limit).Consistent where
  distinct := List.nodup_nil
  visited := rfl
  nesting := rfl
  within _ _ := Nat.zero_le _

/-- The visits and the limit determine the rest. -/
theorem eq (h : p.Consistent) (h' : q.Consistent) (visits : p.visits = q.visits)
    (limit : p.limit = q.limit) : p = q := by
  ext1
  · exact visits
  · rw [h.visited, h'.visited, visits]
  · rw [h.nesting, h'.nesting, visits]
  · exact limit

theorem holds_iff (h : p.Consistent) (u : VarKey) : p.holds u = true ↔ p.Visits u := by
  rw [holds, List.contains_iff_mem, h.visited, List.mem_map]
  rfl

theorem add (h : p.Consistent) (fresh : p.holds v.key = false)
    (room : ∀ limit, p.limit = some limit → nested = true → p.nesting < limit) :
    (p.add v nested).Consistent where
  distinct := by
    rw [holds, List.contains_eq_mem, decide_eq_false_iff_not, h.visited] at fresh
    exact List.nodup_cons.2 ⟨fresh, h.distinct⟩
  visited := congrArg (v.key :: ·) h.visited
  nesting := by
    simp only [Pending.add, List.countP_cons, h.nesting]
    cases nested <;> rfl
  within limit limited := by
    have within := h.within limit limited
    have room := room limit limited
    cases nested with
    | false => exact within
    | true => exact room rfl

theorem leave (h : p.Consistent) : p.leave.Consistent := by
  unfold Pending.leave
  split
  · exact h
  · next o rest visits =>
    obtain ⟨distinct, visited, nesting, within⟩ := h
    rw [visits] at distinct visited nesting
    refine ⟨(List.nodup_cons.1 distinct).2, ?_, ?_, fun limit limited ↦ ?_⟩
    · exact visited ▸ List.erase_cons_head ..
    · simp only [nesting, List.countP_cons]
      cases o.nested <;> rfl
    · exact Nat.le_trans (Nat.sub_le ..) (within limit limited)

theorem leaveMany (h : p.Consistent) (n : Nat) : (leaveMany n p).Consistent := by
  induction n generalizing p with
  | zero => exact h
  | succ n ih => exact ih h.leave

theorem leaveTo (h : p.Consistent) (size : Nat) : (p.leaveTo size).Consistent :=
  h.leaveMany _

theorem moved (h : p.Consistent) (m : Move) : (p.moved m).Consistent := by
  cases m with
  | enter v nested =>
    obtain same | ⟨fresh, room, begun⟩ := p.moved_enter v nested
    · rwa [same]
    · exact begun ▸ h.add fresh room
  | leave => exact h.leave
  | leaveTo size => exact h.leaveTo size

end Consistent

/-! ### Limits -/

@[simp] theorem limit_leave (p : Pending) : p.leave.limit = p.limit := by
  unfold leave
  split <;> rfl

@[simp] theorem limit_leaveMany (n : Nat) (p : Pending) : (leaveMany n p).limit = p.limit := by
  induction n generalizing p with
  | zero => rfl
  | succ n ih => rw [leaveMany, ih, limit_leave]

theorem limit_moved (p : Pending) (m : Move) : (p.moved m).limit = p.limit := by
  cases m with
  | enter v nested =>
    obtain same | ⟨-, -, begun⟩ := p.moved_enter v nested
    · rw [same]
    · rw [begun]
      rfl
  | leave => exact limit_leave p
  | leaveTo size => exact limit_leaveMany _ p

/-! ### Visits -/

theorem visits_leave (p : Pending) : p.leave.visits = p.visits.tail := by
  unfold leave
  split
  · next none => rw [none]; rfl
  · next o rest visits => rw [visits]; rfl

theorem visits_leaveMany (n : Nat) (p : Pending) :
    (leaveMany n p).visits = p.visits.drop n := by
  induction n generalizing p with
  | zero => rfl
  | succ n ih => rw [leaveMany, ih, visits_leave, List.drop_tail]

/-- What is left are the outermost visits. -/
theorem visits_leaveTo (p : Pending) (size : Nat) :
    (p.leaveTo size).visits = p.visits.rtake size :=
  visits_leaveMany ..

/-- A move ends visits, the innermost first, or begins one. -/
theorem visits_moved (p : Pending) (m : Move) :
    (p.moved m).visits <:+ p.visits ∨ ∃ o, (p.moved m).visits = o :: p.visits := by
  cases m with
  | enter v nested =>
    obtain same | ⟨-, -, begun⟩ := p.moved_enter v nested
    · exact .inl (same.symm ▸ List.suffix_refl _)
    · exact .inr ⟨⟨v, nested⟩, by rw [begun]; rfl⟩
  | leave =>
    rw [moved, visits_leave]
    exact .inl (List.tail_suffix _)
  | leaveTo size =>
    rw [moved, visits_leaveTo]
    exact .inl (List.drop_suffix ..)

/-- The outermost visits are the same where more are going on inside. -/
private theorem rtake_of_suffix {os os' : List OpenVisit} {n : Nat} (h : os <:+ os')
    (le : n ≤ os.length) : os.rtake n = os'.rtake n := by
  obtain ⟨inner, rfl⟩ := h
  have skipped : (inner ++ os).length - n = inner.length + (os.length - n) := by
    rw [List.length_append, Nat.add_sub_assoc le]
  rw [List.rtake, List.rtake, skipped, List.drop_length_add_append]

/-! ### Refusals -/

/-- A visit to a variable that is visited is refused for this. -/
theorem enter_of_holds (held : p.holds v.key = true) :
    p.enter v nested = .error (p.selfDependence v) := by
  rw [enter, if_pos held]

/-- A visit that is one too many is refused for this. -/
theorem enter_of_excess {limit : Nat} (fresh : p.holds v.key = false)
    (limited : p.limit = some limit) (counts : nested = true) (le : limit ≤ p.nesting) :
    p.enter v nested = .error (p.excessDepth limit v) := by
  simp [enter, fresh, limited, counts, le]

section Limited

variable (consistent : p.Consistent)

include consistent

/-- A visit begins if its variable is not visited and the limit is not reached or does not
matter. -/
theorem enter_of_room (fresh : ¬p.Visits v.key)
    (room : ¬(nested = true ∧ p.limit = some p.nesting)) :
    p.enter v nested = .ok (p.add v nested) := by
  refine enter_eq_ok_iff.2 ⟨?_, fun limit limited counts ↦ ?_, rfl⟩
  · rwa [← Bool.not_eq_true, consistent.holds_iff]
  · refine Nat.lt_of_le_of_ne (consistent.within limit limited) fun reached ↦ room ⟨counts, ?_⟩
    rw [limited, reached]

theorem refuses_iff {cause : Cause} : p.Refuses v nested cause ↔
    p.Visits v.key ∧ cause = .selfDependence v.name ∨
      ¬p.Visits v.key ∧ nested = true ∧ p.limit = some p.nesting ∧
        cause = .excessDepth p.nesting := by
  have refused {f : Failure} (h : p.enter v nested = .error f) :
      p.Refuses v nested cause ↔ cause = f.cause := by
    rw [Refuses, h]
    exact ⟨fun ⟨_, same, cause⟩ ↦ by cases same; exact cause.symm, fun h ↦ ⟨f, rfl, h.symm⟩⟩
  by_cases held : p.Visits v.key
  · rw [refused (enter_of_holds ((consistent.holds_iff _).2 held)), cause_selfDependence]
    simp [held]
  by_cases full : nested = true ∧ p.limit = some p.nesting
  · have fresh : p.holds v.key = false := by rwa [← Bool.not_eq_true, consistent.holds_iff]
    rw [refused (enter_of_excess fresh full.2 full.1 (Nat.le_refl _)), cause_excessDepth]
    simp [held, full]
  · have entered := enter_of_room consistent held full
    simp only [Refuses, entered, held, reduceCtorEq, false_and, exists_false, not_false_eq_true,
      true_and, false_or, false_iff]
    exact fun ⟨counts, reached, _⟩ ↦ full ⟨counts, reached⟩

theorem moved_enter_of_refused
    (refused : p.Visits v.key ∨ nested = true ∧ p.limit = some p.nesting) :
    p.moved (.enter v nested) = p := by
  obtain same | ⟨fresh, room, -⟩ := p.moved_enter v nested
  · exact same
  · rcases refused with held | ⟨counts, reached⟩
    · exact (Bool.false_ne_true (fresh.symm.trans ((consistent.holds_iff _).2 held))).elim
    · exact (Nat.lt_irrefl _ (room _ reached counts)).elim

/-- Ending the innermost visit takes its variable from those that are visited, as no other visit
is to it. -/
theorem holds_leave {rest : List OpenVisit} (visits : p.visits = o :: rest) (u : VarKey) :
    p.leave.holds u = true ↔ p.holds u = true ∧ u ≠ o.visit.key := by
  have distinct := consistent.distinct
  rw [visits, List.map_cons, List.nodup_cons] at distinct
  have left : p.leave.visits = rest := by rw [visits_leave, visits, List.tail_cons]
  rw [consistent.leave.holds_iff, consistent.holds_iff, Pending.Visits, Pending.Visits, left,
    visits]
  constructor
  · rintro ⟨o', mem, rfl⟩
    refine ⟨⟨o', List.mem_cons_of_mem o mem, rfl⟩, fun same ↦ distinct.1 ?_⟩
    exact same ▸ List.mem_map_of_mem mem
  · rintro ⟨⟨o', mem, rfl⟩, ne⟩
    rcases List.mem_cons.1 mem with rfl | mem
    · exact (ne rfl).elim
    · exact ⟨o', mem, rfl⟩

end Limited

/-! ### Runs -/

section Runs

variable {limit : Option Nat} {moves : List Move}

theorem after_concat (limit : Option Nat) (moves : List Move) (m : Move) :
    after limit (moves ++ [m]) = (after limit moves).moved m :=
  List.foldl_concat ..

theorem consistent_after (limit : Option Nat) (moves : List Move) :
    (after limit moves).Consistent := by
  induction moves using List.reverseRecOn with
  | nil => exact .empty limit
  | append_singleton moves m ih =>
    rw [after_concat]
    exact ih.moved m

theorem limit_after (limit : Option Nat) (moves : List Move) :
    (after limit moves).limit = limit := by
  induction moves using List.reverseRecOn with
  | nil => rfl
  | append_singleton moves m ih => rw [after_concat, limit_moved, ih]

/-- The outermost visits were all of them after some of the moves. -/
theorem exists_visits_eq_rtake {n : Nat} (le : n ≤ (after limit moves).size) :
    ∃ i ≤ moves.length,
      (after limit (moves.take i)).visits = (after limit moves).visits.rtake n := by
  induction moves using List.reverseRecOn with
  | nil =>
    have none : n = 0 := Nat.le_zero.1 le
    exact ⟨0, Nat.le_refl _, by rw [none, List.rtake_zero]; rfl⟩
  | append_singleton moves m ih =>
    rcases Nat.eq_or_lt_of_le le with rfl | lt
    · refine ⟨_, Nat.le_refl _, ?_⟩
      rw [List.take_length, size, List.rtake, Nat.sub_self, List.drop_zero]
    -- not all visits are meant, so that they were going on before the last move already
    have before : n ≤ (after limit moves).size ∧ (after limit moves).visits.rtake n =
        (after limit (moves ++ [m])).visits.rtake n := by
      rw [after_concat, size] at lt
      rw [after_concat, size]
      rcases (after limit moves).visits_moved m with inner | ⟨o, begun⟩
      · exact ⟨Nat.le_trans (Nat.le_of_lt lt) inner.length_le,
          (rtake_of_suffix inner (Nat.le_of_lt lt)).symm⟩
      · rw [begun] at lt ⊢
        have le := Nat.le_of_lt_succ lt
        exact ⟨le, rtake_of_suffix (List.suffix_cons ..) le⟩
    obtain ⟨i, le, same⟩ := ih before.1
    refine ⟨i, Nat.le_trans le (by simp), ?_⟩
    rw [List.take_append_of_le_length le, same, before.2]

/-- Where the outermost visits are all of them, just those are pending that are left if the others
end. -/
theorem eq_leaveTo_of_visits {moves' : List Move} {n : Nat}
    (same : (after limit moves').visits = (after limit moves).visits.rtake n) :
    after limit moves' = (after limit moves).leaveTo n := by
  refine (consistent_after limit moves').eq ((consistent_after limit moves).leaveTo n) ?_ ?_
  · rw [same, visits_leaveTo]
  · rw [leaveTo, limit_leaveMany, limit_after, limit_after]

end Runs

/-- After any moves under any limit, what is pending is consistent: no variable is visited twice,
the visited variables are just those of the visits, and the visits that count are counted and no
more than the limit. A visit is refused as needing its own value exactly if its variable is
visited, and otherwise as nested too deeply exactly if it counts and the limit is reached, and then
nothing changes; if neither holds it begins. Ending the innermost visit takes its variable from
those that are visited. Ending visits until `n` are left changes nothing if there are no more.
Otherwise the `n` outermost visits are left, they were all of them after some of the moves, and
whenever they were, just that was pending which is pending again. -/
theorem after_moves (limit : Option Nat) (moves : List Move) :
    let p := after limit moves
    (p.Consistent ∧ p.limit = limit ∧ ∀ u, p.holds u = true ↔ p.Visits u) ∧
    (∀ v nested, let full := nested = true ∧ limit = some p.nesting
      (p.Refuses v nested (.selfDependence v.name) ↔ p.Visits v.key) ∧
      (∀ n, p.Refuses v nested (.excessDepth n) ↔
        ¬p.Visits v.key ∧ nested = true ∧ limit = some n ∧ p.nesting = n) ∧
      (p.Visits v.key ∨ full → p.moved (.enter v nested) = p) ∧
      (¬(p.Visits v.key ∨ full) → p.enter v nested = .ok (p.add v nested))) ∧
    (∀ o rest, p.visits = o :: rest → p.leave.visits = rest ∧
      ∀ u, p.leave.holds u = true ↔ p.holds u = true ∧ u ≠ o.visit.key) ∧
    ∀ n, (p.size ≤ n → p.leaveTo n = p) ∧
      (n ≤ p.size → (p.leaveTo n).visits = p.visits.rtake n ∧
        (∃ i ≤ moves.length, (after limit (moves.take i)).visits = p.visits.rtake n) ∧
        ∀ i, (after limit (moves.take i)).visits = p.visits.rtake n →
          after limit (moves.take i) = p.leaveTo n) := by
  intro p
  have consistent : p.Consistent := consistent_after limit moves
  have limited : p.limit = limit := limit_after limit moves
  refine ⟨⟨consistent, limited, consistent.holds_iff⟩, fun v nested ↦ ?_,
    fun o rest visits ↦ ⟨?_, holds_leave consistent visits⟩, fun n ↦ ⟨fun le ↦ ?_, fun le ↦ ?_⟩⟩
  · rw [← limited]
    refine ⟨?_, fun n ↦ ?_, moved_enter_of_refused consistent, fun allowed ↦ ?_⟩
    · rw [refuses_iff consistent]
      simp
    · rw [refuses_iff consistent]
      simp only [reduceCtorEq, and_false, Cause.excessDepth.injEq, false_or]
      refine and_congr_right fun _ ↦ and_congr_right fun _ ↦ ?_
      constructor
      · exact fun ⟨reached, eq⟩ ↦ ⟨eq ▸ reached, eq.symm⟩
      · exact fun ⟨reached, eq⟩ ↦ ⟨eq ▸ reached, eq.symm⟩
    · rw [not_or] at allowed
      exact enter_of_room consistent allowed.1 allowed.2
  · rw [visits_leave, visits, List.tail_cons]
  · rw [leaveTo, Nat.sub_eq_zero_of_le le, leaveMany]
  · exact ⟨visits_leaveTo p n, exists_visits_eq_rtake le, fun i ↦ eq_leaveTo_of_visits⟩

end Pending

/-! ### What an evaluation does -/

namespace Context

open Pending

variable (ctx : Context)

/-- A visit that an evaluation makes is a move, whether it begins or not. -/
theorem enter_moved (u : VarKey) (span : Span) (s : EvalState) :
    ∃ r, ctx.enter u span s =
      some (r, { s with pending := s.pending.moved (.enter (ctx.visitTo u span) true) }) := by
  rw [enter_apply, moved, enterNested]
  cases s.pending.enter (ctx.visitTo u span) true with
  | error f => exact ⟨_, rfl⟩
  | ok q => exact ⟨_, rfl⟩

/-- Following a chain of names makes a move for each name. -/
theorem followChain_moved (nested : Bool) (steps : Nat) (p : Pending) (e : ExprKey) :
    ∃ moves : List Move, (ctx.followChain nested steps p e).2 = moves.foldl moved p := by
  induction steps generalizing nested p e with
  | zero =>
    unfold followChain
    split <;> exact ⟨[], rfl⟩
  | succ steps ih =>
    unfold followChain
    split
    · exact ⟨[], rfl⟩
    · next name v form =>
      simp only
      split
      · exact ⟨[], rfl⟩
      · next entered begun =>
        let move : Move := .enter (ctx.visitTo v (ctx.model.span e)) nested
        have first : entered = p.moved move := by
          rw [moved, begun]
          rfl
        split
        · exact ⟨[move], first⟩
        · next definition defined =>
          obtain ⟨moves, rest⟩ := ih false entered definition
          exact ⟨move :: moves, by rw [rest, first, List.foldl_cons]⟩
    · exact ⟨[], rfl⟩

end Context

end ConstraintEval
