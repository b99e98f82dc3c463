import ConstraintEval.Eval.Failure
import ConstraintEval.Source.Key

/-!
# Pending declarations

While the value of a declaration is worked out the declaration is pending. Coming to a
declaration that is pending already means that it needs its own value, which is a failure.
There may also be a limit on how deeply declarations nest; the further steps along a chain of
names are walked without nesting and do not count.
-/

namespace ConstraintEval

/-- A visit to a declaration. -/
structure Visit where
  key : VarKey
  name : String
  /-- The place of the name that led here. -/
  span : Span
  deriving DecidableEq

/-- A visit that is going on. -/
structure OpenVisit where
  visit : Visit
  /-- Whether it counts against the depth limit. -/
  nested : Bool
  deriving DecidableEq

/-- The declarations whose values are being worked out. -/
@[ext] structure Pending where
  /-- The visits that are going on, the innermost first. -/
  visits : List OpenVisit
  /-- The variables that are visited. -/
  visited : List VarKey
  /-- The number of visits that count against the limit. -/
  nesting : Nat
  /-- How many visits may count; any number if there is no limit. -/
  limit : Option Nat
  deriving DecidableEq

namespace Pending

/-- Nothing is pending. -/
def empty (limit : Option Nat) : Pending := ⟨[], [], 0, limit⟩

instance : Inhabited Pending := ⟨empty none⟩

/-- The number of pending declarations. -/
def size (p : Pending) : Nat := p.visits.length

/-- Whether nothing is pending. -/
def isEmpty (p : Pending) : Bool := p.visits.isEmpty

/-- Whether a declaration is pending. -/
def holds (p : Pending) (v : VarKey) : Bool := p.visited.contains v

/-- The pending declarations as a trail. -/
def trail (p : Pending) : Trail := p.visits.map fun o ↦ ⟨o.visit.name, some o.visit.span⟩

/-- Give a failure the trail of pending declarations, unless there are none or it has a trail
already. -/
def addTrail (p : Pending) (f : Failure) : Failure :=
  if p.isEmpty || f.trail.isSome then f else f.trailing p.trail

/-- The failure of coming to a declaration that needs its own value. -/
def selfDependence (p : Pending) (v : Visit) : Failure :=
  p.addTrail <|
    ((Failure.of (.selfDependence v.name)).placed v.span).remarked
      ⟨s!"`{v.name}` is needed to compute its own value", none⟩

/-- The failure of nesting declarations too deeply. -/
def excessDepth (p : Pending) (limit : Nat) (v : Visit) : Failure :=
  p.addTrail ((Failure.of (.excessDepth limit)).placed v.span)

/-- Begin a visit. -/
def add (p : Pending) (v : Visit) (nested : Bool) : Pending where
  visits := ⟨v, nested⟩ :: p.visits
  visited := v.key :: p.visited
  nesting := p.nesting + nested.toNat
  limit := p.limit

/-- Begin a visit, unless the declaration is pending already or, where the visit counts, the
limit is reached. -/
def enter (p : Pending) (v : Visit) (nested : Bool) : Except Failure Pending :=
  if p.holds v.key then .error (p.selfDependence v)
  else
    match p.limit with
    | none => .ok (p.add v nested)
    | some limit =>
      if nested && limit ≤ p.nesting then .error (p.excessDepth limit v)
      else .ok (p.add v nested)

/-- Begin a visit that counts against the limit. -/
def enterNested (p : Pending) (v : Visit) : Except Failure Pending := p.enter v true

/-- Begin a visit along a chain of names, which does not count against the limit. -/
def enterAlong (p : Pending) (v : Visit) : Except Failure Pending := p.enter v false

/-- End the innermost visit. -/
def leave (p : Pending) : Pending :=
  match p.visits with
  | [] => p
  | o :: rest =>
    { p with
      visits := rest
      visited := p.visited.erase o.visit.key
      nesting := p.nesting - o.nested.toNat }

/-- End a number of visits. -/
def leaveMany : Nat → Pending → Pending
  | 0, p => p
  | n + 1, p => leaveMany n p.leave

/-- End visits until no more than `size` are going on. -/
def leaveTo (p : Pending) (size : Nat) : Pending := leaveMany (p.size - size) p

/-- Ending a visit that has just begun leaves no trace. -/
theorem leave_add (p : Pending) (v : Visit) (nested : Bool) : (p.add v nested).leave = p := by
  ext1 <;> simp [leave, add]

/-- Ending visits until all of them are left ends none. -/
theorem leaveTo_size (p : Pending) : p.leaveTo p.size = p := by
  simp [leaveTo, leaveMany]

/-- Ending visits until those are left that were going on before the last one ends just that. -/
theorem leaveTo_add (p : Pending) (v : Visit) (nested : Bool) :
    (p.add v nested).leaveTo p.size = p := by
  have one : (p.add v nested).size - p.size = 1 := by simp [size, add]
  rw [leaveTo, one, leaveMany, leave_add, leaveMany]

end Pending

end ConstraintEval
