import ConstraintEval.Eval.Operator

/-!
# Failures of operations

An operation on values does not know where it is applied. When it fails it gives the cause alone,
and no cause that is about a declaration. So what it fails for neither depends on what is pending
nor brings a place along.
-/

namespace ConstraintEval

variable {α β : Type}

/-- Whether failures for the cause always come with a place, that of a declaration or of the name
that leads to it. -/
def Cause.bringsPlace : Cause → Bool
  | .missingValue _ | .selfDependence _ | .excessDepth _ => true
  | _ => false

/-- Whether a cause is about what an operation makes of its operands. -/
def Cause.ofOperation : Cause → Bool
  | .overflow _ | .zeroDivisor | .indexOutside .. | .wrongCellCount .. => true
  | _ => false

/-- If a result is a failure, then one of which the cause alone is known, which is not about a
declaration. -/
def Bare (r : Except Failure α) : Prop :=
  ∀ f, r = .error f → f = .of f.cause ∧ f.cause.bringsPlace = false

theorem bare_ok (a : α) : Bare (.ok a) := fun _ h ↦ nomatch h

theorem bare_of {cause : Cause} (h : cause.bringsPlace = false) :
    Bare (.error (.of cause) : Except Failure α) := by
  intro f eq
  cases eq
  exact ⟨rfl, h⟩

theorem Bare.map {r : Except Failure α} (f : α → β) (h : Bare r) : Bare (f <$> r) := by
  cases r with
  | ok a => exact bare_ok (f a)
  | error g =>
    intro _ eq
    cases eq
    exact h g rfl

/-! ### Values of a kind -/

/-- If a result is a failure, then that of asking a value for another kind. -/
def Misfit (r : Except Failure α) : Prop :=
  ∀ f, r = .error f → ∃ operation expected v, f = Value.kindFailure operation expected v

theorem misfit_ok (a : α) : Misfit (.ok a) := fun _ h ↦ nomatch h

theorem misfit_kindFailure (operation : String) (expected : ValueKind) (v : Value) :
    Misfit (.error (v.kindFailure operation expected) : Except Failure α) := by
  intro f eq
  cases eq
  exact ⟨operation, expected, v, rfl⟩

theorem Misfit.bare {r : Except Failure α} (h : Misfit r) : Bare r := by
  intro f eq
  obtain ⟨operation, expected, v, rfl⟩ := h f eq
  exact ⟨rfl, rfl⟩

namespace Value

theorem misfit_asInt (v : Value) : Misfit v.asInt := by
  cases v with
  | int i => exact misfit_ok i
  | _ => exact misfit_kindFailure _ _ _

theorem misfit_asBool (v : Value) : Misfit v.asBool := by
  cases v with
  | bool b => exact misfit_ok b
  | _ => exact misfit_kindFailure _ _ _

theorem misfit_asSet (v : Value) : Misfit v.asSet := by
  cases v with
  | set s => exact misfit_ok s
  | _ => exact misfit_kindFailure _ _ _

theorem misfit_asArray (v : Value) : Misfit v.asArray := by
  cases v with
  | array a => exact misfit_ok a
  | _ => exact misfit_kindFailure _ _ _

end Value

/-! ### Operators -/

theorem bare_orOverflow (operation : String) (r : Option Integer) :
    Bare (orOverflow operation r) := by
  cases r with
  | some i => exact bare_ok _
  | none => exact bare_of rfl

theorem ArithOp.bare_apply (op : ArithOp) (i j : Integer) : Bare (op.apply i j) := by
  cases op with
  | div | mod =>
    simp only [ArithOp.apply]
    split
    · exact bare_of rfl
    · exact bare_orOverflow _ _
  | _ => exact bare_orOverflow _ _

theorem BinaryOp.bare_apply (op : BinaryOp) (a b : Value) : Bare (op.apply a b) := by
  have refused {r : Option Bool} :
      Bare ((r.map fun t ↦ Except.ok (Value.bool t)).getD (.error (op.kindFailure a b))) := by
    cases r with
    | some t => exact bare_ok _
    | none => exact bare_of rfl
  unfold BinaryOp.apply
  split
  · exact ArithOp.bare_apply _ _ _
  · exact bare_ok _
  · exact refused
  · exact refused
  · exact bare_ok _
  · exact bare_ok _
  · exact bare_ok _
  · exact bare_of rfl

theorem UnaryOp.bare_apply (op : UnaryOp) (v : Value) : Bare (op.apply v) := by
  unfold UnaryOp.apply
  split
  · exact bare_orOverflow _ _
  · exact bare_ok _
  · exact bare_of rfl
  · exact bare_of rfl

/-! ### Arrays -/

private theorem bare_cellPlace (k before : Nat) (is : List Integer) (rs : List Interval) :
    Bare (cellPlace k before is rs) := by
  induction rs generalizing k before is with
  | nil => cases is <;> exact bare_ok _
  | cons r rs ih =>
    cases is with
    | nil => exact bare_ok _
    | cons i is =>
      unfold cellPlace
      split
      · exact ih _ _ _
      · exact bare_of rfl

theorem LazyArray.bare_select (a : LazyArray) (is : List Integer) : Bare (a.select is) := by
  have place : Bare (a.place is) := by
    unfold LazyArray.place
    split
    · exact bare_cellPlace _ _ _ _
    · exact bare_of rfl
  unfold LazyArray.select
  split
  · exact bare_ok _
  · next f h =>
    intro g eq
    cases eq
    exact place f h

theorem LazyArray.bare_ofLiteral (literal : ArrayLiteral) (ty : Ty) :
    Bare (LazyArray.ofLiteral literal ty) := by
  unfold LazyArray.ofLiteral
  split
  · exact bare_ok _
  · exact bare_of rfl

end ConstraintEval
