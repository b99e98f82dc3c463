/-!
# Types and their order

A type says what base values it has, who decides them, whether they may be absent, whether
they are sets, and in how many dimensions they are arranged. `a ≤ b` holds when a value of
type `a` can be passed where `b` is expected: a known value for one that the solver decides, a
present value for one that may be absent, any base for the base variable, and an array of any
number of dimensions for the rank wildcard. Lists of types are ordered pointwise by `Fits`.
-/

namespace ConstraintEval

/-- What a type's values are made of. -/
inductive Base where
  | int
  | bool
  | float
  /-- The base variable, which stands for every base. -/
  | any
  deriving DecidableEq, Inhabited

/-- Who decides a value. -/
inductive Mode where
  /-- The model: the value is known before solving. -/
  | par
  /-- The solver. -/
  | var
  deriving DecidableEq, Inhabited

/-- Whether a value may be absent. -/
inductive Presence where
  | always
  | maybe
  deriving DecidableEq, Inhabited

instance : LE Mode := ⟨fun a b ↦ a = .par ∨ b = .var⟩

instance (a b : Mode) : Decidable (a ≤ b) := inferInstanceAs (Decidable (_ ∨ _))

instance : Max Mode := ⟨fun a b ↦ if a ≤ b then b else a⟩

instance : LE Presence := ⟨fun a b ↦ a = .always ∨ b = .maybe⟩

instance (a b : Presence) : Decidable (a ≤ b) := inferInstanceAs (Decidable (_ ∨ _))

instance : Max Presence := ⟨fun a b ↦ if a ≤ b then b else a⟩

/-- A type. -/
@[ext] structure Ty where
  base : Base
  mode : Mode
  presence : Presence
  isSet : Bool
  /-- 0 for a scalar, the number of dimensions for an array, `Ty.anyRank` for an array of any
  number of dimensions. No value has a type with another negative number here. -/
  rank : Int
  deriving DecidableEq, Inhabited

/-- A property of a type that bears on what it can be passed for. -/
inductive Flag where
  | decided
  | absent
  | set
  | array
  | anyRank
  | anyBase
  deriving DecidableEq

/-- The place of a flag in the sum of flags. -/
def Flag.bit : Flag → Nat
  | .decided => 1
  | .absent => 2
  | .set => 4
  | .array => 8
  | .anyRank => 16
  | .anyBase => 32

/-- The flags that the type of a parameter may have where the type of its argument lacks them. -/
def Flag.widening : List Flag := [.decided, .absent]

namespace Ty

/-- The rank wildcard. -/
def anyRank : Int := -1

/-- The greatest number of dimensions that types tell apart. -/
def maxRank : Nat := 127

/-- Single integers. -/
def int (mode : Mode) : Ty := ⟨.int, mode, .always, false, 0⟩

/-- Single booleans. -/
def bool (mode : Mode) : Ty := ⟨.bool, mode, .always, false, 0⟩

/-- Sets of integers. -/
def intSet (mode : Mode) : Ty := ⟨.int, mode, .always, true, 0⟩

/-- Values of every base. -/
def any (mode : Mode) (presence : Presence) (rank : Int) : Ty := ⟨.any, mode, presence, false, rank⟩

/-- The type of what nothing is known about. -/
def unknown : Ty := any .par .always 0

/-- The same values arranged in another number of dimensions. -/
def inRank (t : Ty) (rank : Int) : Ty := { t with rank }

/-- The same values decided by another party. -/
def inMode (t : Ty) (mode : Mode) : Ty := { t with mode }

/-- The same values, possibly absent. -/
def orAbsent (t : Ty) : Ty := { t with presence := .maybe }

/-- The type of an array's elements. -/
def elementTy (t : Ty) : Ty := t.inRank 0

/-- The type of an array with `n` dimensions and elements of a type. -/
def arrayOf (t : Ty) (n : Nat) : Ty := t.inRank (min n maxRank : Nat)

/-- The type of arrays of any number of dimensions with elements of a type. -/
def arraysOf (t : Ty) : Ty := t.inRank anyRank

/-- Whether the values are arrays. -/
def isArray (t : Ty) : Bool := t.rank != 0

/-- Whether the solver decides the values. -/
def isDecided (t : Ty) : Bool := t.mode == .var

/-- Whether the values are single integers. -/
def isScalarInt (t : Ty) : Bool := t.base == .int && !t.isSet && !t.isArray

/-- The flags that a type has, in the order of their bits. -/
def flags (t : Ty) : List Flag :=
  [(t.isDecided, Flag.decided), (t.presence == .maybe, .absent), (t.isSet, .set),
    (t.isArray, .array), (t.rank == anyRank, .anyRank), (t.base == .any, .anyBase)].filterMap
      fun (has, flag) ↦ if has then some flag else none

/-- The sum of a type's flags. -/
def bits (t : Ty) : Nat := t.flags.foldr (fun flag n ↦ flag.bit + n) 0

instance : LE Ty where
  le a b := a.mode ≤ b.mode ∧ a.presence ≤ b.presence ∧ a.isSet = b.isSet ∧
    (b.base = .any ∨ a.base = b.base) ∧ if b.rank = anyRank then a.rank ≠ 0 else a.rank = b.rank

theorem le_def {a b : Ty} :
    a ≤ b ↔ a.mode ≤ b.mode ∧ a.presence ≤ b.presence ∧ a.isSet = b.isSet ∧
      (b.base = .any ∨ a.base = b.base) ∧
        if b.rank = anyRank then a.rank ≠ 0 else a.rank = b.rank := Iff.rfl

instance (a b : Ty) : Decidable (a ≤ b) :=
  decidable_of_iff' _ le_def

/-- The text of the arrangement in dimensions. -/
def rankText (rank : Int) : String :=
  if rank = 0 then ""
  else if rank = anyRank then "array[$_] of "
  else "array[" ++ ",".intercalate (List.replicate rank.toNat "int") ++ "] of "

/-- The text of a base. -/
def baseText : Base → String
  | .int => "int"
  | .bool => "bool"
  | .float => "float"
  | .any => "$T"

/-- The text of a type, as a declaration writes it. -/
def text (t : Ty) : String :=
  rankText t.rank ++ (if t.isDecided then "var " else "") ++
    (if t.presence = .maybe then "opt " else "") ++ (if t.isSet then "set of " else "") ++
      baseText t.base

instance : ToString Ty := ⟨text⟩

end Ty

/-- Arguments of the first types can be passed for parameters of the second types. -/
def Fits : List Ty → List Ty → Prop
  | [], [] => True
  | a :: as, p :: ps => a ≤ p ∧ Fits as ps
  | _, _ => False

/-- Whether arguments fit is decided position by position. -/
def decideFits : (as ps : List Ty) → Decidable (Fits as ps)
  | [], [] => isTrue trivial
  | [], _ :: _ => isFalse id
  | _ :: _, [] => isFalse id
  | a :: as, p :: ps =>
    match inferInstanceAs (Decidable (a ≤ p)), decideFits as ps with
    | isTrue h, isTrue hs => isTrue ⟨h, hs⟩
    | isFalse h, _ => isFalse fun hf ↦ h hf.1
    | _, isFalse hs => isFalse fun hf ↦ hs hf.2

instance (as ps : List Ty) : Decidable (Fits as ps) := decideFits as ps

/-- Arguments fit parameters exactly when there are as many and each fits its own. -/
theorem fits_iff {as ps : List Ty} :
    Fits as ps ↔ as.length = ps.length ∧ ∀ x ∈ as.zip ps, x.1 ≤ x.2 := by
  induction as generalizing ps with
  | nil => cases ps <;> simp [Fits]
  | cons a as ih =>
    cases ps with
    | nil => simp [Fits]
    | cons p ps =>
      simp only [Fits, ih, List.length_cons, List.zip_cons_cons, List.forall_mem_cons,
        Nat.add_right_cancel_iff]
      exact and_left_comm

/-- The text of a parameter list. -/
def paramsText (params : List Ty) : String :=
  "(" ++ ", ".intercalate (params.map Ty.text) ++ ")"

end ConstraintEval
