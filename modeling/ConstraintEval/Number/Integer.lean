/-!
# Checked integers

Models compute with the integers between `-2^63` and `2^63 - 1`. Every operation works on
the exact integer first and answers `none` when the exact result does not exist or leaves
that range, so no result ever wraps around. The main statements are the `_eq_some_iff`
lemmas: an operation answers `c` exactly when `c` is the exact result.
-/

namespace ConstraintEval

/-- An integer between `-2^63` and `2^63 - 1`. -/
@[ext] structure Integer where
  val : Int
  least_le : -9223372036854775808 ≤ val
  le_greatest : val ≤ 9223372036854775807
  deriving DecidableEq

namespace Integer

/-- The least value. -/
def least : Integer := ⟨-9223372036854775808, by omega, by omega⟩

/-- The greatest value. -/
def greatest : Integer := ⟨9223372036854775807, by omega, by omega⟩

/-- The value 0. -/
def zero : Integer := ⟨0, by omega, by omega⟩

/-- The value 1. -/
def one : Integer := ⟨1, by omega, by omega⟩

/-- The value of a byte. -/
def ofByte (b : UInt8) : Integer :=
  have := b.toNat_lt
  ⟨b.toNat, by omega, by omega⟩

instance : Inhabited Integer := ⟨zero⟩

instance : LE Integer := ⟨fun a b ↦ a.val ≤ b.val⟩

instance : LT Integer := ⟨fun a b ↦ a.val < b.val⟩

instance (a b : Integer) : Decidable (a ≤ b) := inferInstanceAs (Decidable (a.val ≤ b.val))

instance (a b : Integer) : Decidable (a < b) := inferInstanceAs (Decidable (a.val < b.val))

instance : Min Integer := ⟨fun a b ↦ if a ≤ b then a else b⟩

instance : Max Integer := ⟨fun a b ↦ if a ≤ b then b else a⟩

instance : ToString Integer := ⟨fun a ↦ toString a.val⟩

theorem le_def {a b : Integer} : a ≤ b ↔ a.val ≤ b.val := Iff.rfl

theorem lt_def {a b : Integer} : a < b ↔ a.val < b.val := Iff.rfl

@[simp] theorem val_zero : zero.val = 0 := rfl

@[simp] theorem val_one : one.val = 1 := rfl

theorem val_min (a b : Integer) : (min a b).val = min a.val b.val := by
  show (if a ≤ b then a else b).val = _
  simp only [le_def]
  split <;> omega

theorem val_max (a b : Integer) : (max a b).val = max a.val b.val := by
  show (if a ≤ b then b else a).val = _
  simp only [le_def]
  split <;> omega

/-- The value equal to an exact integer, where it is in range. -/
def ofInt? (n : Int) : Option Integer :=
  if h : -9223372036854775808 ≤ n ∧ n ≤ 9223372036854775807 then some ⟨n, h.1, h.2⟩ else none

/-- The value equal to a count, where it is in range. -/
def ofNat? (n : Nat) : Option Integer := ofInt? n

theorem ofInt?_eq_some_iff {n : Int} {c : Integer} : ofInt? n = some c ↔ c.val = n := by
  unfold ofInt?
  have hlo := c.least_le
  have hhi := c.le_greatest
  split
  · simp only [Option.some.injEq, Integer.ext_iff, eq_comm]
  · simp only [reduceCtorEq, false_iff]
    omega

theorem ofInt?_eq_none_iff {n : Int} :
    ofInt? n = none ↔ n < -9223372036854775808 ∨ 9223372036854775807 < n := by
  unfold ofInt?
  split <;> simp only [reduceCtorEq, false_iff, true_iff] <;> omega

@[simp] theorem ofInt?_val (a : Integer) : ofInt? a.val = some a := ofInt?_eq_some_iff.2 rfl

/-- Whether the value is 0. -/
def isZero (a : Integer) : Bool := a.val == 0

/-- Checked addition. -/
def add? (a b : Integer) : Option Integer := ofInt? (a.val + b.val)

/-- Checked subtraction. -/
def sub? (a b : Integer) : Option Integer := ofInt? (a.val - b.val)

/-- Checked multiplication. -/
def mul? (a b : Integer) : Option Integer := ofInt? (a.val * b.val)

/-- Checked division, rounding toward zero; there is no quotient by 0. -/
def div? (a b : Integer) : Option Integer :=
  if b.val = 0 then none else ofInt? (a.val.tdiv b.val)

/-- Checked remainder, with the sign of the dividend. It exists exactly where the quotient
does, so the least value has no remainder by `-1`. -/
def rem? (a b : Integer) : Option Integer :=
  (a.div? b).bind fun _ ↦ ofInt? (a.val.tmod b.val)

/-- Checked negation. -/
def neg? (a : Integer) : Option Integer := ofInt? (-a.val)

/-- Checked absolute value. -/
def abs? (a : Integer) : Option Integer := ofInt? a.val.natAbs

/-- The next greater value. -/
def succ? (a : Integer) : Option Integer := ofInt? (a.val + 1)

/-- The next smaller value. -/
def pred? (a : Integer) : Option Integer := ofInt? (a.val - 1)

theorem add?_eq_some_iff {a b c : Integer} : a.add? b = some c ↔ c.val = a.val + b.val :=
  ofInt?_eq_some_iff

theorem sub?_eq_some_iff {a b c : Integer} : a.sub? b = some c ↔ c.val = a.val - b.val :=
  ofInt?_eq_some_iff

theorem mul?_eq_some_iff {a b c : Integer} : a.mul? b = some c ↔ c.val = a.val * b.val :=
  ofInt?_eq_some_iff

theorem div?_eq_some_iff {a b c : Integer} :
    a.div? b = some c ↔ b.val ≠ 0 ∧ c.val = a.val.tdiv b.val := by
  unfold div?
  split
  · simp_all
  · simp_all [ofInt?_eq_some_iff]

theorem neg?_eq_some_iff {a c : Integer} : a.neg? = some c ↔ c.val = -a.val :=
  ofInt?_eq_some_iff

theorem succ?_eq_some_iff {a c : Integer} : a.succ? = some c ↔ c.val = a.val + 1 :=
  ofInt?_eq_some_iff

theorem pred?_eq_some_iff {a c : Integer} : a.pred? = some c ↔ c.val = a.val - 1 :=
  ofInt?_eq_some_iff

end Integer

end ConstraintEval
