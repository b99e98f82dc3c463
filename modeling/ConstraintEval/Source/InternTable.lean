import ConstraintEval.Source.Interner
import Mathlib.Data.List.Induction

/-!
# Tables of interned names

An interner finds the number of a name in a map and the name of a number in a list of names. The
numbers are words of 32 bits, so there is an end to them. The main statement is `Inverse.intern`:
the map and the list stay inverse to each other.
-/

namespace ConstraintEval

/-- The distinct names seen so far, by their numbers and with their numbers. -/
structure InternTable where
  /-- The numbers of the names. -/
  numbers : Std.HashMap String UInt32
  /-- The names in the order of their numbers. -/
  names : Array String

namespace InternTable

/-- The symbol of a name, if it has been seen. -/
def get? (t : InternTable) (name : String) : Option Symbol :=
  t.numbers[name]?.map fun n ↦ ⟨n.toNat⟩

/-- The name of a symbol. -/
def lookup? (t : InternTable) (s : Symbol) : Option String := t.names[s.index]?

/-- The number of names seen. -/
def size (t : InternTable) : Nat := t.names.size

/-- The number for the next name, unless there are no more numbers. -/
def next? (t : InternTable) : Option UInt32 :=
  if h : t.size < UInt32.size then some (.ofNatLT t.size h) else none

/-- Give a name a number. -/
def push (t : InternTable) (name : String) (n : UInt32) : InternTable :=
  ⟨t.numbers.insert name n, t.names.push name⟩

/-- The table in which the empty name has number 0 and no other name is seen. -/
def new : InternTable := push ⟨∅, #[]⟩ "" 0

instance : Inhabited InternTable := ⟨new⟩

/-- The symbol of a name, which is added unless it is there. Without a number for it the name is
refused. -/
def add (t : InternTable) (name : String) : Option Symbol × InternTable :=
  match t.get? name with
  | some s => (some s, t)
  | none =>
    match t.next? with
    | some n => (some ⟨n.toNat⟩, t.push name n)
    | none => (none, t)

/-- The symbol of a name, with the table that has seen it. What is not found at first is looked up
once more before it is added, as others may have added it meanwhile. -/
def intern (t : InternTable) (name : String) : Option Symbol × InternTable :=
  match t.get? name with
  | some s => (some s, t)
  | none => t.add name

/-- A name has a number exactly if it has the place of that number. -/
structure Inverse (t : InternTable) : Prop where
  number_iff : ∀ (name : String) (n : UInt32),
    t.numbers[name]? = some n ↔ t.names[n.toNat]? = some name
  size_le : t.size ≤ UInt32.size

variable {t : InternTable} {name : String} {n : UInt32}

theorem next?_eq_some_iff : t.next? = some n ↔ n.toNat = t.size := by
  unfold next?
  split
  · next h =>
    rw [Option.some.injEq, ← UInt32.toNat_inj, UInt32.toNat_ofNatLT, eq_comm]
  · next h =>
    have := n.toNat_lt
    have : UInt32.size = 2 ^ 32 := rfl
    exact iff_of_false nofun (by omega)

theorem next?_eq_none_iff : t.next? = none ↔ UInt32.size ≤ t.size := by
  unfold next?
  split
  · next h => exact iff_of_false nofun (Nat.not_le.2 h)
  · next h => exact iff_of_true rfl (Nat.not_lt.1 h)

/-- A name that has been seen keeps its symbol, any other name gets the next number, and it is
refused if there is none. -/
theorem intern_cases (t : InternTable) (name : String) :
    (∃ s, t.get? name = some s ∧ t.intern name = (some s, t)) ∨
      t.get? name = none ∧ (∃ n : UInt32, n.toNat = t.size ∧
        t.intern name = (some ⟨t.size⟩, t.push name n)) ∨
      t.get? name = none ∧ UInt32.size ≤ t.size ∧ t.intern name = (none, t) := by
  unfold intern add
  cases seen : t.get? name with
  | some s => exact .inl ⟨s, rfl, rfl⟩
  | none =>
    refine .inr ?_
    cases next : t.next? with
    | some n =>
      have number := next?_eq_some_iff.1 next
      exact .inl ⟨rfl, n, number, by simp only [number]⟩
    | none => exact .inr ⟨rfl, next?_eq_none_iff.1 next, rfl⟩

theorem get?_eq_none_iff : t.get? name = none ↔ t.numbers[name]? = none := Option.map_eq_none_iff

namespace Inverse

/-- Giving the next number to a new name keeps the map and the list inverse to each other. -/
theorem push (h : t.Inverse) (fresh : t.get? name = none) (number : n.toNat = t.size) :
    (t.push name n).Inverse where
  number_iff a k := by
    rw [get?_eq_none_iff] at fresh
    have old := h.number_iff a k
    simp only [InternTable.push, Std.HashMap.getElem?_insert, Array.getElem?_push, beq_iff_eq]
    split <;> split
    · next same last =>
      have numbers : n = k := UInt32.toNat_inj.1 (number.trans last.symm)
      rw [numbers, same]
      exact iff_of_true rfl rfl
    · next same earlier =>
      subst same
      rw [fresh] at old
      rw [← old, Option.some.injEq]
      exact iff_of_false (fun numbers ↦ earlier (numbers ▸ number)) nofun
    · next other last =>
      rw [old, last, Array.getElem?_size]
      exact iff_of_false nofun fun same ↦ other (Option.some.inj same)
    · exact old
  size_le := by
    have := n.toNat_lt
    have : UInt32.size = 2 ^ 32 := rfl
    simp only [InternTable.push, size, Array.size_push] at number ⊢
    omega

theorem new : new.Inverse := by
  refine push ⟨fun name n ↦ ?_, Nat.zero_le _⟩ ?_ rfl
  · exact iff_of_false (by simp) (by simp)
  · simp [get?_eq_none_iff]

theorem intern (h : t.Inverse) (name : String) : (t.intern name).2.Inverse := by
  obtain ⟨s, -, eq⟩ | ⟨fresh, n, number, eq⟩ | ⟨-, -, eq⟩ := t.intern_cases name <;> rw [eq]
  · exact h
  · exact h.push fresh number
  · exact h

end Inverse

end InternTable

end ConstraintEval
