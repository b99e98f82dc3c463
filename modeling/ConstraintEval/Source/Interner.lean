/-!
# Interned names

An interner numbers the names of a compilation in the order in which they are first seen.
The empty name is always there, under number 0.
-/

namespace ConstraintEval

/-- The number of an interned name. -/
structure Symbol where
  index : Nat
  deriving DecidableEq, Inhabited

namespace Symbol

/-- The symbol of the empty name. -/
def empty : Symbol := ⟨0⟩

/-- The text of a symbol for a trace. -/
def debugText (s : Symbol) : String := s!"Name({s.index})"

end Symbol

/-- The distinct names seen so far, in the order of their first occurrence. -/
structure Interner where
  names : Array String
  deriving DecidableEq

namespace Interner

/-- The interner that has seen the empty name only. -/
def empty : Interner := ⟨#[""]⟩

instance : Inhabited Interner := ⟨empty⟩

/-- The symbol of a name, if it has been seen. -/
def get? (t : Interner) (name : String) : Option Symbol :=
  (t.names.findIdx? (· == name)).map Symbol.mk

/-- The symbol of a name, with the interner that has seen it. -/
def intern (t : Interner) (name : String) : Symbol × Interner :=
  match t.get? name with
  | some s => (s, t)
  | none => (⟨t.names.size⟩, ⟨t.names.push name⟩)

/-- The name of a symbol. -/
def lookup? (t : Interner) (s : Symbol) : Option String := t.names[s.index]?

/-- The number of names seen. -/
def size (t : Interner) : Nat := t.names.size

/-- Whether no name has been seen. -/
def isEmpty (t : Interner) : Bool := t.names.isEmpty

/-- A name that has been seen is numbered by a place at which it stands. -/
theorem lookup?_of_get?_eq_some {t : Interner} {name : String} {s : Symbol}
    (h : t.get? name = some s) : t.lookup? s = some name := by
  obtain ⟨i, hi, rfl⟩ := Option.map_eq_some_iff.1 h
  obtain ⟨hlt, heq, -⟩ := Array.findIdx?_eq_some_iff_getElem.1 hi
  simp only [lookup?, Array.getElem?_eq_getElem hlt, Option.some.injEq]
  simpa using heq

/-- The symbol that interning gives stands for the name. -/
theorem lookup?_intern (t : Interner) (name : String) :
    (t.intern name).2.lookup? (t.intern name).1 = some name := by
  unfold intern
  split
  · rename_i h
    exact lookup?_of_get?_eq_some h
  · simp [lookup?]

end Interner

end ConstraintEval
