import ConstraintEval.Model.Build
import ConstraintEval.Number.IntegerSet
import ConstraintEval.Typing.Kind

/-!
# The standard library

The functions that every model can call, and the builtins that compute them. Functions are
declared in one table, and builtins are listed in another one, each with the signature of the
function that it is written for, by which it finds its declaration when it is bound. Functions on
arrays of several kinds of elements are declared once for each kind.
-/

namespace ConstraintEval

/-- One of the two ends of an order. -/
inductive Side where
  | low
  | high
  deriving DecidableEq

namespace Side

/-- The value nearer to this end. -/
def pick : Side → Integer → Integer → Integer
  | .low, a, b => min a b
  | .high, a, b => max a b

/-- The end of an interval on this side. -/
def endOf : Side → Interval → Integer
  | .low, r => r.lo
  | .high, r => r.hi

/-- The member of a set nearest to this end. -/
def memberOf? : Side → IntegerSet → Option Integer
  | .low, s => s.min?
  | .high, s => s.max?

/-- The function that picks values on this side. -/
def extremumName : Side → String
  | .low => "min"
  | .high => "max"

/-- The function that gives bounds on this side. -/
def boundName : Side → String
  | .low => "lb"
  | .high => "ub"

/-- The function that gives bounds of array elements on this side. -/
def arrayBoundName : Side → String
  | .low => "lb_array"
  | .high => "ub_array"

end Side

/-- A function that is computed and not defined in a model. -/
inductive Builtin where
  /-- The least or greatest of two integers, or of the elements of an array. -/
  | extremum (side : Side)
  /-- The least or greatest member of a set. -/
  | extremumOfSet (side : Side)
  /-- The sum of the elements of an array. -/
  | sum
  /-- The number of elements of an array. -/
  | length
  /-- 1 for true and 0 for false. -/
  | boolToInt
  /-- Whether all elements of an array are true. -/
  | allOf
  /-- Whether some element of an array is true. -/
  | anyOf
  /-- The number of members of a set. -/
  | cardinality
  /-- Whether bounds of an integer can be found. -/
  | isBounded
  /-- A bound of an integer. -/
  | bound (side : Side)
  /-- A bound of all elements of an array. -/
  | boundOfElements (side : Side)
  /-- The set in which a set variable's value lies. -/
  | upperSet
  /-- The domain of an integer. -/
  | domain
  /-- The union of the domains of the elements of an array. -/
  | domainOfElements
  /-- The index set of a dimension, counted from 1. -/
  | indexSet (dimension : Nat)
  /-- The elements of an array under index sets for some number of dimensions. -/
  | rearrange (dimensions : Nat)
  deriving DecidableEq

/-- What kind of value a builtin gives. -/
def Builtin.resultKind : Builtin → ValueKind
  | .extremum _ | .extremumOfSet _ | .sum | .length | .boolToInt | .cardinality | .bound _
  | .boundOfElements _ => .int
  | .allOf | .anyOf | .isBounded => .bool
  | .upperSet | .domain | .domainOfElements | .indexSet _ => .set
  | .rearrange _ => .array

/-- The text of a builtin for a trace: what kind of value it gives. -/
def Builtin.debugText (b : Builtin) : String := s!"BuiltinFn({b.resultKind})"

/-- A builtin with the signature that it is written for. -/
structure Implementation where
  name : String
  params : List Ty
  builtin : Builtin
  deriving DecidableEq

namespace Library

/-- The numbers of dimensions that the library knows. -/
def ranks : List Nat := [1, 2, 3, 4, 5, 6]

/-- The function that gives the index set of one of `n` dimensions. -/
def indexSetName (k n : Nat) : String := if n = 1 then "index_set" else s!"index_set_{k}of{n}"

/-- The function that arranges elements in `n` dimensions. -/
def rearrangeName (n : Nat) : String := s!"array{n}d"

/-- What an array may hold that is arranged in dimensions: known elements, elements that the
solver decides, and elements that may also be absent. -/
def rearranged : List (Mode × Presence) := [(.par, .always), (.var, .always), (.var, .maybe)]

/-! ### Declarations -/

/-- The functions on integers, booleans and sets, and the reductions of arrays. -/
def basics : List Overload :=
  let int : Ty := .int .par
  let set : Ty := .intSet .par
  let bool : Ty := .bool .par
  let varInt : Ty := .int .var
  let optInt : Ty := varInt.orAbsent
  [ ⟨"min", [int, int], int⟩,
    ⟨"min", [int.arraysOf], int⟩,
    ⟨"min", [set], int⟩,
    ⟨"max", [int, int], int⟩,
    ⟨"max", [int.arraysOf], int⟩,
    ⟨"max", [set], int⟩,
    ⟨"min", [varInt, varInt], varInt⟩,
    ⟨"min", [varInt.arraysOf], varInt⟩,
    ⟨"max", [varInt, varInt], varInt⟩,
    ⟨"max", [varInt.arraysOf], varInt⟩,
    ⟨"sum", [int.arraysOf], int⟩,
    ⟨"sum", [varInt.arraysOf], varInt⟩,
    ⟨"length", [.any .var .maybe Ty.anyRank], int⟩,
    ⟨"bool2int", [bool], int⟩,
    ⟨"bool2int", [.bool .var], varInt⟩,
    ⟨"forall", [bool.arraysOf], bool⟩,
    ⟨"exists", [bool.arraysOf], bool⟩,
    ⟨"card", [set], int⟩,
    ⟨"has_bounds", [varInt], bool⟩,
    ⟨"lb", [optInt], int⟩,
    ⟨"ub", [optInt], int⟩,
    ⟨"lb", [varInt], int⟩,
    ⟨"ub", [varInt], int⟩,
    ⟨"lb_array", [optInt.arraysOf], int⟩,
    ⟨"ub_array", [optInt.arraysOf], int⟩,
    ⟨"ub", [.intSet .var], set⟩,
    ⟨"dom", [varInt], set⟩,
    ⟨"dom_array", [varInt.arraysOf], set⟩ ]

/-- The functions that give the index sets of arrays with `n` dimensions. -/
def indexSetsOfRank (n : Nat) : List Overload :=
  (List.range n).map fun i ↦ ⟨indexSetName (i + 1) n, [.any .var .maybe n], .intSet .par⟩

/-- The functions that arrange elements in `n` dimensions. -/
def rearrangersToRank (n : Nat) : List Overload :=
  rearranged.map fun (mode, presence) ↦
    ⟨rearrangeName n, List.replicate n (.intSet .par) ++ [.any mode presence Ty.anyRank],
      .any mode presence n⟩

/-- What is declared, in order. -/
def declarations : List Overload :=
  basics ++ ranks.flatMap indexSetsOfRank ++ ranks.flatMap rearrangersToRank

/-- Declare the standard library in a model. -/
def declareAll : Build Unit := declarations.forM fun f ↦ do
  let _ ← Build.addOverload f

/-! ### Implementations -/

/-- What computes the functions on integers, booleans and sets, and the reductions of arrays. -/
def basicImplementations : List Implementation :=
  let int : Ty := .int .par
  let set : Ty := .intSet .par
  let bool : Ty := .bool .par
  let varInt : Ty := .int .var
  let optInt : Ty := varInt.orAbsent
  [ ⟨"min", [int, int], .extremum .low⟩,
    ⟨"min", [int.arraysOf], .extremum .low⟩,
    ⟨"min", [set], .extremumOfSet .low⟩,
    ⟨"max", [int, int], .extremum .high⟩,
    ⟨"max", [int.arraysOf], .extremum .high⟩,
    ⟨"max", [set], .extremumOfSet .high⟩,
    ⟨"min", [varInt, varInt], .extremum .low⟩,
    ⟨"min", [varInt.arraysOf], .extremum .low⟩,
    ⟨"max", [varInt, varInt], .extremum .high⟩,
    ⟨"max", [varInt.arraysOf], .extremum .high⟩,
    ⟨"sum", [int.arraysOf], .sum⟩,
    ⟨"sum", [varInt.arraysOf], .sum⟩,
    ⟨"length", [.any .var .maybe Ty.anyRank], .length⟩,
    ⟨"bool2int", [bool], .boolToInt⟩,
    ⟨"bool2int", [.bool .var], .boolToInt⟩,
    ⟨"forall", [bool.arraysOf], .allOf⟩,
    ⟨"exists", [bool.arraysOf], .anyOf⟩,
    ⟨"card", [set], .cardinality⟩,
    ⟨"has_bounds", [varInt], .isBounded⟩,
    ⟨"lb", [optInt], .bound .low⟩,
    ⟨"ub", [optInt], .bound .high⟩,
    ⟨"lb", [varInt], .bound .low⟩,
    ⟨"ub", [varInt], .bound .high⟩,
    ⟨"lb_array", [optInt.arraysOf], .boundOfElements .low⟩,
    ⟨"ub_array", [optInt.arraysOf], .boundOfElements .high⟩,
    ⟨"ub", [.intSet .var], .upperSet⟩,
    ⟨"dom", [varInt], .domain⟩,
    ⟨"dom_array", [varInt.arraysOf], .domainOfElements⟩ ]

/-- What computes the index sets of arrays with `n` dimensions. -/
def indexSetImplementations (n : Nat) : List Implementation :=
  (List.range n).map fun i ↦ ⟨indexSetName (i + 1) n, [.any .var .maybe n], .indexSet (i + 1)⟩

/-- What arranges elements in `n` dimensions. -/
def rearrangeImplementations (n : Nat) : List Implementation :=
  rearranged.map fun (mode, presence) ↦
    ⟨rearrangeName n, List.replicate n (.intSet .par) ++ [.any mode presence Ty.anyRank],
      .rearrange n⟩

/-- What there is a builtin for, in the order in which builtins are bound. -/
def implementations : List Implementation :=
  basicImplementations ++ ranks.flatMap indexSetImplementations ++
    ranks.flatMap rearrangeImplementations

/-! ### Functions -/

/-- A function of the standard library. -/
structure Entry where
  overload : Overload
  builtin : Builtin
  deriving DecidableEq

/-- Every function of the standard library, in the order of declaration, each with the builtin in
its place. -/
def entries : List Entry :=
  List.zipWith (fun f impl ↦ ⟨f, impl.builtin⟩) declarations implementations

end Library

end ConstraintEval
