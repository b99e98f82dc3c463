import ConstraintEval.Proofs.Reductions.Chains

/-!
# Bounds of elements against bounds of extremes

A bound of all elements of an array is the same bound of its least or its greatest element. The
first is found from the bounds of the elements; the second takes the exact extreme where it is
known, and otherwise works the bounds of the extreme out from those of the elements.
-/

namespace ConstraintEval

variable {ctx : Context} {a c d r : ExprKey} {side : Side}

private theorem meaning?_of_bound (side : Side) (mode : Mode) :
    Library.meaning? side.boundName [.int mode] = some (.bound side, .int .par) := by
  cases side <;> cases mode <;> decide +kernel

/-- Let an array of integers be such that, if it is known, its elements are known as well. Then the
bound of its elements on a side comes to the same as the bound on that side of its extreme element,
and if the array has no elements, then both fail; every call meaning a function of the library. -/
theorem bound_of_elements_eq_bound_of_extremum {user : List Overload} {mode : Mode} {p : Pending}
    (declared : ctx.model.overloads.toList = Library.declarations ++ user)
    (registered : ctx.registry = .ofImplementations Library.implementations)
    (integers : (ctx.model.ty a).elementTy = .int mode) (array : (ctx.model.ty a).rank ≠ 0)
    (known : mode = .par → ∀ u, (ctx.evaluator.arrayOf a).resultAt p = some (some u) →
      ∀ e ∈ u.elements, ctx.model.ty e = .int .par)
    (elements : ctx.model.IsLibraryCall c side.arrayBoundName [a])
    (extremum : ctx.model.IsLibraryCall r side.extremumName [a])
    (bound : ctx.model.IsLibraryCall d side.boundName [r]) :
    (ctx.evaluator.eval c).resultAt p = (ctx.evaluator.eval d).resultAt p ∧
      ∀ u, (ctx.evaluator.arrayOf a).resultAt p = some (some u) → u.elements = [] →
        (ctx.evaluator.eval c).resultAt p = some none ∧
        (ctx.evaluator.eval d).resultAt p = some none := by
  obtain ⟨meansExtremum, meansElements⟩ := Library.meaning?_of_integers integers array side
  obtain ⟨computesExtremum, result⟩ := extremum.computes declared registered meansExtremum
  obtain ⟨computesElements, -⟩ := elements.computes declared registered meansElements
  obtain ⟨computesBound, -⟩ := bound.computes declared registered (by
    simpa only [List.map_cons, List.map_nil, result] using meaning?_of_bound side mode)
  have single : (ctx.model.ty a).isSet = false := congrArg Ty.isSet integers
  have folded := resultAt_boundOfElements (p := p) computesElements
  have same : (ctx.evaluator.eval c).resultAt p = (ctx.evaluator.eval d).resultAt p := by
    rw [folded, resultAt_bound computesBound,
      resultAt_bounds_extremum computesExtremum result single known]
    refine congrArg (Value.int <$> ·) ?_
    rw [map_bind]
    exact bind_congr fun u ↦ (map_foldNested? side.endOf_pickBounds u.elements).symm
  have fails (u : LazyArray) (value : (ctx.evaluator.arrayOf a).resultAt p = some (some u))
      (empty : u.elements = []) : (ctx.evaluator.eval c).resultAt p = some none := by
    rw [folded, value]
    change Value.int <$> foldNested? _ _ u.elements = some none
    rw [empty]
    rfl
  exact ⟨same, fun u value empty ↦ ⟨fails u value empty, same ▸ fails u value empty⟩⟩

/-- The numbers 1 and 4 and a variable between them; the literals of an array of the numbers and of
one with the variable; and the bounds of their elements and of their extremes. Some functions are
declared beside the library. -/
def rowBounds (user : List Overload) : List Change :=
  user.map .addOverload ++
    [.int .one, .int (.ofByte 4), .between ⟨0⟩ ⟨1⟩,
      .addVariable ⟨"x", .nowhere, .int .var, some ⟨2⟩, [], none⟩, .name ⟨0⟩,
      .array [⟨0⟩, ⟨1⟩], .call "lb_array" [⟨4⟩], .call "min" [⟨4⟩], .call "lb" [⟨6⟩],
      .array [⟨0⟩, ⟨3⟩], .call "ub_array" [⟨8⟩], .call "max" [⟨8⟩], .call "ub" [⟨10⟩]]

/-- The model of these. -/
def rowBoundsContext (user : List Overload) : Context := Library.context (rowBounds user)

private theorem overloads_rowBounds (user : List Overload) :
    (rowBoundsContext user).model.overloads.toList = Library.declarations ++ user :=
  Library.overloads_context (by simp [rowBounds, List.flatMap_map, Change.functions])

/-- The bound of the known elements 1 and 4 is 1 either way, and with a variable between 1 and 4
the bound of 1 and the variable is 4 either way. -/
theorem bounds_of_some_elements :
    (((rowBoundsContext []).evaluator.eval ⟨5⟩).resultAt (.empty none) =
        some (some (.int .one)) ∧
      ((rowBoundsContext []).evaluator.eval ⟨7⟩).resultAt (.empty none) =
        some (some (.int .one))) ∧
    ((rowBoundsContext []).evaluator.eval ⟨9⟩).resultAt (.empty none) =
        some (some (.int (.ofByte 4))) ∧
      ((rowBoundsContext []).evaluator.eval ⟨11⟩).resultAt (.empty none) =
        some (some (.int (.ofByte 4))) := by
  have declared := overloads_rowBounds []
  have registered : (rowBoundsContext []).registry = .ofImplementations Library.implementations :=
    rfl
  have row : (rowBoundsContext []).model.IsRow ⟨4⟩ [⟨0⟩, ⟨1⟩] := ⟨⟨0⟩, by decide +kernel⟩
  have shown :
      ((rowBoundsContext []).model.IsLibraryCall ⟨5⟩ (Side.arrayBoundName .low) [⟨4⟩] ∧
        (rowBoundsContext []).model.IsLibraryCall ⟨6⟩ (Side.extremumName .low) [⟨4⟩] ∧
        (rowBoundsContext []).model.IsLibraryCall ⟨7⟩ (Side.boundName .low) [⟨6⟩]) ∧
      ((rowBoundsContext []).model.IsLibraryCall ⟨9⟩ (Side.arrayBoundName .high) [⟨8⟩] ∧
        (rowBoundsContext []).model.IsLibraryCall ⟨10⟩ (Side.extremumName .high) [⟨8⟩] ∧
        (rowBoundsContext []).model.IsLibraryCall ⟨11⟩ (Side.boundName .high) [⟨10⟩]) ∧
      ((rowBoundsContext []).model.ty ⟨0⟩ = .int .par ∧
        (rowBoundsContext []).model.ty ⟨1⟩ = .int .par ∧
        (rowBoundsContext []).model.ty ⟨4⟩ = (Ty.int .par).arrayOf 1 ∧
        (rowBoundsContext []).model.ty ⟨8⟩ = (Ty.int .var).arrayOf 1) ∧
      ((rowBoundsContext []).evaluator.eval ⟨5⟩).resultAt (.empty none) =
        some (some (.int .one)) ∧
      ((rowBoundsContext []).evaluator.eval ⟨9⟩).resultAt (.empty none) =
        some (some (.int (.ofByte 4))) := by
    decide +kernel
  obtain ⟨⟨elements, extremum, bound⟩, ⟨elements', extremum', bound'⟩, ⟨ty₀, ty₁, ty, ty'⟩, one,
    four⟩ := shown
  obtain ⟨u, value, held⟩ := resultAt_row (p := .empty none) row (by simp)
  have known (v : LazyArray) (value' : ((rowBoundsContext []).evaluator.arrayOf ⟨4⟩).resultAt
      (.empty none) = some (some v)) :
      ∀ e ∈ v.elements, (rowBoundsContext []).model.ty e = .int .par := by
    obtain rfl := Option.some.inj (Option.some.inj (value.symm.trans value'))
    simp [held, ty₀, ty₁]
  have integers : ((rowBoundsContext []).model.ty ⟨4⟩).elementTy = .int .par := by rw [ty]; rfl
  have integers' : ((rowBoundsContext []).model.ty ⟨8⟩).elementTy = .int .var := by rw [ty']; rfl
  obtain ⟨low, -⟩ := bound_of_elements_eq_bound_of_extremum declared registered integers
    (by rw [ty]; exact Int.one_ne_zero) (fun _ ↦ known) elements extremum bound
  obtain ⟨high, -⟩ := bound_of_elements_eq_bound_of_extremum (p := .empty none) declared registered
    integers' (by rw [ty']; exact Int.one_ne_zero) nofun elements' extremum' bound'
  exact ⟨⟨one, low ▸ one⟩, four, high ▸ four⟩

/-- A function for the least of some integers in a row, which takes less than the one of the
library. -/
def leastOfIntegers : Overload := ⟨"min", [(Ty.int .par).arrayOf 1], .int .par⟩

/-- The function of integers in a row takes the array and nothing computes it: there is a bound of
the elements, and none of their extreme. -/
theorem bound_of_elements_ne_bound_of_extremum :
    (rowBoundsContext [leastOfIntegers]).model.overloads.toList =
        Library.declarations ++ [leastOfIntegers] ∧
      Registry.ofLibrary (rowBoundsContext [leastOfIntegers]).model =
        .ok (rowBoundsContext [leastOfIntegers]).registry ∧
      (rowBoundsContext [leastOfIntegers]).model.IsRow ⟨4⟩ [⟨0⟩, ⟨1⟩] ∧
      (∀ e ∈ [⟨0⟩, ⟨1⟩], (rowBoundsContext [leastOfIntegers]).model.ty e = .int .par) ∧
      (rowBoundsContext [leastOfIntegers]).model.IsCall ⟨5⟩ "lb_array" [⟨4⟩] ∧
      (rowBoundsContext [leastOfIntegers]).model.IsCall ⟨6⟩ "min" [⟨4⟩] ∧
      (rowBoundsContext [leastOfIntegers]).model.IsCall ⟨7⟩ "lb" [⟨6⟩] ∧
      ((rowBoundsContext [leastOfIntegers]).evaluator.eval ⟨5⟩).resultAt (.empty none) =
        some (some (.int .one)) ∧
      ((rowBoundsContext [leastOfIntegers]).evaluator.eval ⟨7⟩).resultAt (.empty none) =
        some none := by
  have declared := overloads_rowBounds [leastOfIntegers]
  have shown : ((rowBoundsContext [leastOfIntegers]).model.IsCall ⟨5⟩ "lb_array" [⟨4⟩] ∧
        (rowBoundsContext [leastOfIntegers]).model.IsCall ⟨6⟩ "min" [⟨4⟩] ∧
        (rowBoundsContext [leastOfIntegers]).model.IsCall ⟨7⟩ "lb" [⟨6⟩]) ∧
      ((rowBoundsContext [leastOfIntegers]).model.ty ⟨0⟩ = .int .par ∧
        (rowBoundsContext [leastOfIntegers]).model.ty ⟨1⟩ = .int .par) ∧
      ((rowBoundsContext [leastOfIntegers]).evaluator.eval ⟨5⟩).resultAt (.empty none) =
        some (some (.int .one)) ∧
      ((rowBoundsContext [leastOfIntegers]).evaluator.eval ⟨7⟩).resultAt (.empty none) =
        some none := by
    decide +kernel
  obtain ⟨⟨elements, extremum, bound⟩, ⟨ty₀, ty₁⟩, one, fails⟩ := shown
  exact ⟨declared, Registry.ofLibrary_eq_ok declared (by decide +kernel),
    ⟨⟨0⟩, by decide +kernel⟩, by simp [ty₀, ty₁], elements, extremum, bound, one, fails⟩

end ConstraintEval
