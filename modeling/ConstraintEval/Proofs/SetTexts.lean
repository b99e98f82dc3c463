import ConstraintEval.Number.IntegerSet
import Mathlib.Data.List.TakeWhile

/-!
# Texts of sets

The text of a set tells which set it is. A number ends where the first character stands that is
neither a digit nor a minus sign, and a run ends where after a number no two dots go on to another
one. So the runs can be told from a list of them, and the brace in front tells such a list from an
interval that stands alone.
-/

namespace ConstraintEval

variable {back back' : List Char}

/-! ### Numbers -/

/-- A character that is part of a number. -/
def isNumeral (c : Char) : Bool := c.isDigit || c == '-'

/-- The characters that write a number. -/
def numeral (a : Integer) : List Char := (toString a).toList

section Numbers

variable {a b : Integer}

/-- A number is written with its digits, after a minus sign if it is negative. -/
theorem numeral_cases (a : Integer) :
    0 ≤ a.val ∧ numeral a = Nat.toDigits 10 a.val.toNat ∨
      a.val < 0 ∧ numeral a = '-' :: Nat.toDigits 10 (-a.val).toNat := by
  have written : numeral a = a.val.repr.toList := rfl
  rw [written, Int.repr_eq_if]
  by_cases sign : 0 ≤ a.val
  · exact .inl ⟨sign, by rw [if_pos sign, Nat.toList_repr]⟩
  · refine .inr ⟨by omega, ?_⟩
    rw [if_neg sign, String.toList_append, Nat.toList_repr]
    rfl

private theorem isDigit_of_mem_toDigits (n : Nat) : ∀ c ∈ Nat.toDigits 10 n, c.isDigit = true :=
  fun _ mem ↦ Nat.isDigit_of_mem_toDigits (by decide) (by decide) mem

private theorem toDigits_injective {n k : Nat} (h : Nat.toDigits 10 n = Nat.toDigits 10 k) :
    n = k := by
  have read := congrArg (Nat.ofDigitChars 10 · 0) h
  simpa only [Nat.ofDigitChars_toDigits (b := 10) (by decide) (by decide)] using read

/-- No digits begin with a minus sign. -/
private theorem toDigits_ne_sign_cons (n : Nat) (cs : List Char) :
    Nat.toDigits 10 n ≠ '-' :: cs := by
  intro same
  have digit := isDigit_of_mem_toDigits n '-' (same ▸ List.mem_cons_self)
  exact absurd digit (by decide)

theorem isNumeral_of_mem_numeral : ∀ c ∈ numeral a, isNumeral c = true := by
  intro c mem
  rw [isNumeral, Bool.or_eq_true, beq_iff_eq]
  obtain ⟨-, written⟩ | ⟨-, written⟩ := numeral_cases a <;> rw [written] at mem
  · exact .inl (isDigit_of_mem_toDigits _ c mem)
  · rcases List.mem_cons.1 mem with sign | mem
    · exact .inr sign
    · exact .inl (isDigit_of_mem_toDigits _ c mem)

theorem numeral_ne_nil (a : Integer) : numeral a ≠ [] := by
  obtain ⟨-, written⟩ | ⟨-, written⟩ := numeral_cases a <;> rw [written]
  · exact Nat.toDigits_ne_nil
  · exact List.cons_ne_nil _ _

theorem numeral_injective (h : numeral a = numeral b) : a = b := by
  apply Integer.ext
  obtain ⟨ha, written⟩ | ⟨ha, written⟩ := numeral_cases a <;>
    obtain ⟨hb, written'⟩ | ⟨hb, written'⟩ := numeral_cases b <;> rw [written, written'] at h
  · have := toDigits_injective h
    omega
  · exact absurd h (toDigits_ne_sign_cons _ _)
  · exact absurd h.symm (toDigits_ne_sign_cons _ _)
  · have := toDigits_injective (List.cons.inj h).2
    omega

private theorem takeWhile_numeral (ends : ∀ c ∈ back.head?, isNumeral c = false) :
    (numeral a ++ back).takeWhile isNumeral = numeral a := by
  rw [List.takeWhile_append_of_pos isNumeral_of_mem_numeral]
  cases back with
  | nil => exact List.append_nil _
  | cons c back => rw [List.takeWhile_cons_of_neg (by simp [ends c rfl]), List.append_nil]

/-- A number can be told from a text that begins with it and does not go on with it. -/
theorem numeral_append_inj (ends : ∀ c ∈ back.head?, isNumeral c = false)
    (ends' : ∀ c ∈ back'.head?, isNumeral c = false)
    (same : numeral a ++ back = numeral b ++ back') : a = b ∧ back = back' := by
  have first := congrArg (List.takeWhile isNumeral) same
  rw [takeWhile_numeral ends, takeWhile_numeral ends'] at first
  rw [first, List.append_cancel_left_eq] at same
  exact ⟨numeral_injective first, same⟩

end Numbers

namespace IntegerSet

/-! ### Runs -/

section Runs

variable {r s : Interval} {rs ss : List Interval}

/-- What is written of a run after its first number. -/
private def lastPart (r : Interval) : List Char :=
  if r.lo = r.hi then [] else '.' :: '.' :: numeral r.hi

private theorem toList_runText (r : Interval) :
    (runText r).toList = numeral r.lo ++ lastPart r := by
  unfold runText lastPart
  split
  · exact (List.append_nil _).symm
  · simp [numeral, String.toList_append, toString]

/-- A text does not go on with a run. -/
private def EndsRun (back : List Char) : Prop := ∀ c ∈ back.head?, isNumeral c = false ∧ c ≠ '.'

private theorem not_endsRun_dot_cons (cs : List Char) : ¬ EndsRun ('.' :: cs) :=
  fun ends ↦ (ends _ rfl).2 rfl

private theorem ends_lastPart (ends : EndsRun back) :
    ∀ c ∈ (lastPart r ++ back).head?, isNumeral c = false := by
  unfold lastPart
  split
  · exact fun c mem ↦ (ends c mem).1
  · rintro c ⟨⟩
    decide

/-- A run can be told from a text that begins with it and does not go on with it. -/
private theorem runText_append_inj (ends : EndsRun back) (ends' : EndsRun back')
    (same : (runText r).toList ++ back = (runText s).toList ++ back') : r = s ∧ back = back' := by
  rw [toList_runText, toList_runText, List.append_assoc, List.append_assoc] at same
  obtain ⟨lo, same⟩ := numeral_append_inj (ends_lastPart ends) (ends_lastPart ends') same
  unfold lastPart at same
  split at same <;> split at same
  · next hr hs => exact ⟨Interval.ext lo (by rw [← hr, ← hs, lo]), same⟩
  · rw [List.nil_append] at same
    exact absurd (same ▸ ends) (not_endsRun_dot_cons _)
  · rw [List.nil_append] at same
    exact absurd (same ▸ ends') (not_endsRun_dot_cons _)
  · obtain ⟨hi, same⟩ := numeral_append_inj (fun c mem ↦ (ends c mem).1)
      (fun c mem ↦ (ends' c mem).1) (List.cons.inj (List.cons.inj same).2).2
    exact ⟨Interval.ext lo hi, same⟩

/-- What is written of some runs after the first one. -/
private def furtherText (rs : List Interval) : List Char :=
  rs.flatMap fun r ↦ ',' :: ' ' :: (runText r).toList

private theorem endsRun_furtherText (rs : List Interval) : EndsRun (furtherText rs) := by
  cases rs with
  | nil => exact nofun
  | cons r rs =>
    rintro c ⟨⟩
    decide

private theorem runText_further_inj
    (same : (runText r).toList ++ furtherText rs = (runText s).toList ++ furtherText ss) :
    r = s ∧ furtherText rs = furtherText ss :=
  runText_append_inj (endsRun_furtherText rs) (endsRun_furtherText ss) same

private theorem runText_injective (same : (runText r).toList = (runText s).toList) : r = s :=
  (@runText_further_inj r s [] [] (congrArg (· ++ []) same)).1

private theorem furtherText_injective (same : furtherText rs = furtherText ss) : rs = ss := by
  induction rs generalizing ss with
  | nil =>
    cases ss with
    | nil => rfl
    | cons s ss => cases same
  | cons r rs ih =>
    cases ss with
    | nil => cases same
    | cons s ss =>
      have same := (List.cons.inj (List.cons.inj same).2).2
      obtain ⟨rfl, further⟩ := runText_further_inj same
      rw [ih further]

private theorem intercalate_cons (cs : List Char) (ts : List (List Char)) :
    [',', ' '].intercalate (cs :: ts) = cs ++ ts.flatMap fun t ↦ ',' :: ' ' :: t := by
  induction ts generalizing cs with
  | nil => simp
  | cons t ts ih => simp [List.intercalate_cons_cons, ih]

/-- What is written between the braces of a list of runs. -/
private def listText (rs : List Interval) : List Char := (", ".intercalate (rs.map runText)).toList

private theorem listText_cons (r : Interval) (rs : List Interval) :
    listText (r :: rs) = (runText r).toList ++ furtherText rs := by
  rw [listText, String.toList_intercalate, List.map_cons, List.map_cons]
  refine (intercalate_cons ..).trans ?_
  rw [furtherText, List.map_map, List.flatMap_map]
  rfl

private theorem listText_injective (same : listText rs = listText ss) : rs = ss := by
  have nonempty (r : Interval) (rs : List Interval) : listText (r :: rs) ≠ [] := by
    rw [listText_cons, toList_runText, List.append_assoc]
    exact List.append_ne_nil_of_left_ne_nil (numeral_ne_nil r.lo) _
  cases rs with
  | nil =>
    cases ss with
    | nil => rfl
    | cons s ss => exact absurd same.symm (nonempty s ss)
  | cons r rs =>
    cases ss with
    | nil => exact absurd same (nonempty r rs)
    | cons s ss =>
      rw [listText_cons, listText_cons] at same
      obtain ⟨rfl, further⟩ := runText_further_inj same
      rw [furtherText_injective further]

end Runs

/-! ### Sets -/

private theorem toList_braced (s : IntegerSet) :
    (text.braced s).toList = '\x7b' :: (listText s.runs ++ ['\x7d']) := by
  rw [text.braced, String.toList_append, String.toList_append]
  rfl

/-- The text of a set is that of its only run or a list of its runs in braces. -/
private theorem text_cases (s : IntegerSet) :
    (∃ r, s.runs = [r] ∧ s.text.toList = (runText r).toList) ∨
      s.text.toList = '\x7b' :: (listText s.runs ++ ['\x7d']) := by
  rw [← toList_braced]
  unfold text interval?
  split
  · next r single =>
    split
    · exact .inr rfl
    · refine .inl ⟨r, ?_, rfl⟩
      split at single
      · next runs => rw [runs, Option.some.inj single]
      · cases single
  · exact .inr rfl

/-- A run is not written with a brace in front. -/
private theorem runText_ne_brace_cons (r : Interval) (cs : List Char) :
    (runText r).toList ≠ '\x7b' :: cs := by
  intro same
  rw [toList_runText] at same
  obtain ⟨c, rest, first⟩ := List.exists_cons_of_ne_nil (numeral_ne_nil r.lo)
  have part : isNumeral c = true := isNumeral_of_mem_numeral c (first ▸ List.mem_cons_self)
  rw [first] at same
  cases (List.cons.inj same).1
  exact absurd part (by decide)

/-- Sets with the same text are the same. -/
theorem text_inj {a b : IntegerSet} : a.text = b.text ↔ a = b := by
  refine ⟨fun same ↦ IntegerSet.ext ?_, congrArg text⟩
  have same := congrArg String.toList same
  obtain ⟨r, ha, alone⟩ | list := text_cases a <;> obtain ⟨s, hb, alone'⟩ | list' := text_cases b
  · rw [alone, alone'] at same
    rw [ha, hb, runText_injective same]
  · rw [alone, list'] at same
    exact absurd same (runText_ne_brace_cons _ _)
  · rw [list, alone'] at same
    exact absurd same.symm (runText_ne_brace_cons _ _)
  · rw [list, list', List.cons_inj_right, List.append_cancel_right_eq] at same
    exact listText_injective same

end IntegerSet

end ConstraintEval
