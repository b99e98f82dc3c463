/-!
# Decimal numbers

Reading a number from its decimal digits. Only the digits `0` to `9` count, at least one of
them is needed, zeros in front change nothing, and there is no limit on the size. The main
statement is that the digits of a number read back as the number.
-/

namespace ConstraintEval

/-- The number that decimal digits write, if there are digits and nothing else. -/
def decimal? (cs : List Char) : Option Nat :=
  if cs.isEmpty || !cs.all Char.isDigit then none else some (Nat.ofDigitChars 10 cs 0)

/-- The number that is written with or without a plus sign in front. -/
def natural? : List Char → Option Nat
  | '+' :: cs => decimal? cs
  | cs => decimal? cs

/-- The digits of a number read back as the number. -/
theorem decimal?_toDigits (n : Nat) : decimal? (Nat.toDigits 10 n) = some n := by
  have hsome : (Nat.toDigits 10 n).isEmpty = false := by simp
  have hdigits : (Nat.toDigits 10 n).all Char.isDigit = true :=
    List.all_eq_true.2 fun c hc ↦ Nat.isDigit_of_mem_toDigits (by omega) (by omega) hc
  rw [decimal?, hsome, hdigits, Nat.ofDigitChars_toDigits (by omega) (by omega)]
  rfl

/-- A plus sign in front of digits changes nothing. -/
theorem natural?_plus_cons (cs : List Char) : natural? ('+' :: cs) = decimal? cs := rfl

end ConstraintEval
