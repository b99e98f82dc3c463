import ConstraintEval.Text.Blank
import ConstraintEval.Text.Decimal

/-!
# Settings

The settings of a session, read from named values such as those of a process environment. A
name without a value leaves its setting at the default.
-/

namespace ConstraintEval

/-- The settings of a session. -/
structure Settings where
  /-- How deeply declarations can be nested in an evaluation; without limit if missing. -/
  depthLimit : Option Nat
  /-- Which events are traced, if that is set. -/
  traceFilter : Option String
  deriving DecidableEq

/-- A value that is no setting. -/
structure SettingError where
  /-- The name of the value. -/
  name : String
  value : String
  /-- What the value should be, in words. -/
  expected : String
  deriving DecidableEq

/-- What is wrong, in words. -/
def SettingError.message (err : SettingError) : String :=
  s!"invalid {err.name} `{err.value}`: expected {err.expected}"

namespace Settings

/-- The limit on nested declarations that holds if none is set. -/
def usualDepth : Nat := 64

/-- The settings that hold if none is given. -/
def usual : Settings := ⟨some usualDepth, none⟩

instance : Inhabited Settings := ⟨usual⟩

/-- The name of the depth limit. -/
def depthName : String := "ZINC_MAX_EVAL_DEPTH"

/-- The name of the trace filter. -/
def traceName : String := "ZINC_LOG"

/-- Depth limits are below this number. -/
def depthBound : Nat := 18446744073709551616

/-- Whether a text is `unlimited`, in capitals or not. -/
def isUnlimited (text : String) : Bool := text.toList.map Char.toLower == "unlimited".toList

/-- The error of a text that is no depth limit. -/
def depthError (text : String) : SettingError :=
  ⟨depthName, text, "a positive integer or `unlimited`"⟩

/-- Read a depth limit: a positive number that is small enough to count with, or the word for
having none. -/
def readDepth (text : String) : Except SettingError (Option Nat) :=
  if isUnlimited text then .ok none
  else
    match natural? text.toList with
    | some n => if 0 < n ∧ n < depthBound then .ok (some n) else .error (depthError text)
    | none => .error (depthError text)

/-- Read the settings from named values. -/
def read (valueOf : String → Option String) : Except SettingError Settings := do
  let depthLimit ←
    match valueOf depthName with
    | some text => readDepth (trimmed text)
    | none => .ok usual.depthLimit
  let traceFilter := (valueOf traceName).filter fun text ↦ !(trimmed text).isEmpty
  return { depthLimit, traceFilter }

/-- The same settings under another depth limit. -/
def limited (s : Settings) (depthLimit : Option Nat) : Settings := { s with depthLimit }

/-- The same settings with another trace filter. -/
def traced (s : Settings) (filter : String) : Settings := { s with traceFilter := some filter }

end Settings

end ConstraintEval
