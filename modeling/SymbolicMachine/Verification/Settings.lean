import SymbolicMachine.Memory.Strategy
import SymbolicMachine.Text.Blank
import SymbolicMachine.Text.Numeral

namespace SymbolicMachine

/-!
# Settings

A verification is governed by the shape of its memory and by a limit on the number
of executed instructions.  Both can be set by variables of the environment.  What is
not set keeps its default.
-/

/-- Why settings cannot be read. -/
inductive SettingsError where
  /-- No strategy has this name. -/
  | unknownStrategy (text : String)
  /-- The step limit is not a number. -/
  | invalidStepLimit (text : String) (cause : Text.NumeralError)
  /-- The step limit is zero. -/
  | zeroStepLimit
  deriving DecidableEq, Repr

namespace SettingsError

/-- What a settings error says.  Texts are quoted as they were given. -/
def message : SettingsError -> String
  | unknownStrategy text => s!"unknown memory model `{text}`, expected `dense` or `array`"
  | invalidStepLimit text cause => s!"invalid step limit `{text}`: {cause.message}"
  | zeroStepLimit => "step limit must be positive"

end SettingsError

namespace Strategy

/-- The strategy that a text names, in capital or small letters and with blanks
around it. -/
def ofText (text : String) : Except SettingsError Strategy :=
  match ofName? ((Text.trim text).map Char.toLower) with
  | some strategy => return strategy
  | none => throw (.unknownStrategy text)

end Strategy

/-- What governs a verification. -/
structure Settings where
  strategy : Strategy := .dense
  stepLimit : Nat := 100000
  deriving DecidableEq, Repr

namespace Settings

/-- The variable that names the memory strategy. -/
def strategyVariable : String := "LEGATO_MEMORY_MODEL"

/-- The variable that holds the step limit. -/
def stepLimitVariable : String := "LEGATO_STEP_LIMIT"

/-- Step limits lie below this bound. -/
def stepLimitBound : Nat := UInt64.size

/-- The step limit that a text states, with blanks around it. -/
def readStepLimit (text : String) : Except SettingsError Nat :=
  match Text.readNumeral stepLimitBound (Text.trim text) with
  | .error cause => throw (.invalidStepLimit text cause)
  | .ok 0 => throw .zeroStepLimit
  | .ok limit => return limit

/-- Read the settings from variables. -/
def ofVariables (value? : String -> Option String) : Except SettingsError Settings := do
  let defaults : Settings := {}
  let strategy ← match value? strategyVariable with
    | some text => Strategy.ofText text
    | none => pure defaults.strategy
  let stepLimit ← match value? stepLimitVariable with
    | some text => readStepLimit text
    | none => pure defaults.stepLimit
  return { strategy, stepLimit }

end Settings
end SymbolicMachine
