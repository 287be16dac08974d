import TapeLang.OutputMode
import TapeLang.Text.Numeral

/-! The settings of an execution. Each one comes from its flag, else from its
variable in the environment, else it has a default. -/
namespace TapeLang

structure Settings where
  output : OutputMode := .line
  timeoutMs : Option Nat := none
  maxSteps : Option Nat := none
deriving DecidableEq, Repr, Inhabited

def Settings.isLimited (s : Settings) : Bool := s.timeoutMs.isSome || s.maxSteps.isSome

abbrev Environment := String → Option String

structure SettingError where
  variableName : String
  value : String
  reason : String
deriving DecidableEq, Repr

def SettingError.message (e : SettingError) : String :=
  "invalid " ++ e.variableName ++ " value: '" ++ e.value ++ "' (" ++ e.reason ++ ")"

structure SettingFlags where
  output : Option OutputMode := none
  timeoutMs : Option Nat := none
  maxSteps : Option Nat := none
deriving DecidableEq, Repr, Inhabited

namespace Settings

def outputVariable : String := "BFOOP_OUTPUT"
def timeoutVariable : String := "BFOOP_TIMEOUT_MS"
def maxStepsVariable : String := "BFOOP_MAX_STEPS"

def readMode (text : String) : Except String OutputMode :=
  (OutputMode.parse text).mapError UnknownOutputMode.message

def readNumber (text : String) : Except String Nat :=
  (Text.Numeral.parse text).mapError Text.NumeralError.message

/-- The value of a variable after trimming; a blank one counts as not set. -/
def lookup {α : Type} (env : Environment) (name : String) (read : String → Except String α) :
    Except SettingError (Option α) :=
  match env name with
  | none => .ok none
  | some value =>
    let text := Text.trim value
    if text.isEmpty then .ok none
    else
      match read text with
      | .ok a => .ok (some a)
      | .error reason => .error ⟨name, value, reason⟩

def choose {α : Type} (flag : Option α) (found : Except SettingError (Option α)) :
    Except SettingError (Option α) :=
  match flag with
  | some a => .ok (some a)
  | none => found

/-- The first bad variable is reported, in the order output, timeout, steps. -/
def resolve (flags : SettingFlags) (env : Environment) : Except SettingError Settings := do
  let output ← choose flags.output (lookup env outputVariable readMode)
  let timeoutMs ← choose flags.timeoutMs (lookup env timeoutVariable readNumber)
  let maxSteps ← choose flags.maxSteps (lookup env maxStepsVariable readNumber)
  return { output := output.getD .line, timeoutMs, maxSteps }

end Settings
end TapeLang
