import TapeLang.Settings

/-! How a session is led: from a line editor on a terminal, or bare. -/
namespace TapeLang

inductive SessionMode where
  | bare
  | editor
deriving DecidableEq, Repr

inductive SessionModeError where
  | editorByFlag
  | editorByVariable
  | unknown (value : String)
deriving DecidableEq, Repr

namespace SessionMode

def variableName : String := "BFOOP_REPL_MODE"

def ofFlags (bare editor : Bool) : Option SessionMode :=
  if bare then some .bare else if editor then some .editor else none

/-- The flag decides, else the variable, else whether input is a terminal,
which an editor needs. -/
def select (flag : Option SessionMode) (value : Option String) (terminal : Bool) :
    Except SessionModeError SessionMode :=
  match flag, value with
  | some .bare, _ => .ok .bare
  | some .editor, _ => if terminal then .ok .editor else .error .editorByFlag
  | none, some value =>
    match Text.lowercase (Text.trim value) with
    | "bare" => .ok .bare
    | "editor" => if terminal then .ok .editor else .error .editorByVariable
    | _ => .error (.unknown value)
  | none, none => .ok (if terminal then .editor else .bare)

end SessionMode

def SessionModeError.message : SessionModeError → String
  | editorByFlag =>
    "cannot start editor: stdin is not a TTY (use --bare or " ++ SessionMode.variableName ++ "=bare)"
  | editorByVariable =>
    "cannot start editor: stdin is not a TTY (use " ++ SessionMode.variableName ++ "=bare)"
  | unknown value =>
    "invalid " ++ SessionMode.variableName ++ " value: " ++ value ++ ", must be 'bare' or 'editor'"

end TapeLang
