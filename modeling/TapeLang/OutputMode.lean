import TapeLang.Text.Blank

/-! What separates the characters a program prints. -/
namespace TapeLang

/-- `line` ends every printed character with a newline, `raw` adds nothing. -/
inductive OutputMode where
  | line
  | raw
deriving DecidableEq, Repr, Inhabited

structure UnknownOutputMode where
  name : String
deriving DecidableEq, Repr

def UnknownOutputMode.message (e : UnknownOutputMode) : String :=
  "invalid output mode '" ++ e.name ++ "', must be 'line' or 'raw'"

namespace OutputMode

def name : OutputMode → String
  | line => "line"
  | raw => "raw"

def parse (text : String) : Except UnknownOutputMode OutputMode :=
  match Text.lowercase (Text.trim text) with
  | "line" => .ok line
  | "raw" => .ok raw
  | other => .error ⟨other⟩

end OutputMode
end TapeLang
