import TapeLang.LoopTable

/-! Why a run stops before the end of its program. -/
namespace TapeLang

inductive Fault where
  /-- The program is not balanced; nothing was run. -/
  | unmatched (bracket : UnmatchedBracket)
  /-- The input or output of the instruction at this position failed. -/
  | io (pos : Nat) (reason : String)
  | stepLimit (limit : Nat)
  | cancelled
deriving DecidableEq, Repr

def Bracket.quoted (b : Bracket) : String := "'" ++ b.toChar.toString ++ "'"

def Fault.message : Fault → String
  | .unmatched ⟨kind, pos⟩ =>
    "Unmatched bracket " ++ kind.quoted ++ " at instruction " ++ toString pos
  | .io pos reason => "I/O error at instruction " ++ toString pos ++ ": " ++ reason
  | .stepLimit limit => "Execution aborted: step limit exceeded (" ++ toString limit ++ ")"
  | .cancelled => "Execution aborted: cancelled"

end TapeLang
