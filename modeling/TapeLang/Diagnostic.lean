import TapeLang.Execution

/-! Error reports. A fault in the text of a program is shown with the
characters around it and a caret under the one it names. -/
namespace TapeLang.Diagnostic

def windowChars : Nat := 32

/-- Positions are 64-bit words, and sums of them wrap. -/
def wordSize : Nat := UInt64.size

def windowStart (pos : Nat) : Nat := pos - windowChars

def windowEnd (pos total : Nat) : Nat := min ((pos + windowChars + 1) % wordSize) total

def flatten (c : Char) : Char := if c = '\n' ∨ c = '\r' then ' ' else c

def window (code : List Char) (pos : Nat) : List Char :=
  ((code.drop (windowStart pos)).take (windowEnd pos code.length - windowStart pos)).map flatten

def spaces (n : Nat) : List Char := List.replicate n ' '

/-- The window and the caret under the character at `pos`, a line each. -/
def context (code : String) (pos : Nat) : String :=
  String.ofList (spaces 2 ++ window code.toList pos ++ ['\n'] ++
    spaces 2 ++ spaces (pos - windowStart pos) ++ ['^', '\n'])

def located (headline code : String) (pos : Nat) : String :=
  headline ++ " at instruction " ++ toString pos ++ "\n" ++ context code pos

def named (program : Option String) (message : String) : String :=
  match program with
  | some name => name ++ ": " ++ message
  | none => message

def report (program : Option String) (code : String) (f : Fault) : String :=
  match f with
  | .unmatched ⟨kind, pos⟩ =>
    located (named program ("Structural error: unmatched bracket " ++ kind.quoted)) code pos
  | .io pos reason => located (named program ("I/O error: " ++ reason)) code pos
  | .stepLimit _ => named program f.message ++ "\n"
  | .cancelled => named program f.message ++ "\n"

/-- Timeouts and lost workers are not faults of the code and name no program. -/
def reportError (program : Option String) (code : String) (e : RunError) : String :=
  match e with
  | .fault f => report program code f
  | .timeout _ => e.message ++ "\n"
  | .workerLost => e.message ++ "\n"

end TapeLang.Diagnostic
