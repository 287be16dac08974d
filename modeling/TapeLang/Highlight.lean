import TapeLang.Instruction

/-! Colours for a line of code: each kind of instruction has its own, and
comments are dimmed. -/
namespace TapeLang

structure Colour where
  red : Nat
  green : Nat
  blue : Nat
deriving DecidableEq, Repr

structure Style where
  colour : Colour
  bold : Bool
deriving DecidableEq, Repr

structure Span where
  style : Style
  text : String
deriving DecidableEq, Repr

def Instruction.colour : Instruction → Colour
  | moveForward => ⟨137, 220, 235⟩
  | moveBackward => ⟨148, 226, 213⟩
  | increment => ⟨166, 227, 161⟩
  | decrement => ⟨243, 139, 168⟩
  | output => ⟨249, 226, 175⟩
  | input => ⟨250, 179, 135⟩
  | loopOpen => ⟨203, 166, 247⟩
  | loopClose => ⟨203, 166, 247⟩

def Style.comment : Style := ⟨⟨108, 112, 134⟩, false⟩

def Style.ofChar (c : Char) : Style :=
  match Instruction.ofChar? c with
  | some op => ⟨op.colour, true⟩
  | none => .comment

def Span.start (c : Char) : Span := ⟨.ofChar c, String.singleton c⟩

def Span.extend (span : Span) (c : Char) : Span := { span with text := span.text.push c }

/-- A line read so far: the spans that are finished, and the run of one style that
the next character may still extend. -/
structure Scan where
  spans : Array Span
  run : Option Span

namespace Scan

def flush (scan : Scan) : Array Span :=
  match scan.run with
  | some run => scan.spans.push run
  | none => scan.spans

/-- A character of another style ends the open run and starts the next. -/
def step (scan : Scan) (c : Char) : Scan :=
  match scan.run with
  | some run =>
    if run.style = .ofChar c then { scan with run := some (run.extend c) }
    else ⟨scan.flush, some (.start c)⟩
  | none => ⟨scan.flush, some (.start c)⟩

end Scan

/-- The spans of a line, in one pass. Where the cursor stands makes no
difference. -/
def highlight (line : String) (_cursor : Nat) : List Span :=
  (line.toList.foldl Scan.step ⟨#[], none⟩).flush.toList

end TapeLang
