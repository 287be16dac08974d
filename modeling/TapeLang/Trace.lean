import TapeLang.Tape
import TapeLang.Token
import TapeLang.Text.Escape

/-! The table a traced run prints: one row for each instruction, with the
state just before it and what it did. -/
namespace TapeLang

/-- What a row says an instruction did. Loops name the position of the
bracket they jump to. -/
inductive Action where
  | incremented (index : Nat) (before after : Cell)
  | decremented (index : Nat) (before after : Cell)
  | moved (index : Nat)
  | printed (c : Char)
  | exhausted
  | entered
  | skipped (closePos : Nat)
  | repeated (openPos : Nat)
  | left
deriving DecidableEq, Repr

def Action.changed (verb : String) (index : Nat) (before after : Cell) : String :=
  verb ++ " cell[" ++ toString index ++ "] from " ++ toString before.toInt ++ " to " ++
    toString after.toInt

def Action.describe : Action → String
  | .incremented index before after => changed "Increment" index before after
  | .decremented index before after => changed "Decrement" index before after
  | .moved index => "Moved cursor to index " ++ toString index
  | .printed c => "Output '" ++ Text.escape c ++ "' (suppressed in debug)"
  | .exhausted =>
    "Read input -> simulated end of input (set cell to " ++ toString Cell.endOfInput.toInt ++ ")"
  | .entered => "Enter loop (cell > 0)"
  | .skipped closePos => "Cell is 0; skip past matching ']' at IP " ++ toString closePos
  | .repeated openPos => "Cell > 0; repeat loop from IP " ++ toString openPos
  | .left => "Exit loop (cell is 0)"

structure TraceRow where
  step : Nat
  token : Token
  cursor : Nat
  cell : Cell
  action : Action
deriving DecidableEq, Repr

inductive TraceLine where
  | heading
  | rule
  | row (r : TraceRow)
deriving DecidableEq, Repr

def TraceRow.render (r : TraceRow) : String :=
  Text.padRight 4 (toString r.step) ++ " | " ++ Text.padRight 3 (toString r.token.pos) ++ " | " ++
    Text.padRight 4 (toString r.cursor) ++ " | " ++ Text.padRight 4 (toString r.cell.toInt) ++
    " |  " ++ r.token.op.toChar.toString ++ "    | " ++ r.action.describe

def TraceLine.render : TraceLine → String
  | heading => "STEP | IP  | PTR  | CELL | INSTR | ACTION"
  | rule => "-----+-----+------+------+-------+------------------------------------------------"
  | row r => r.render

def renderTrace (lines : List TraceLine) : String :=
  String.join (lines.map fun line => line.render ++ "\n")

end TapeLang
