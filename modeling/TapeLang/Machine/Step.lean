import TapeLang.Input
import TapeLang.Machine.Control
import TapeLang.OutputMode
import TapeLang.Trace

/-! The machine: a tape, an index into the program, and the input and output
of a run. One step executes one instruction. -/
namespace TapeLang

structure Program where
  tokens : Array Token
  loops : LoopTable
deriving DecidableEq, Repr

def Program.ofTokens (tokens : List Token) : Except UnmatchedBracket Program :=
  (LoopTable.build tokens).map fun loops => ⟨tokens.toArray, loops⟩

/-- The position of the character at a token index. No partner in a loop
table lies past the end, where the answer is zero. -/
def Program.posAt (p : Program) (i : Nat) : Nat := (p.tokens[i]?.map Token.pos).getD 0

/-- What stays the same during a run. A traced run prints a table on standard
output and has no other effects. -/
structure Wiring where
  mode : OutputMode := .line
  stdout : Output := .accepting
  /-- Characters go to a collector, which takes them all, and not to standard output. -/
  collected : Bool := false
  traced : Bool := false
  control : Option Control := none
deriving Inhabited

def Wiring.output (w : Wiring) : Output := if w.collected then .accepting else w.stdout

def OutputMode.encode (mode : OutputMode) (c : Char) : Bytes :=
  match mode with
  | .line => String.utf8EncodeChar c ++ [0x0A]
  | .raw => String.utf8EncodeChar c

structure State where
  tape : Tape
  input : Input
  ip : Nat := 0
  ticks : Nat := 0
  reads : Nat := 0
  writes : Array Bytes := #[]
  trace : Array TraceLine := #[]
deriving DecidableEq, Repr

inductive Outcome where
  /-- The program came to its end. -/
  | halted
  | fault (f : Fault)
  /-- Standard output refused a line of the table. -/
  | crashed (reason : String)
  /-- A read waits for a queue to be fed. -/
  | waiting
  /-- The machine was stopped from outside and could go on. -/
  | running
deriving DecidableEq, Repr

inductive Step where
  | next (s : State)
  | stop (outcome : Outcome) (s : State)
deriving DecidableEq, Repr

namespace State

def progress (s : State) : Progress := ⟨s.ticks, s.reads, s.writes.size⟩

def goto (s : State) (ip : Nat) : State := { s with ip := ip }

def onTape (f : Tape → Tape) : State → State
  | ⟨tape, input, ip, ticks, reads, writes, trace⟩ =>
    ⟨f tape, input, ip, ticks, reads, writes, trace⟩

def log (s : State) (w : Wiring) (t : Token) (action : Action) : State :=
  if w.traced then
    { s with trace := s.trace.push (.row ⟨s.ticks, t, s.tape.cursor, s.tape.read, action⟩) }
  else s

def take (s : State) (input : Input) (v : Cell) : State :=
  State.onTape (Tape.write v) { s with input := input, reads := s.reads + 1 }

end State

def Wiring.print (w : Wiring) (t : Token) (s : State) : Step :=
  if w.traced then .next ((s.log w t (.printed s.tape.read.toChar)).goto (s.ip + 1))
  else
    match w.output.refusal s.writes.size with
    | none =>
      .next { s with
        writes := s.writes.push (w.mode.encode s.tape.read.toChar), ip := s.ip + 1 }
    | some reason => .stop (.fault (.io t.pos reason)) s

def Wiring.readByte (w : Wiring) (t : Token) (s : State) : Step :=
  if w.traced then
    .next (((s.log w t .exhausted).goto (s.ip + 1)).onTape (Tape.write Cell.endOfInput))
  else
    match s.input.read with
    | (.byte b, rest) => .next ((s.take rest (Cell.ofByte b)).goto (s.ip + 1))
    | (.endOfInput, rest) => .next ((s.take rest Cell.endOfInput).goto (s.ip + 1))
    | (.failed reason, rest) =>
      .stop (.fault (.io t.pos reason)) { s with input := rest, reads := s.reads + 1 }
    | (.waiting, _) => .stop .waiting s

/-- Execute one instruction. A loop is entered or repeated when the current
cell is positive. -/
def Program.exec (p : Program) (w : Wiring) (t : Token) (s : State) : Step :=
  let cell := s.tape.read
  match t.op with
  | .increment =>
    let row := s.log w t (.incremented s.tape.cursor cell cell.bump)
    .next ((row.goto (s.ip + 1)).onTape Tape.increment)
  | .decrement =>
    let row := s.log w t (.decremented s.tape.cursor cell cell.drop)
    .next ((row.goto (s.ip + 1)).onTape Tape.decrement)
  | .moveForward =>
    let row := s.log w t (.moved s.tape.moveForward.cursor)
    .next ((row.goto (s.ip + 1)).onTape Tape.moveForward)
  | .moveBackward =>
    let row := s.log w t (.moved s.tape.moveBackward.cursor)
    .next ((row.goto (s.ip + 1)).onTape Tape.moveBackward)
  | .output => w.print t s
  | .input => w.readByte t s
  | .loopOpen =>
    match p.loops.closeOf s.ip with
    | none => .stop (.fault (.unmatched ⟨.opening, t.pos⟩)) s
    | some close =>
      if 0 < cell then .next ((s.log w t .entered).goto (s.ip + 1))
      else .next ((s.log w t (.skipped (p.posAt close))).goto (close + 1))
  | .loopClose =>
    match p.loops.openOf s.ip with
    | none => .stop (.fault (.unmatched ⟨.closing, t.pos⟩)) s
    | some start =>
      if 0 < cell then .next ((s.log w t (.repeated (p.posAt start))).goto (start + 1))
      else .next ((s.log w t .left).goto (s.ip + 1))

def Wiring.interrupt (w : Wiring) (s : State) : Option Fault :=
  w.control.bind (·.interrupt s.progress)

def Wiring.rowRefusal (w : Wiring) (s : State) : Option String :=
  if w.traced then w.stdout.refusal s.trace.size else none

/-- The row of an instruction is printed when it is done, and the machine goes
down with a row that is refused. -/
def Wiring.printRow (w : Wiring) (s : State) : Step → Step
  | .next after =>
    match w.rowRefusal s with
    | none => .next after
    | some reason => .stop (.crashed reason) { after with trace := s.trace }
  | .stop outcome after => .stop outcome after

/-- One step: stop past the last token, stop for the control, or count a tick
and execute. -/
def Program.step (p : Program) (w : Wiring) (s : State) : Step :=
  match p.tokens[s.ip]? with
  | none => .stop .halted s
  | some t =>
    match w.interrupt s with
    | some f => .stop (.fault f) s
    | none => w.printRow s (p.exec w t { s with ticks := s.ticks + 1 })

end TapeLang
