import TapeLang.Machine.Run
import TapeLang.Settings

/-! Executing a program under its settings, on a fresh tape. A run without
limits belongs to its caller; a limited one is given to a worker, which is
cancelled once the time is up. -/
namespace TapeLang

/-- How time passes: the instructions that a run has done by the time its clock
is started, those executed in a millisecond, and how many may go by before a run
without limits is given up. -/
structure Clock where
  headStart : Nat
  ticksPerMs : Nat
  patience : Nat
deriving DecidableEq, Repr

def Clock.standard : Clock := ⟨0, 10000, 4611686018427387904⟩

inductive RunError where
  | fault (f : Fault)
  | timeout (ms : Nat)
  /-- The worker went down before it had an answer. -/
  | workerLost
deriving DecidableEq, Repr

namespace RunError

def message : RunError → String
  | fault f => f.message
  | timeout ms => "Execution aborted: wall-clock timeout exceeded (" ++ toString ms ++ " ms)"
  | workerLost => "Execution aborted: interpreter thread exited without a result"

def isFatal : RunError → Bool
  | fault (.unmatched _) => true
  | fault (.io _ _) => true
  | fault (.stepLimit _) => false
  | fault .cancelled => false
  | timeout _ => false
  | workerLost => true

end RunError

inductive Verdict where
  | ok
  | failed (e : RunError)
  /-- The caller itself went down. -/
  | crashed (reason : String)
  /-- The run goes on, or waits, for longer than anyone does. -/
  | unanswered
deriving DecidableEq, Repr

structure Execution where
  verdict : Verdict
  stdout : Bytes
  /-- How often standard output was written to. -/
  calls : Nat
  input : Input
deriving DecidableEq, Repr

namespace Settings

def deadline (s : Settings) (clock : Clock) : Option Nat :=
  s.timeoutMs.map fun ms => clock.headStart + ms * clock.ticksPerMs

def control (s : Settings) (clock : Clock) : Option Control :=
  if s.isLimited then
    some { maxSteps := s.maxSteps, cancel := { afterTicks := s.deadline clock } }
  else none

def wiring (s : Settings) (clock : Clock) (stdout : Output) (traced : Bool) : Wiring where
  mode := s.output
  stdout := stdout
  traced := traced
  control := s.control clock

/-- A limited run stops within one step of the nearer limit. -/
def fuel (s : Settings) (clock : Clock) : Nat :=
  match s.maxSteps, s.deadline clock with
  | some n, some d => min n d + 1
  | some n, none => n + 1
  | none, some d => d + 1
  | none, none => clock.patience

/-- What the caller learns. A worker that has no answer when the time is up is
a timeout, whether it was running or waiting. -/
def verdict (s : Settings) : Outcome → Verdict
  | .halted => .ok
  | .fault .cancelled => .failed (s.timeoutMs.elim (.fault .cancelled) .timeout)
  | .fault f => .failed (.fault f)
  | .crashed reason => if s.isLimited then .failed .workerLost else .crashed reason
  | .waiting => s.timeoutMs.elim .unanswered (.failed ∘ .timeout)
  | .running => .unanswered

def execute (s : Settings) (clock : Clock) (stdout : Output) (traced : Bool)
    (tokens : List Token) (input : Input) : Execution :=
  let w := s.wiring clock stdout traced
  let run := w.run (s.fuel clock) tokens .fresh input
  ⟨s.verdict run.outcome, run.stdout w, run.calls w, run.state.input⟩

end Settings
end TapeLang
