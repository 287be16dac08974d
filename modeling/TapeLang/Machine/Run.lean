import TapeLang.Machine.Step

/-! Whole runs. A run takes as many steps as its fuel allows; more fuel never
changes the answer of a run that came to one. -/
namespace TapeLang

structure Run where
  outcome : Outcome
  state : State
deriving DecidableEq, Repr

def Program.runFor (p : Program) (w : Wiring) : Nat → State → Run
  | 0, s => ⟨.running, s⟩
  | fuel + 1, s =>
    match p.step w s with
    | .next after => p.runFor w fuel after
    | .stop outcome after => ⟨outcome, after⟩

def Wiring.heading (w : Wiring) : Array TraceLine :=
  if w.traced then #[.heading, .rule] else #[]

def Wiring.headingRefusal (w : Wiring) : Option (Nat × String) :=
  w.stdout.firstRefusal w.heading.size

def State.initial (w : Wiring) (tape : Tape) (input : Input) : State :=
  { tape, input, trace := w.heading }

/-- Run tokens on a tape. Brackets are checked before anything else; a traced
run then prints the heading of its table. -/
def Wiring.run (w : Wiring) (fuel : Nat) (tokens : List Token) (tape : Tape) (input : Input) : Run :=
  match Program.ofTokens tokens with
  | .error bracket => ⟨.fault (.unmatched bracket), { tape, input }⟩
  | .ok p =>
    match w.headingRefusal with
    | some (shown, reason) => ⟨.crashed reason, { tape, input, trace := w.heading.take shown }⟩
    | none => p.runFor w fuel (State.initial w tape input)

def Run.stdout (r : Run) (w : Wiring) : Bytes :=
  Utf8.encode (renderTrace r.state.trace.toList) ++
    if w.collected then [] else r.state.writes.toList.flatten

/-- The calls it made for that. -/
def Run.calls (r : Run) (w : Wiring) : Nat :=
  r.state.trace.size + if w.collected then 0 else r.state.writes.size

theorem Program.runFor_succ_of_next {p : Program} {w : Wiring} {s after : State}
    (h : p.step w s = .next after) (fuel : Nat) :
    p.runFor w (fuel + 1) s = p.runFor w fuel after := by
  rw [runFor, h]

theorem Program.runFor_succ_of_stop {p : Program} {w : Wiring} {s after : State} {outcome : Outcome}
    (h : p.step w s = .stop outcome after) (fuel : Nat) :
    p.runFor w (fuel + 1) s = ⟨outcome, after⟩ := by
  rw [runFor, h]

theorem Program.runFor_succ_of_finished {p : Program} {w : Wiring} {fuel : Nat} {s : State}
    (h : (p.runFor w fuel s).outcome ≠ .running) :
    p.runFor w (fuel + 1) s = p.runFor w fuel s := by
  induction fuel generalizing s with
  | zero => exact absurd rfl h
  | succ fuel ih =>
    cases hs : p.step w s with
    | next after =>
      rw [runFor_succ_of_next hs] at h ⊢
      rw [runFor_succ_of_next hs, ih h]
    | stop outcome after => rw [runFor_succ_of_stop hs, runFor_succ_of_stop hs]

theorem Program.runFor_add_of_finished {p : Program} {w : Wiring} {fuel : Nat} {s : State}
    (h : (p.runFor w fuel s).outcome ≠ .running) (extra : Nat) :
    p.runFor w (fuel + extra) s = p.runFor w fuel s := by
  induction extra with
  | zero => rfl
  | succ extra ih => rw [← Nat.add_assoc, runFor_succ_of_finished (ih ▸ h), ih]

end TapeLang
