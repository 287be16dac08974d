import TapeLang.Proofs.Bounds
import TapeLang.Proofs.Lockstep

/-! The cells a run has to do with. Its cursor visits some cells of the tape: what the
run does depends on these and on no others, and all others it leaves alone. -/
namespace TapeLang

/-- Two tapes, the cursor in the same place on both, with the same cells at `indices`. -/
structure Tape.AgreesOn (indices : List Nat) (t u : Tape) : Prop where
  length : u.length = t.length
  cursor : u.cursor = t.cursor
  cell : ∀ i ∈ indices, u.cells[i]? = t.cells[i]?

namespace Tape.AgreesOn

variable {indices : List Nat} {t u : Tape}

theorem read_eq (h : t.AgreesOn indices u) (hvisited : t.cursor ∈ indices) : u.read = t.read := by
  have hcell := h.cell t.cursor hvisited
  rw [← h.cursor, getElem?_cursor, h.cursor, getElem?_cursor] at hcell
  exact Option.some.inj hcell

theorem modify (h : t.AgreesOn indices u) (f : Cell → Cell) :
    (t.modify f).AgreesOn indices (u.modify f) where
  length := by rw [length_modify, length_modify, h.length]
  cursor := h.cursor
  cell := by
    intro i hi
    simp only [Tape.modify, Array.getElem?_modify, h.cursor, h.cell i hi]

theorem seek (h : t.AgreesOn indices u) (index : Nat) :
    (t.seek index).AgreesOn indices (u.seek index) where
  length := h.length
  cursor := congrArg (index % ·) h.length
  cell := h.cell

theorem moveForward (h : t.AgreesOn indices u) :
    t.moveForward.AgreesOn indices u.moveForward := by
  unfold Tape.moveForward
  rw [h.cursor]
  exact h.seek _

theorem moveBackward (h : t.AgreesOn indices u) :
    t.moveBackward.AgreesOn indices u.moveBackward := by
  unfold Tape.moveBackward
  rw [h.cursor, h.length]
  exact h.seek _

theorem log {s : State} (h : s.tape.AgreesOn indices u) (w : Wiring) (tok : Token)
    (action : Action) : (s.log w tok action).tape.AgreesOn indices u := by
  rw [State.tape_log]
  exact h

end Tape.AgreesOn

namespace State

def withTape (s : State) (tape : Tape) : State := s.onTape fun _ => tape

def AgreesOn (indices : List Nat) (s t : State) : Prop :=
  ∃ tape, s.tape.AgreesOn indices tape ∧ t = s.withTape tape

theorem AgreesOn.withTrace {indices : List Nat} (s t : State) (trace : Array TraceLine)
    (h : s.AgreesOn indices t) :
    AgreesOn indices { s with trace := trace } { t with trace := trace } := by
  obtain ⟨tape, htape, rfl⟩ := h
  exact ⟨tape, htape, rfl⟩

theorem log_withTape {s : State} {tape : Tape} (hcursor : tape.cursor = s.tape.cursor)
    (hread : tape.read = s.tape.read) (w : Wiring) (tok : Token) (action : Action) :
    (s.withTape tape).log w tok action = (s.log w tok action).withTape tape := by
  unfold log
  split
  · simp only [withTape, onTape, hcursor, hread]
  · rfl

end State

section Agreement

variable {indices : List Nat} {w : Wiring} {tok : Token} {p : Program} {s t : State} {tape : Tape}
  (hvisited : s.tape.cursor ∈ indices) (h : s.tape.AgreesOn indices tape)

include hvisited h

theorem Wiring.print_agreesOn :
    Step.Pairs (State.AgreesOn indices) (w.print tok s) (w.print tok (s.withTape tape)) := by
  have hread := h.read_eq hvisited
  unfold print
  rw [State.log_withTape h.cursor hread, show (s.withTape tape).tape = tape from rfl,
    show (s.withTape tape).writes = s.writes from rfl, hread]
  split
  · exact .next ⟨tape, h.log .., rfl⟩
  split
  · exact .next ⟨tape, h, rfl⟩
  · exact .stop _ ⟨tape, h, rfl⟩

theorem Wiring.readByte_agreesOn :
    Step.Pairs (State.AgreesOn indices) (w.readByte tok s) (w.readByte tok (s.withTape tape)) := by
  unfold readByte
  rw [State.log_withTape h.cursor (h.read_eq hvisited),
    show (s.withTape tape).input = s.input from rfl]
  split
  · exact .next ⟨tape.write Cell.endOfInput, (h.log ..).modify _, rfl⟩
  split
  · exact .next ⟨tape.write _, h.modify _, rfl⟩
  · exact .next ⟨tape.write _, h.modify _, rfl⟩
  · exact .stop _ ⟨tape, h, rfl⟩
  · exact .stop _ ⟨tape, h, rfl⟩

theorem Program.exec_agreesOn :
    Step.Pairs (State.AgreesOn indices) (p.exec w tok s) (p.exec w tok (s.withTape tape)) := by
  have hread := h.read_eq hvisited
  obtain ⟨op, pos⟩ := tok
  unfold exec
  simp only [State.log_withTape h.cursor hread, show (s.withTape tape).tape = tape from rfl,
    show (s.withTape tape).ip = s.ip from rfl, hread, h.cursor, h.moveForward.cursor,
    h.moveBackward.cursor]
  cases op with
  | increment => exact .next ⟨tape.increment, (h.log ..).modify _, rfl⟩
  | decrement => exact .next ⟨tape.decrement, (h.log ..).modify _, rfl⟩
  | moveForward => exact .next ⟨tape.moveForward, (h.log ..).moveForward, rfl⟩
  | moveBackward => exact .next ⟨tape.moveBackward, (h.log ..).moveBackward, rfl⟩
  | output => exact Wiring.print_agreesOn hvisited h
  | input => exact Wiring.readByte_agreesOn hvisited h
  | loopOpen =>
    simp only []
    split
    · exact .stop _ ⟨tape, h, rfl⟩
    split
    · exact .next ⟨tape, h.log .., rfl⟩
    · exact .next ⟨tape, h.log .., rfl⟩
  | loopClose =>
    simp only []
    split
    · exact .stop _ ⟨tape, h, rfl⟩
    split
    · exact .next ⟨tape, h.log .., rfl⟩
    · exact .next ⟨tape, h.log .., rfl⟩

end Agreement

theorem Program.step_agreesOn {indices : List Nat} {w : Wiring} {p : Program} {s t : State}
    (hvisited : s.tape.cursor ∈ indices) (h : s.AgreesOn indices t) :
    Step.Pairs (State.AgreesOn indices) (p.step w s) (p.step w t) := by
  obtain ⟨tape, htape, rfl⟩ := h
  refine step_pairs ⟨tape, htape, rfl⟩ rfl rfl rfl State.AgreesOn.withTrace ?_
  intro tok _
  exact exec_agreesOn (s := { s with ticks := s.ticks + 1 }) hvisited htape

def State.Spares (indices : List Nat) (s t : State) : Prop :=
  ∀ i, i ∉ indices → t.tape.cells[i]? = s.tape.cells[i]?

theorem State.Spares.append {indices later : List Nat} {s t u : State}
    (hst : s.Spares indices t) (htu : t.Spares later u) : s.Spares (indices ++ later) u := by
  intro i hi
  rw [List.mem_append, not_or] at hi
  rw [htu i hi.2, hst i hi.1]

theorem Program.spares_step (p : Program) (w : Wiring) (s : State) :
    s.Spares [s.tape.cursor] (p.step w s).state := by
  intro i hi
  rw [List.mem_singleton] at hi
  cases htok : p.executes w s with
  | none => rw [state_step_of_idle htok]
  | some tok =>
    rw [step_of_executes htok, Wiring.tape_printRow]
    rcases p.tape_exec w tok { s with ticks := s.ticks + 1 } with hsame | ⟨op, happly⟩
    · rw [hsame]
    · rw [happly]
      exact s.tape.getElem?_apply_of_ne op hi

namespace Wiring

variable (w : Wiring) (fuel : Nat) (tokens : List Token) (tape : Tape) (input : Input)

def stoodOn : List Nat := w.notes (fun _ s => [s.tape.cursor]) fuel tokens tape input

/-- The cells the cursor rests on during a run: one for each step, and the last. -/
def visited : List Nat :=
  w.stoodOn fuel tokens tape input ++ [(w.run fuel tokens tape input).state.tape.cursor]

theorem spares_run : State.Spares (w.visited fuel tokens tape input) { tape, input }
    (w.run fuel tokens tape input).state := by
  have hstood : State.Spares (w.stoodOn fuel tokens tape input) { tape, input }
      (w.run fuel tokens tape input).state := by
    unfold stoodOn
    rcases w.run_and_notes (fun _ s => [s.tape.cursor]) fuel tokens tape input with
      ⟨hnotes, trace, hstate⟩ | ⟨p, hnotes, hrun⟩
    · rw [hnotes, hstate]
      exact fun i _ => rfl
    · rw [hnotes, hrun]
      exact Program.runFor_of_notes (R := State.Spares) (fun _ _ _ => rfl) .append
        (p.spares_step w) fuel (State.initial w tape input)
  intro i hi
  exact hstood i fun hmem => hi (List.mem_append_left _ hmem)

end Wiring

/-- Whatever the program, its input, its output and its limits, a run goes by the cells
it visits: on another tape with the same cells there and the cursor in the same
place it visits the same cells, does and answers the same and leaves the same in
them. Either run leaves all other cells as they were. -/
theorem Wiring.run_depends_on_visited (w : Wiring) (fuel : Nat) (tokens : List Token)
    {a b : Tape} (input : Input) (h : a.AgreesOn (w.visited fuel tokens a input) b) :
    w.visited fuel tokens b input = w.visited fuel tokens a input ∧
    (w.run fuel tokens b input).outcome = (w.run fuel tokens a input).outcome ∧
    (w.run fuel tokens b input).state.writes = (w.run fuel tokens a input).state.writes ∧
    (w.run fuel tokens b input).stdout w = (w.run fuel tokens a input).stdout w ∧
    (w.run fuel tokens b input).state.reads = (w.run fuel tokens a input).state.reads ∧
    (w.run fuel tokens b input).state.input = (w.run fuel tokens a input).state.input ∧
    (w.run fuel tokens b input).state.ticks = (w.run fuel tokens a input).state.ticks ∧
    (w.run fuel tokens a input).state.tape.AgreesOn (w.visited fuel tokens a input)
      (w.run fuel tokens b input).state.tape ∧
    (∀ i, i ∉ w.visited fuel tokens a input →
      (w.run fuel tokens a input).state.tape.cells[i]? = a.cells[i]?) ∧
    (∀ i, i ∉ w.visited fuel tokens a input →
      (w.run fuel tokens b input).state.tape.cells[i]? = b.cells[i]?) := by
  have hstep : ∀ p, Program.ofTokens tokens = .ok p → ∀ s t : State,
      s.AgreesOn (w.visited fuel tokens a input) t →
      (∀ i ∈ [s.tape.cursor], i ∈ w.visited fuel tokens a input) →
      [t.tape.cursor] = [s.tape.cursor] ∧
        Step.Pairs (State.AgreesOn (w.visited fuel tokens a input)) (p.step w s) (p.step w t) := by
    intro p _ s t hst hnote
    refine ⟨?_, Program.step_agreesOn (hnote _ List.mem_cons_self) hst⟩
    obtain ⟨tape, htape, rfl⟩ := hst
    exact congrArg (fun i => [i]) htape.cursor
  obtain ⟨houtcome, ⟨tape, htape, hstate⟩, hstood⟩ :=
    run_pairs_of_notes hstep (fun _ => ⟨b, h, rfl⟩) fuel
      fun i hi => List.mem_append_left _ hi
  have hvisited : w.visited fuel tokens b input = w.visited fuel tokens a input := by
    unfold visited stoodOn
    rw [hstood, hstate]
    exact congrArg (fun i => _ ++ [i]) htape.cursor
  have hstdout : (w.run fuel tokens b input).stdout w = (w.run fuel tokens a input).stdout w := by
    unfold Run.stdout
    rw [hstate]
    rfl
  refine ⟨hvisited, houtcome.symm, ?_, hstdout, ?_, ?_, ?_, ?_, w.spares_run fuel tokens a input,
    hvisited ▸ w.spares_run fuel tokens b input⟩
  all_goals rw [hstate]
  · rfl
  · rfl
  · rfl
  · rfl
  · exact htape

theorem Wiring.run_depends_on_visited_moving_loop :
    let tokens : List Token := [⟨.loopOpen, 0⟩, ⟨.moveForward, 1⟩, ⟨.increment, 2⟩,
      ⟨.moveBackward, 3⟩, ⟨.decrement, 4⟩, ⟨.loopClose, 5⟩]
    let a : Tape := ⟨#[2, 0, 5, 7], 0, by decide⟩
    let b : Tape := ⟨#[2, 0, -1, 9], 0, by decide⟩
    let input : Input := .standard (.bytes [])
    a.AgreesOn (Wiring.visited {} 20 tokens a input) b ∧
    (Wiring.run {} 20 tokens a input).outcome = .halted ∧
    (Wiring.run {} 20 tokens b input).outcome = .halted ∧
    (Wiring.run {} 20 tokens b input).state.ticks = 11 ∧
    (Wiring.run {} 20 tokens b input).state.tape.cells[1]? = some 2 ∧
    (Wiring.run {} 20 tokens b input).state.tape.cells[3]? = some 9 := by
  intro tokens a b input
  have hvisited : Wiring.visited {} 20 tokens a input =
      [0, 0, 1, 1, 0, 0, 0, 1, 1, 0, 0, 0, 0] := by
    decide
  have hagree : a.AgreesOn (Wiring.visited {} 20 tokens a input) b := by
    rw [hvisited]
    exact ⟨rfl, rfl, by decide⟩
  have hhalted : (Wiring.run {} 20 tokens a input).outcome = .halted := by decide
  obtain ⟨-, houtcome, -, -, -, -, hticks, htape, -, hspared⟩ :=
    Wiring.run_depends_on_visited {} 20 tokens input hagree
  refine ⟨hagree, hhalted, houtcome.trans hhalted, hticks.trans (by decide), ?_, ?_⟩
  · rw [htape.cell 1 (by rw [hvisited]; decide)]
    decide
  · rw [hspared 3 (by rw [hvisited]; decide)]
    rfl

end TapeLang
