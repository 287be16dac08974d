import Mathlib.Data.List.Rotate
import TapeLang.Proofs.Lockstep
import TapeLang.Proofs.Rehearsal

/-! The tape has no first cell. Turning it, with the cursor, commutes with every
operation on it, and an untraced program learns nothing of where the numbering
of the cells begins. -/
namespace TapeLang

attribute [ext] Tape

namespace Tape

variable (t : Tape) (k : Nat)

/-- The tape turned by `k` cells: what stood at `i` stands at `i + k`, and the cursor
with it. Indices are taken modulo the length. -/
def rotate : Tape where
  cells := (t.cells.toList.rotate (t.length - k % t.length)).toArray
  cursor := (t.cursor + k) % t.length
  cursor_lt := by
    simp only [List.size_toArray, List.length_rotate]
    exact Nat.mod_lt _ t.length_pos

@[simp] theorem length_rotate : (t.rotate k).length = t.length := by
  simp [rotate, length]

@[simp] theorem cursor_rotate : (t.rotate k).cursor = (t.cursor + k) % t.length := rfl

theorem mod_turn_back {n i : Nat} (hi : i < n) : ((i + k) % n + (n - k % n)) % n = i := by
  have hrest : k % n < n := Nat.mod_lt k (Nat.zero_lt_of_lt hi)
  have hparts := Nat.div_add_mod k n
  have hwhole : i + k + (n - k % n) = i + n * (k / n + 1) := by
    rw [Nat.mul_add]
    omega
  rw [Nat.mod_add_mod, hwhole, Nat.add_mul_mod_self_left, Nat.mod_eq_of_lt hi]

theorem mod_turn_inj {n i j : Nat} (hi : i < n) (hj : j < n) :
    (i + k) % n = (j + k) % n ↔ i = j := by
  constructor
  · intro h
    rw [← mod_turn_back k hi, h, mod_turn_back k hj]
  · intro h
    rw [h]

theorem exists_mod_turn {n j : Nat} (hj : j < n) : ∃ i < n, (i + k) % n = j := by
  have hpos := Nat.zero_lt_of_lt hj
  refine ⟨(j + (n - k % n)) % n, Nat.mod_lt _ hpos, ?_⟩
  have hback := mod_turn_back k hj
  rw [Nat.mod_add_mod] at hback ⊢
  rwa [Nat.add_right_comm]

theorem getElem?_rotate {i : Nat} (hi : i < t.length) :
    (t.rotate k).cells[(i + k) % t.length]? = t.cells[i]? := by
  have hlt : (i + k) % t.length < t.cells.toList.length := Nat.mod_lt _ t.length_pos
  simp only [rotate, List.getElem?_toArray]
  rw [List.getElem?_rotate hlt, Array.length_toList]
  simp only [length] at hi ⊢
  rw [mod_turn_back k hi, Array.getElem?_toList]

theorem eq_rotate {t u : Tape} {k : Nat} (hlength : u.length = t.length)
    (hcursor : u.cursor = (t.cursor + k) % t.length)
    (hcells : ∀ i < t.length, u.cells[(i + k) % t.length]? = t.cells[i]?) : u = t.rotate k := by
  apply Tape.ext
  · apply Array.ext_getElem?
    intro j
    by_cases hj : j < t.length
    · obtain ⟨i, hi, rfl⟩ := exists_mod_turn k hj
      rw [hcells i hi, getElem?_rotate t k hi]
    · have hnone : ∀ v : Tape, v.length = t.length → v.cells[j]? = none := by
        intro v hv
        rw [Array.getElem?_eq_none_iff]
        simp only [length] at hv hj
        omega
      rw [hnone u hlength, hnone _ (t.length_rotate k)]
  · exact hcursor

@[simp] theorem read_rotate : (t.rotate k).read = t.read := by
  have hturned := t.getElem?_rotate k t.cursor_lt
  rw [← cursor_rotate, getElem?_cursor, getElem?_cursor] at hturned
  exact Option.some.inj hturned

theorem modify_rotate (f : Cell → Cell) : (t.rotate k).modify f = (t.modify f).rotate k := by
  apply eq_rotate
  · simp
  · simp
  · intro i hi
    rw [length_modify] at hi ⊢
    have hsame : (t.rotate k).cursor = (i + k) % t.length ↔ t.cursor = i :=
      mod_turn_inj k t.cursor_lt hi
    simp only [modify, Array.getElem?_modify, hsame, getElem?_rotate t k hi]

theorem seek_eq_of_mod {i j : Nat} (h : i % t.length = j % t.length) : t.seek i = t.seek j := by
  apply Tape.ext
  · rfl
  · exact h

theorem seek_rotate (index : Nat) : (t.rotate k).seek (index + k) = (t.seek index).rotate k := by
  apply eq_rotate
  · simp
  · change (index + k) % (t.rotate k).length = (index % t.length + k) % t.length
    rw [length_rotate, Nat.mod_add_mod]
  · intro i hi
    exact t.getElem?_rotate k hi

theorem moveForward_rotate : (t.rotate k).moveForward = t.moveForward.rotate k := by
  unfold moveForward
  rw [← seek_rotate]
  apply seek_eq_of_mod
  rw [cursor_rotate, length_rotate, Nat.mod_add_mod, Nat.add_right_comm]

theorem moveBackward_rotate : (t.rotate k).moveBackward = t.moveBackward.rotate k := by
  have hpos := t.length_pos
  unfold moveBackward
  rw [← seek_rotate]
  apply seek_eq_of_mod
  rw [cursor_rotate, length_rotate, Nat.add_sub_assoc hpos, Nat.mod_add_mod,
    Nat.add_sub_assoc hpos, Nat.add_right_comm]

end Tape

namespace State

variable (s : State) (k : Nat)

def rotate : State := s.onTape (Tape.rotate · k)

@[simp] theorem ip_rotate : (s.rotate k).ip = s.ip := rfl

@[simp] theorem tape_rotate : (s.rotate k).tape = s.tape.rotate k := rfl

@[simp] theorem goto_rotate (ip : Nat) : (s.rotate k).goto ip = (s.goto ip).rotate k := rfl

theorem onTape_rotate {f : Tape → Tape} (hf : ∀ t : Tape, f (t.rotate k) = (f t).rotate k) :
    (s.rotate k).onTape f = (s.onTape f).rotate k := by
  simp only [rotate, onTape, hf]

theorem take_rotate (input : Input) (v : Cell) :
    (s.rotate k).take input v = (s.take input v).rotate k := by
  simp only [rotate, take, onTape, Tape.write, Tape.modify_rotate]

end State

section Untraced

variable {w : Wiring} (huntraced : w.traced = false) (p : Program) (tok : Token) (s : State)
  (k : Nat)

include huntraced

theorem Wiring.print_rotate :
    w.print tok (s.rotate k) = (w.print tok s).map id (State.rotate · k) := by
  unfold print
  rw [huntraced]
  rw [show (s.rotate k).writes = s.writes from rfl]
  cases w.output.refusal s.writes.size with
  | none => simp [Step.map, State.rotate, State.onTape]
  | some reason => rfl

theorem Wiring.readByte_rotate :
    w.readByte tok (s.rotate k) = (w.readByte tok s).map id (State.rotate · k) := by
  unfold readByte
  rw [huntraced, show (s.rotate k).input = s.input from rfl]
  rcases s.input.read with ⟨answer, rest⟩
  cases answer with
  | byte b => simp [Step.map, State.take_rotate]
  | endOfInput => simp [Step.map, State.take_rotate]
  | failed reason => rfl
  | waiting => rfl

theorem Program.exec_rotate :
    p.exec w tok (s.rotate k) = (p.exec w tok s).map id (State.rotate · k) := by
  obtain ⟨op, pos⟩ := tok
  unfold exec
  simp only [State.log_of_untraced huntraced, State.tape_rotate, Tape.read_rotate, State.ip_rotate,
    State.goto_rotate]
  cases op with
  | increment => exact congrArg Step.next (State.onTape_rotate _ k fun t => t.modify_rotate k _)
  | decrement => exact congrArg Step.next (State.onTape_rotate _ k fun t => t.modify_rotate k _)
  | moveForward =>
    exact congrArg Step.next (State.onTape_rotate _ k fun t => t.moveForward_rotate k)
  | moveBackward =>
    exact congrArg Step.next (State.onTape_rotate _ k fun t => t.moveBackward_rotate k)
  | output => exact Wiring.print_rotate huntraced _ s k
  | input => exact Wiring.readByte_rotate huntraced _ s k
  | loopOpen =>
    cases p.loops.closeOf s.ip with
    | none => rfl
    | some close =>
      simp only []
      split <;> rfl
  | loopClose =>
    cases p.loops.openOf s.ip with
    | none => rfl
    | some start =>
      simp only []
      split <;> rfl

theorem Program.step_rotate :
    p.step w (s.rotate k) = (p.step w s).map id (State.rotate · k) := by
  apply step_map (State.rotate · k)
  · rfl
  · rfl
  · rfl
  · exact fun _ => rfl
  · intro tok
    exact exec_rotate huntraced p tok { s with ticks := s.ticks + 1 } k

end Untraced

namespace Wiring

variable (w : Wiring) (huntraced : w.traced = false) (fuel : Nat) (tokens : List Token)
  (tape : Tape) (input : Input) (k : Nat)

include huntraced

theorem run_rotate : w.run fuel tokens (tape.rotate k) input =
    (w.run fuel tokens tape input).map id (State.rotate · k) := by
  cases hp : Program.ofTokens tokens with
  | error bracket => simp only [run, hp]; rfl
  | ok p =>
    rw [run_of_untraced huntraced hp, run_of_untraced huntraced hp]
    exact Program.runFor_map id (State.rotate · k) rfl
      (fun s => Program.step_rotate huntraced p s k) fuel (State.initial w tape input)

/-- A run on the turned tape is the run on the tape, turned: it answers, writes and
reads the same after the same number of instructions, wherever its cursor crosses
the ends of the tape, and leaves the tape of the other run turned as far. -/
theorem run_on_turned_tape :
    (w.run fuel tokens (tape.rotate k) input).outcome =
      (w.run fuel tokens tape input).outcome ∧
    (w.run fuel tokens (tape.rotate k) input).state.writes =
      (w.run fuel tokens tape input).state.writes ∧
    (w.run fuel tokens (tape.rotate k) input).stdout w =
      (w.run fuel tokens tape input).stdout w ∧
    (w.run fuel tokens (tape.rotate k) input).state.reads =
      (w.run fuel tokens tape input).state.reads ∧
    (w.run fuel tokens (tape.rotate k) input).state.input =
      (w.run fuel tokens tape input).state.input ∧
    (w.run fuel tokens (tape.rotate k) input).state.ticks =
      (w.run fuel tokens tape input).state.ticks ∧
    (w.run fuel tokens (tape.rotate k) input).state.tape =
      (w.run fuel tokens tape input).state.tape.rotate k := by
  rw [run_rotate w huntraced]
  exact ⟨rfl, rfl, rfl, rfl, rfl, rfl, rfl⟩

end Wiring

theorem Wiring.run_on_turned_tape_across_the_end :
    (Wiring.run {} 9 [⟨.moveBackward, 0⟩, ⟨.increment, 1⟩, ⟨.output, 2⟩] (.blank 3)
      (.standard (.bytes []))).state.tape = ⟨#[0, 0, 1], 2, by decide⟩ ∧
    ((Tape.blank 3).rotate 1).cursor = 1 ∧
    (Wiring.run {} 9 [⟨.moveBackward, 0⟩, ⟨.increment, 1⟩, ⟨.output, 2⟩] ((Tape.blank 3).rotate 1)
      (.standard (.bytes []))).state.tape = ⟨#[1, 0, 0], 0, by decide⟩ ∧
    (Wiring.run {} 9 [⟨.moveBackward, 0⟩, ⟨.increment, 1⟩, ⟨.output, 2⟩] ((Tape.blank 3).rotate 1)
      (.standard (.bytes []))).state.writes = #[[1, 10]] := by
  obtain ⟨-, hwrites, -, -, -, -, htape⟩ := run_on_turned_tape {} rfl 9
    [⟨.moveBackward, 0⟩, ⟨.increment, 1⟩, ⟨.output, 2⟩] (.blank 3) (.standard (.bytes [])) 1
  rw [htape, hwrites]
  decide

end TapeLang
