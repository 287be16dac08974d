import TapeLang.Proofs.Lockstep

/-! What a program prints. Every output instruction writes the character of the
current cell, in one call; the output mode decides what follows the character in
that call and has no other part in a run. -/
namespace TapeLang

/-- The character that stands for a cell: the one whose code the cell holds or, where
there is none, the replacement character. -/
def Cell.Shows (v : Cell) (c : Char) : Prop :=
  if 0 ≤ v.toInt ∧ v.toInt ≤ 0x10FFFF ∧ ¬ (0xD800 ≤ v.toInt ∧ v.toInt ≤ 0xDFFF) then
    (c.toNat : Int) = v.toInt
  else c.toNat = 0xFFFD

theorem Cell.shows_toChar (v : Cell) : v.Shows v.toChar := by
  have hzero : 0 ≤ v ↔ 0 ≤ v.toInt := Int32.le_iff_toInt_le
  unfold Shows toChar
  by_cases hvalid : 0 ≤ v ∧ v.toInt.toNat.isValidChar
  · have hcode : (Char.ofNat v.toInt.toNat).toNat = v.toInt.toNat := by
      rw [Char.ofNat, dif_pos hvalid.2]
      rfl
    rw [hzero] at hvalid
    rw [if_pos, if_pos, hcode]
    · omega
    · exact ⟨hzero.mpr hvalid.1, hvalid.2⟩
    · omega
  · rw [if_neg hvalid, if_neg]
    · decide
    · rw [hzero] at hvalid
      omega

theorem OutputMode.length_encode_line (c : Char) : (OutputMode.line.encode c).length ≤ 5 := by
  have hchar := c.utf8Size_le_four
  simp only [encode, List.length_append, String.length_utf8EncodeChar, List.length_singleton]
  omega

namespace Utf8

theorem decode?_flatMap (chars : List Char) :
    decode? (chars.flatMap String.utf8EncodeChar) = some (String.ofList chars) := by
  have hbytes : (⟨(chars.flatMap String.utf8EncodeChar).toArray⟩ : ByteArray) =
      (String.ofList chars).toByteArray := by
    apply ByteArray.ext
    simp [List.utf8Encode]
  rw [decode?, hbytes, String.fromUTF8?, dif_pos (String.ofList chars).isValidUTF8]
  rfl

end Utf8

namespace Wiring

variable (w : Wiring) (mode : OutputMode)

def inMode : Wiring := { w with mode := mode }

@[simp] theorem traced_inMode : (w.inMode mode).traced = w.traced := rfl

@[simp] theorem headingRefusal_inMode : (w.inMode mode).headingRefusal = w.headingRefusal := rfl

@[simp] theorem output_inMode : (w.inMode mode).output = w.output := rfl

end Wiring

namespace State

def withLineEnds (s : State) : State := { s with writes := s.writes.map (· ++ [0x0A]) }

variable (s : State)

theorem withLineEnds_of_silent {s : State} (h : s.writes = #[]) : s.withLineEnds = s := by
  cases s
  cases h
  simp [withLineEnds]

@[simp] theorem progress_withLineEnds : s.withLineEnds.progress = s.progress := by
  simp [progress, withLineEnds]

@[simp] theorem log_withLineEnds (w : Wiring) (tok : Token) (action : Action) :
    s.withLineEnds.log (w.inMode .line) tok action =
      (s.log (w.inMode .raw) tok action).withLineEnds := by
  unfold log
  rw [Wiring.traced_inMode, Wiring.traced_inMode]
  split <;> rfl

theorem initial_withLineEnds (w : Wiring) (tape : Tape) (input : Input) :
    (initial (w.inMode .raw) tape input).withLineEnds = initial (w.inMode .line) tape input :=
  withLineEnds_of_silent rfl

end State

section Modes

variable (w : Wiring) (p : Program) (tok : Token) (s : State)

theorem Wiring.print_withLineEnds : (w.inMode .line).print tok s.withLineEnds =
    ((w.inMode .raw).print tok s).map id State.withLineEnds := by
  unfold print
  have hsize : s.withLineEnds.writes.size = s.writes.size := Array.size_map
  rw [State.log_withLineEnds, traced_inMode, traced_inMode, output_inMode, output_inMode, hsize]
  split
  · rfl
  cases w.output.refusal s.writes.size with
  | none => simp [Step.map, State.withLineEnds, OutputMode.encode, inMode]
  | some reason => rfl

theorem Wiring.readByte_withLineEnds : (w.inMode .line).readByte tok s.withLineEnds =
    ((w.inMode .raw).readByte tok s).map id State.withLineEnds := by
  unfold readByte
  rw [State.log_withLineEnds, traced_inMode, traced_inMode,
    show s.withLineEnds.input = s.input from rfl]
  split
  · rfl
  rcases s.input.read with ⟨answer, rest⟩
  cases answer <;> rfl

theorem Program.exec_withLineEnds : p.exec (w.inMode .line) tok s.withLineEnds =
    (p.exec (w.inMode .raw) tok s).map id State.withLineEnds := by
  obtain ⟨op, pos⟩ := tok
  unfold exec
  simp only [State.log_withLineEnds, show s.withLineEnds.tape = s.tape from rfl,
    show s.withLineEnds.ip = s.ip from rfl]
  cases op with
  | increment => rfl
  | decrement => rfl
  | moveForward => rfl
  | moveBackward => rfl
  | output => exact w.print_withLineEnds _ s
  | input => exact w.readByte_withLineEnds _ s
  | loopOpen =>
    cases p.loops.closeOf s.ip with
    | none => rfl
    | some close =>
      simp only []
      split <;> rfl
  | loopClose =>
    cases p.loops.openOf s.ip with
    | none => rfl
    | some start =>
      simp only []
      split <;> rfl

theorem Wiring.interrupt_withLineEnds :
    (w.inMode .line).interrupt s.withLineEnds = (w.inMode .raw).interrupt s := by
  simp [interrupt, inMode]

theorem Program.step_withLineEnds : p.step (w.inMode .line) s.withLineEnds =
    (p.step (w.inMode .raw) s).map id State.withLineEnds := by
  apply step_map State.withLineEnds
  · rfl
  · exact w.interrupt_withLineEnds s
  · rfl
  · exact fun _ => rfl
  · intro tok
    exact exec_withLineEnds w p tok { s with ticks := s.ticks + 1 }

end Modes

theorem Wiring.run_withLineEnds (w : Wiring) (fuel : Nat) (tokens : List Token) (tape : Tape)
    (input : Input) : (w.inMode .line).run fuel tokens tape input =
      ((w.inMode .raw).run fuel tokens tape input).map id State.withLineEnds := by
  have hbefore : ∀ trace, State.withLineEnds { tape, input, trace } = { tape, input, trace } :=
    fun _ => State.withLineEnds_of_silent rfl
  unfold run
  simp only [headingRefusal_inMode]
  cases Program.ofTokens tokens with
  | error bracket => simp only [Run.map, hbefore, id]
  | ok p =>
    simp only []
    split
    · simp only [Run.map, hbefore, id]
      rfl
    · rw [← State.initial_withLineEnds]
      exact Program.runFor_map id State.withLineEnds rfl (Program.step_withLineEnds w p) fuel _

/-- A run that differs from another in its separators only: where the other writes
the characters of `cells`, a call for each, it writes them with a newline after
each. What either writes is well-formed text. -/
structure Run.Separates (line : Run) (cells : List Cell) (raw : Run) : Prop where
  outcome : line.outcome = raw.outcome
  tape : line.state.tape = raw.state.tape
  input : line.state.input = raw.state.input
  reads : line.state.reads = raw.state.reads
  ticks : line.state.ticks = raw.state.ticks
  trace : line.state.trace = raw.state.trace
  size_raw : raw.state.writes.size = cells.length
  size_line : line.state.writes.size = cells.length
  call : ∀ (k : Nat) (v : Cell), cells[k]? = some v → ∃ c : Char, v.Shows c ∧
    raw.state.writes[k]? = some (String.utf8EncodeChar c) ∧
    line.state.writes[k]? = some (String.utf8EncodeChar c ++ [0x0A]) ∧
    (String.utf8EncodeChar c ++ [0x0A]).length ≤ 5
  text_raw : Utf8.decode? raw.state.writes.toList.flatten =
    some (String.ofList (cells.map Cell.toChar))
  text_line : Utf8.decode? line.state.writes.toList.flatten =
    some (String.ofList ((cells.map Cell.toChar).flatMap fun c => [c, '\n']))

theorem Run.separates_of_calls {raw : Run} {cells : List Cell}
    (hraw : raw.state.writes.toList = (cells.map Cell.toChar).map OutputMode.raw.encode) :
    (raw.map id State.withLineEnds).Separates cells raw := by
  have hline : (raw.map id State.withLineEnds).state.writes.toList =
      (cells.map Cell.toChar).map OutputMode.line.encode := by
    simp [Run.map, State.withLineEnds, hraw, OutputMode.encode]
  refine ⟨rfl, rfl, rfl, rfl, rfl, rfl, ?_, ?_, ?_, ?_, ?_⟩
  · simpa using congrArg List.length hraw
  · simpa using congrArg List.length hline
  · intro k v hv
    refine ⟨v.toChar, v.shows_toChar, ?_, ?_, OutputMode.length_encode_line v.toChar⟩
    · rw [← Array.getElem?_toList, hraw]
      simp [hv, OutputMode.encode]
    · rw [← Array.getElem?_toList, hline]
      simp [hv, OutputMode.encode]
  · rw [hraw, ← List.flatMap_def]
    exact Utf8.decode?_flatMap _
  · rw [hline, ← List.flatMap_def, ← Utf8.decode?_flatMap, List.flatMap_assoc]
    rfl

def Wiring.emits (w : Wiring) (tok : Token) : Bool := !w.traced && tok.op == .output

def Program.prints (p : Program) (w : Wiring) (s : State) : List Cell :=
  match p.executes w s with
  | some tok => if w.emits tok then [s.tape.read] else []
  | none => []

/-- The current cell at each output instruction that a run executes, in order. -/
def Wiring.printed (w : Wiring) (fuel : Nat) (tokens : List Token) (tape : Tape) (input : Input) :
    List Cell :=
  w.notes (Program.prints · w) fuel tokens tape input

def Wiring.Writes (w : Wiring) (cells : List Cell) (s t : State) : Prop :=
  t.writes.toList = s.writes.toList ++ cells.map fun v => w.mode.encode v.toChar

theorem Wiring.Writes.of_eq {w : Wiring} {s t : State} (h : t.writes = s.writes) :
    w.Writes [] s t := by
  simp [Writes, h]

theorem Wiring.Writes.append {w : Wiring} {cells later : List Cell} {s t u : State}
    (hst : w.Writes cells s t) (htu : w.Writes later t u) : w.Writes (cells ++ later) s u := by
  unfold Writes at *
  rw [htu, hst, List.map_append, List.append_assoc]

theorem State.apart_writes : Apart State.writes where
  log s w tok action := by
    unfold log
    split <;> rfl
  goto _ _ := rfl
  onTape _ _ := rfl

namespace Program

variable {p : Program} {w : Wiring} (hout : w.output = .accepting) (tok : Token) (s : State)

theorem writes_exec_of_quiet (hquiet : w.emits tok = false) :
    (p.exec w tok s).state.writes = s.writes := by
  refine exec_of_apart State.apart_writes (fun hop => ?_) fun _ => ?_
  · have htraced : w.traced = true := by simpa [Wiring.emits, hop] using hquiet
    simp only [Wiring.print, htraced, if_true]
    exact State.apart_writes.log ..
  · unfold Wiring.readByte
    split
    · exact State.apart_writes.log ..
    split <;> rfl

include hout

theorem writes_exec : w.Writes (if w.emits tok then [s.tape.read] else []) s
    (p.exec w tok s).state := by
  cases hemits : w.emits tok with
  | false => exact .of_eq (writes_exec_of_quiet tok s hemits)
  | true =>
    obtain ⟨op, pos⟩ := tok
    simp only [Wiring.emits, Bool.and_eq_true, Bool.not_eq_true', beq_iff_eq] at hemits
    obtain ⟨huntraced, rfl⟩ := hemits
    simp [exec, Wiring.print, huntraced, hout, Output.accepting, Step.state, Wiring.Writes]

theorem writes_step : w.Writes (p.prints w s) s (p.step w s).state := by
  unfold prints
  cases htok : p.executes w s with
  | none =>
    rw [state_step_of_idle htok]
    exact .of_eq rfl
  | some tok =>
    rw [step_of_executes htok]
    unfold Wiring.Writes
    rw [Wiring.writes_printRow]
    exact writes_exec hout tok { s with ticks := s.ticks + 1 }

theorem writes_runFor (fuel : Nat) :
    w.Writes (p.notesFor w (p.prints w) fuel s) s (p.runFor w fuel s).state :=
  runFor_of_notes (fun _ => .of_eq rfl) .append (writes_step hout) fuel s

end Program

namespace Wiring

variable (w : Wiring) (fuel : Nat) (tokens : List Token) (tape : Tape) (input : Input)

theorem writes_run (hout : w.output = .accepting) :
    (w.run fuel tokens tape input).state.writes.toList =
      ((w.printed fuel tokens tape input).map Cell.toChar).map w.mode.encode := by
  have hwrites : w.Writes (w.printed fuel tokens tape input) { tape, input }
      (w.run fuel tokens tape input).state := by
    unfold printed
    rcases w.run_and_notes (Program.prints · w) fuel tokens tape input with
      ⟨hnotes, trace, hstate⟩ | ⟨p, hnotes, hrun⟩
    · rw [hnotes, hstate]
      exact .of_eq rfl
    · rw [hnotes, hrun]
      exact Program.writes_runFor hout (State.initial w tape input) fuel
  unfold Writes at hwrites
  rw [hwrites, List.map_map]
  rfl

theorem prints_withLineEnds (p : Program) (s : State) :
    p.prints (w.inMode .line) s.withLineEnds = p.prints (w.inMode .raw) s := by
  unfold Program.prints Program.executes
  rw [w.interrupt_withLineEnds]
  rfl

theorem printed_line : (w.inMode .line).printed fuel tokens tape input =
    (w.inMode .raw).printed fuel tokens tape input := by
  unfold printed notes
  simp only [headingRefusal_inMode]
  cases Program.ofTokens tokens with
  | error bracket => rfl
  | ok p =>
    simp only []
    split
    · rfl
    · rw [← State.initial_withLineEnds]
      exact Program.notesFor_map id State.withLineEnds (Program.step_withLineEnds w p)
        (w.prints_withLineEnds p) fuel _

/-- With a collector, which takes all output, runs in the two modes differ in the
separators they write and in nothing else, whatever their program, their input and
their limits. They print the same cells. -/
theorem mode_only_separates (hcollected : w.collected = true) :
    (w.inMode .line).printed fuel tokens tape input =
      (w.inMode .raw).printed fuel tokens tape input ∧
    ((w.inMode .line).run fuel tokens tape input).Separates
      ((w.inMode .raw).printed fuel tokens tape input)
      ((w.inMode .raw).run fuel tokens tape input) := by
  have hout : (w.inMode .raw).output = .accepting := by
    rw [output_inMode, Wiring.output, if_pos hcollected]
  refine ⟨w.printed_line fuel tokens tape input, ?_⟩
  rw [run_withLineEnds]
  exact Run.separates_of_calls ((w.inMode .raw).writes_run fuel tokens tape input hout)

end Wiring

theorem Wiring.mode_only_separates_past_the_end :
    let w : Wiring := { collected := true }
    let tokens : List Token := [⟨.input, 0⟩, ⟨.output, 1⟩, ⟨.input, 2⟩, ⟨.output, 3⟩]
    let input : Input := .standard (.bytes [233])
    (w.inMode .raw).printed 9 tokens (.blank 1) input = [233, -1] ∧
    ((w.inMode .line).run 9 tokens (.blank 1) input).outcome = .halted ∧
    ((w.inMode .raw).run 9 tokens (.blank 1) input).state.writes[1]? = some [239, 191, 189] ∧
    ((w.inMode .line).run 9 tokens (.blank 1) input).state.writes[1]? =
      some [239, 191, 189, 10] := by
  intro w tokens input
  have hcells : (w.inMode .raw).printed 9 tokens (.blank 1) input = [233, -1] := by decide
  have hseparates := (w.mode_only_separates 9 tokens (.blank 1) input rfl).2
  obtain ⟨c, hshows, hraw, hline, -⟩ := hseparates.call 1 (-1) (by rw [hcells]; rfl)
  have hc : c = '�' := Char.toNat_inj.mp hshows
  subst hc
  exact ⟨hcells, hseparates.outcome.trans (by decide), hraw, hline⟩

end TapeLang
