import TapeLang.Proofs.ExecutionPaths

/-! Bytes that a run has not read. As long as its reads find bytes, a run cannot tell
how many more there are: more of them change nothing but what is left over. -/
namespace TapeLang

/-- A read by an input instruction: what it was answered, and the current cell after it. -/
structure Reading where
  answer : ReadResult
  cell : Cell
deriving DecidableEq, Repr

def Reading.ofByte (b : UInt8) : Reading := ⟨.byte b, .ofByte b⟩

def Reading.FindsByte (r : Reading) : Prop := ∃ b, r.answer = .byte b

/-- A source, and the same one with the bytes `more` behind those it holds. -/
def Source.Extends (source : Source) (more : Bytes) (a b : Input) : Prop :=
  ∃ bytes, a = source.holding bytes ∧ b = source.holding (bytes ++ more)

theorem Source.read_holding_cons (source : Source) (b : UInt8) (rest : Bytes) :
    (source.holding (b :: rest)).read = (.byte b, source.holding rest) := by
  cases source <;> rfl

theorem Source.exists_of_read_byte {source : Source} {bytes : Bytes} {b : UInt8}
    (h : (source.holding bytes).read.1 = .byte b) : ∃ rest, bytes = b :: rest := by
  cases bytes with
  | nil => cases source <;> cases h
  | cons first rest =>
    rw [read_holding_cons] at h
    cases h
    exact ⟨rest, rfl⟩

@[simp] theorem Source.bytes_holding (source : Source) (bytes : Bytes) :
    (source.holding bytes).toQueue.bytes = bytes := by
  cases source <;> rfl

theorem Step.Pairs.tape_eq {A : Input → Input → Prop} {left right : Step}
    (h : Step.Pairs (State.Alike A) left right) : right.state.tape = left.state.tape := by
  cases h with
  | next h =>
    obtain ⟨input, -, rfl⟩ := h
    rfl
  | stop outcome h =>
    obtain ⟨input, -, rfl⟩ := h
    rfl

namespace Program

variable {p : Program} {w : Wiring} {tok : Token} {s t : State}

def readings (p : Program) (w : Wiring) (s : State) : List Reading :=
  match p.executes w s with
  | some tok => if w.asks tok then [⟨s.input.read.1, (p.step w s).state.tape.read⟩] else []
  | none => []

theorem readings_of_asks (htok : p.executes w s = some tok) (hasks : w.asks tok = true) :
    p.readings w s = [⟨s.input.read.1, (p.step w s).state.tape.read⟩] := by
  simp only [readings, htok, hasks, if_true]

theorem readings_of_not_asks (htok : p.executes w s = some tok) (hasks : w.asks tok = false) :
    p.readings w s = [] := by
  simp [readings, htok, hasks]

theorem exec_of_byte {b : UInt8} {rest : Input} (hasks : w.asks tok = true)
    (hread : s.input.read = (.byte b, rest)) :
    p.exec w tok s = .next ((s.take rest (Cell.ofByte b)).goto (s.ip + 1)) := by
  obtain ⟨huntraced, hexec⟩ := exec_of_asks (p := p) (s := s) hasks
  rw [hexec, Wiring.readByte, huntraced, hread]
  rfl

theorem exec_extends {source : Source} {bytes : Bytes} (more : Bytes)
    (hinput : s.input = source.holding bytes)
    (hbyte : w.asks tok = true → ∃ b, s.input.read.1 = .byte b) :
    Step.Pairs (State.Alike (source.Extends more)) (p.exec w tok s)
      (p.exec w tok (s.feed (source.holding (bytes ++ more)))) := by
  cases hasks : w.asks tok with
  | false =>
    have hread : w.ReadsAlike (source.Extends more) tok := by
      intro h
      rw [hasks] at h
      cases h
    exact exec_alike hread ⟨bytes, hinput, rfl⟩
  | true =>
    obtain ⟨b, hb⟩ := hbyte hasks
    rw [hinput] at hb
    obtain ⟨rest, rfl⟩ := Source.exists_of_read_byte hb
    have hread : s.input.read = (.byte b, source.holding rest) := by
      rw [hinput, Source.read_holding_cons]
    have hread' : (s.feed (source.holding (b :: rest ++ more))).input.read =
        (.byte b, source.holding (rest ++ more)) := source.read_holding_cons b (rest ++ more)
    rw [exec_of_byte hasks hread, exec_of_byte hasks hread']
    exact .next ⟨_, ⟨rest, rfl, rfl⟩, rfl⟩

theorem step_extends {source : Source} {more : Bytes} (h : s.Alike (source.Extends more) t)
    (hbytes : ∀ r ∈ p.readings w s, r.FindsByte) :
    p.readings w t = p.readings w s ∧
      Step.Pairs (State.Alike (source.Extends more)) (p.step w s) (p.step w t) := by
  obtain ⟨_, ⟨bytes, hinput, rfl⟩, rfl⟩ := h
  have hbyte : ∀ tok, p.executes w s = some tok → w.asks tok = true →
      ∃ b, s.input.read.1 = .byte b := by
    intro tok htok hasks
    rw [readings_of_asks htok hasks] at hbytes
    exact hbytes _ List.mem_cons_self
  have hpairs : Step.Pairs (State.Alike (source.Extends more)) (p.step w s)
      (p.step w (s.feed (source.holding (bytes ++ more)))) := by
    refine step_pairs ⟨_, ⟨bytes, hinput, rfl⟩, rfl⟩ rfl rfl rfl State.Alike.withTrace ?_
    intro tok htok
    exact exec_extends (s := { s with ticks := s.ticks + 1 }) more hinput (hbyte tok htok)
  refine ⟨?_, hpairs⟩
  unfold readings
  rw [show p.executes w (s.feed (source.holding (bytes ++ more))) = p.executes w s from rfl]
  cases htok : p.executes w s with
  | none => rfl
  | some tok =>
    cases hasks : w.asks tok with
    | false => simp [hasks]
    | true =>
      obtain ⟨b, hb⟩ := hbyte tok htok hasks
      rw [hinput] at hb
      obtain ⟨rest, rfl⟩ := Source.exists_of_read_byte hb
      have hanswer : (s.feed (source.holding (b :: rest ++ more))).input.read.1 =
          s.input.read.1 := by
        rw [hinput, hb]
        exact congrArg Prod.fst (source.read_holding_cons b (rest ++ more))
      simp only [hanswer, hpairs.tape_eq]

/-- On the way from `s` to `t` the readings take bytes off the front of the input, and
store each of them. -/
structure Collects (readings : List Reading) (s t : State) (taken : Bytes) : Prop where
  readings_eq : readings = taken.map Reading.ofByte
  reads : t.reads = s.reads + taken.length
  bytes : s.input.toQueue.bytes = taken ++ t.input.toQueue.bytes

theorem Collects.append {readings later : List Reading} {s t u : State} {taken taken' : Bytes}
    (hst : Collects readings s t taken) (htu : Collects later t u taken') :
    Collects (readings ++ later) s u (taken ++ taken') where
  readings_eq := by rw [hst.readings_eq, htu.readings_eq, List.map_append]
  reads := by
    rw [htu.reads, hst.reads, List.length_append]
    omega
  bytes := by rw [hst.bytes, htu.bytes, List.append_assoc]

theorem reads_exec_of_not_asks (h : w.asks tok = false) :
    (p.exec w tok s).state.reads = s.reads := by
  refine apart_exec_of_not_asks State.apart_reads ?_ h
  unfold Wiring.print
  split
  · exact State.apart_reads.log ..
  split <;> rfl

theorem collects_step (p : Program) (w : Wiring) (s : State)
    (hbytes : ∀ r ∈ p.readings w s, r.FindsByte) :
    ∃ taken, Collects (p.readings w s) s (p.step w s).state taken := by
  cases htok : p.executes w s with
  | none =>
    rw [state_step_of_idle htok, show p.readings w s = [] by simp [readings, htok]]
    exact ⟨[], rfl, rfl, rfl⟩
  | some tok =>
    have hstep := step_of_executes htok
    cases hasks : w.asks tok with
    | false =>
      rw [readings_of_not_asks htok hasks, hstep]
      refine ⟨[], rfl, ?_, ?_⟩
      · rw [Wiring.reads_printRow, reads_exec_of_not_asks hasks]
        rfl
      · rw [Wiring.input_printRow, input_exec_of_not_asks hasks]
        rfl
    | true =>
      rw [readings_of_asks htok hasks] at hbytes ⊢
      obtain ⟨b, hb⟩ : ∃ b, s.input.read.1 = .byte b := hbytes _ List.mem_cons_self
      have hread : s.input.read = (.byte b, s.input.read.2) := Prod.ext hb rfl
      have hqueue := s.input.bytes_read
      rw [hb] at hqueue
      rw [hstep, exec_of_byte (s := { s with ticks := s.ticks + 1 }) hasks hread, hb]
      refine ⟨[b], ?_, by rw [Wiring.reads_printRow]; rfl,
        by rw [Wiring.input_printRow]; exact hqueue.symm⟩
      rw [Wiring.tape_printRow]
      exact congrArg (fun v => [Reading.mk (.byte b) v]) (s.tape.read_modify fun _ => Cell.ofByte b)

theorem collects_runFor (p : Program) (w : Wiring) (fuel : Nat) (s : State)
    (hbytes : ∀ r ∈ p.notesFor w (p.readings w) fuel s, r.FindsByte) :
    ∃ taken, Collects (p.notesFor w (p.readings w) fuel s) s (p.runFor w fuel s).state taken := by
  revert hbytes
  apply runFor_of_notes (R := fun readings s t =>
    (∀ r ∈ readings, r.FindsByte) → ∃ taken, Collects readings s t taken)
  · intro s _
    exact ⟨[], rfl, rfl, rfl⟩
  · intro readings later s t u hst htu hbytes
    rw [List.forall_mem_append] at hbytes
    obtain ⟨taken, hfirst⟩ := hst hbytes.1
    obtain ⟨taken', hsecond⟩ := htu hbytes.2
    exact ⟨taken ++ taken', hfirst.append hsecond⟩
  · exact collects_step p w

end Program

namespace Wiring

variable (w : Wiring) (fuel : Nat) (tokens : List Token) (tape : Tape)

def readings (input : Input) : List Reading :=
  w.notes (Program.readings · w) fuel tokens tape input

theorem collects_run (input : Input)
    (hbytes : ∀ r ∈ w.readings fuel tokens tape input, r.FindsByte) :
    ∃ taken, Program.Collects (w.readings fuel tokens tape input) { tape, input }
      (w.run fuel tokens tape input).state taken := by
  unfold readings at hbytes ⊢
  rcases w.run_and_notes (Program.readings · w) fuel tokens tape input with
    ⟨hnotes, trace, hstate⟩ | ⟨p, hnotes, hrun⟩
  · rw [hnotes, hstate]
    exact ⟨[], rfl, rfl, rfl⟩
  · rw [hnotes] at hbytes ⊢
    rw [hrun]
    obtain ⟨taken, hcollects⟩ := p.collects_runFor w fuel (State.initial w tape input) hbytes
    exact ⟨taken, hcollects.readings_eq, hcollects.reads, hcollects.bytes⟩

/-- A run whose reads all find bytes knows only those it reads. With any others behind
them it ends, or goes on, in the same way, its reads take the same bytes off the
front and store them one by one, and what it leaves to the next reader is what it
has not read of the bytes at hand and then all the others. -/
theorem run_depends_on_bytes_read (source : Source) (u v : Bytes)
    (hbytes : ∀ r ∈ w.readings fuel tokens tape (source.holding u), ∃ b, r.answer = .byte b) :
    (w.run fuel tokens tape (source.holding (u ++ v))).outcome =
      (w.run fuel tokens tape (source.holding u)).outcome ∧
    (w.run fuel tokens tape (source.holding (u ++ v))).state.tape =
      (w.run fuel tokens tape (source.holding u)).state.tape ∧
    (w.run fuel tokens tape (source.holding (u ++ v))).state.writes =
      (w.run fuel tokens tape (source.holding u)).state.writes ∧
    (w.run fuel tokens tape (source.holding (u ++ v))).stdout w =
      (w.run fuel tokens tape (source.holding u)).stdout w ∧
    (w.run fuel tokens tape (source.holding (u ++ v))).state.ticks =
      (w.run fuel tokens tape (source.holding u)).state.ticks ∧
    (w.run fuel tokens tape (source.holding (u ++ v))).state.reads =
      (w.run fuel tokens tape (source.holding u)).state.reads ∧
    ∃ taken left : Bytes, u = taken ++ left ∧
      (w.run fuel tokens tape (source.holding u)).state.reads = taken.length ∧
      w.readings fuel tokens tape (source.holding (u ++ v)) = taken.map Reading.ofByte ∧
      (w.run fuel tokens tape (source.holding (u ++ v))).state.input =
        source.holding (left ++ v) := by
  have hstart : source.Extends v (source.holding u) (source.holding (u ++ v)) :=
    ⟨u, rfl, rfl⟩
  obtain ⟨houtcome, halike, hreadings⟩ :=
    run_pairs_of_notes (fun p _ s t => Program.step_extends) (fun _ => ⟨_, hstart, rfl⟩) fuel
      hbytes
  have hstdout := Run.stdout_of_alike halike w
  obtain ⟨taken, hcollects⟩ := w.collects_run fuel tokens tape (source.holding u) hbytes
  obtain ⟨_, ⟨left, hleft, rfl⟩, hstate⟩ := halike
  have hu := hcollects.bytes
  rw [hleft, Source.bytes_holding, Source.bytes_holding] at hu
  have hreads := hcollects.reads
  rw [Nat.zero_add] at hreads
  refine ⟨houtcome.symm, ?_, ?_, hstdout, ?_, ?_, taken, left, hu, hreads,
    hreadings.trans hcollects.readings_eq, ?_⟩
  all_goals
    rw [hstate]
    rfl

end Wiring

theorem Wiring.run_depends_on_bytes_read_next_line :
    let tokens : List Token := [⟨.input, 0⟩, ⟨.loopOpen, 1⟩, ⟨.output, 2⟩, ⟨.input, 3⟩,
      ⟨.loopClose, 4⟩]
    let w : Wiring := { mode := .raw }
    let u : Bytes := [72, 105, 0, 33]
    let v : Bytes := [43, 10]
    (∀ r ∈ w.readings 20 tokens (.blank 1) (Source.queue.holding u), ∃ b, r.answer = .byte b) ∧
    (w.run 20 tokens (.blank 1) (Source.queue.holding u)).outcome = .halted ∧
    (w.run 20 tokens (.blank 1) (Source.queue.holding (u ++ v))).outcome = .halted ∧
    (w.run 20 tokens (.blank 1) (Source.queue.holding (u ++ v))).state.writes = #[[72], [105]] ∧
    w.readings 20 tokens (.blank 1) (Source.queue.holding (u ++ v)) =
      [72, 105, 0].map Reading.ofByte ∧
    (w.run 20 tokens (.blank 1) (Source.queue.holding (u ++ v))).state.input =
      Source.queue.holding [33, 43, 10] := by
  intro tokens w u v
  have hfound : w.readings 20 tokens (.blank 1) (Source.queue.holding u) =
      [72, 105, 0].map Reading.ofByte := by decide
  have hbytes : ∀ r ∈ w.readings 20 tokens (.blank 1) (Source.queue.holding u),
      ∃ b, r.answer = .byte b := by
    rw [hfound]
    simp [Reading.ofByte]
  have hhalted : (w.run 20 tokens (.blank 1) (Source.queue.holding u)).outcome = .halted := by
    decide
  have hechoed : (w.run 20 tokens (.blank 1) (Source.queue.holding u)).state.writes =
      #[[72], [105]] := by decide
  obtain ⟨houtcome, -, hwrites, -, -, -, taken, left, hu, hreads, hreadings, hinput⟩ :=
    w.run_depends_on_bytes_read 20 tokens (.blank 1) .queue u v hbytes
  have hthree : taken.length = 3 := hreads.symm.trans (by decide)
  have hsplit : taken ++ left = [72, 105, 0] ++ [33] := hu.symm
  obtain ⟨rfl, rfl⟩ := List.append_inj hsplit hthree
  exact ⟨hbytes, hhalted, houtcome.trans hhalted, hwrites.trans hechoed, hreadings, hinput⟩

end TapeLang
