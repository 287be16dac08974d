import TapeLang.Proofs.Progress

/-! A traced run rehearses a real one. It takes no byte and writes none, yet its
tape goes through the same states as that of a run whose every read finds the
end of the input and whose every write is taken. -/
namespace TapeLang

def Input.Exhausted (input : Input) : Prop := input.read = (.endOfInput, input)

/-- No read or write of a run has a part in raising the flag. -/
structure CancelPlan.Timed (plan : CancelPlan) : Prop where
  duringRead : plan.duringRead = none
  duringWrite : plan.duringWrite = none

theorem CancelPlan.Timed.raised_eq {plan : CancelPlan} (h : plan.Timed) {a b : Progress}
    (hticks : a.ticks = b.ticks) : plan.raised a = plan.raised b := by
  unfold raised
  rw [h.duringRead, h.duringWrite, hticks]
  rfl

theorem Control.interrupt_eq_of_timed {control : Control} (h : control.cancel.Timed)
    {a b : Progress} (hticks : a.ticks = b.ticks) : control.interrupt a = control.interrupt b := by
  unfold interrupt
  rw [h.raised_eq hticks, hticks]

/-- A traced wiring and a real one: they may differ in where characters go, but
nothing is refused and both have the same limits. -/
structure Wiring.Rehearses (w real : Wiring) : Prop where
  traced : w.traced = true
  stdout : w.stdout = .accepting
  untraced : real.traced = false
  output : real.output = .accepting
  control : w.control = real.control
  timed : ∀ control, real.control = some control → control.cancel.Timed

/-- The two machines agree, and the traced one has left its input and output alone. -/
structure State.Mirrors (input : Input) (s real : State) : Prop where
  tape : s.tape = real.tape
  ip : s.ip = real.ip
  ticks : s.ticks = real.ticks
  untouched : s.input = input
  reads : s.reads = 0
  writes : s.writes = #[]
  exhausted : real.input.Exhausted

inductive Step.Mirrors (input : Input) : Step → Step → Prop where
  | next {s real : State} (h : s.Mirrors input real) : Mirrors input (.next s) (.next real)
  | stop (outcome : Outcome) {s real : State} (h : s.Mirrors input real) :
      Mirrors input (.stop outcome s) (.stop outcome real)

theorem State.log_of_untraced {w : Wiring} (hw : w.traced = false) (s : State) (t : Token)
    (action : Action) : s.log w t action = s := by
  simp [log, hw]

namespace State.Mirrors

variable {input : Input} {s real : State}

theorem log (h : s.Mirrors input real) (w : Wiring) (t : Token) (action : Action) :
    (s.log w t action).Mirrors input real := by
  unfold State.log
  split
  · exact ⟨h.tape, h.ip, h.ticks, h.untouched, h.reads, h.writes, h.exhausted⟩
  · exact h

theorem goto (h : s.Mirrors input real) (ip : Nat) :
    (s.goto ip).Mirrors input (real.goto ip) :=
  ⟨h.tape, rfl, h.ticks, h.untouched, h.reads, h.writes, h.exhausted⟩

theorem onTape (h : s.Mirrors input real) (f : Tape → Tape) :
    (s.onTape f).Mirrors input (real.onTape f) :=
  ⟨congrArg f h.tape, h.ip, h.ticks, h.untouched, h.reads, h.writes, h.exhausted⟩

theorem tick (h : s.Mirrors input real) :
    Mirrors input { s with ticks := s.ticks + 1 } { real with ticks := real.ticks + 1 } :=
  ⟨h.tape, h.ip, congrArg (· + 1) h.ticks, h.untouched, h.reads, h.writes, h.exhausted⟩

theorem of_counts (h : s.Mirrors input real) (reads : Nat) (writes : Array Bytes) :
    s.Mirrors input { real with reads := reads, writes := writes } :=
  ⟨h.tape, h.ip, h.ticks, h.untouched, h.reads, h.writes, h.exhausted⟩

end State.Mirrors

namespace Wiring.Rehearses

variable {w real : Wiring} {p : Program} {input : Input} {s t : State}

theorem print (h : w.Rehearses real) (hs : s.Mirrors input t) (tok : Token) :
    Step.Mirrors input (w.print tok s) (real.print tok t) := by
  unfold Wiring.print
  rw [if_pos h.traced, h.untraced, h.output, hs.ip]
  simp only [Output.accepting]
  exact .next (((hs.log w tok _).goto (t.ip + 1)).of_counts _ _)

theorem readByte (h : w.Rehearses real) (hs : s.Mirrors input t) (tok : Token) :
    Step.Mirrors input (w.readByte tok s) (real.readByte tok t) := by
  unfold Wiring.readByte
  rw [if_pos h.traced, h.untraced, hs.exhausted, hs.ip]
  have hmoved := (hs.log w tok .exhausted).goto (t.ip + 1)
  exact .next ((hmoved.onTape (Tape.write Cell.endOfInput)).of_counts _ _)

theorem exec (h : w.Rehearses real) (hs : s.Mirrors input t) (tok : Token) :
    Step.Mirrors input (p.exec w tok s) (p.exec real tok t) := by
  obtain ⟨op, pos⟩ := tok
  unfold Program.exec
  simp only [State.log_of_untraced h.untraced, hs.ip]
  cases op with
  | increment => exact .next (((hs.log ..).goto _).onTape _)
  | decrement => exact .next (((hs.log ..).goto _).onTape _)
  | moveForward => exact .next (((hs.log ..).goto _).onTape _)
  | moveBackward => exact .next (((hs.log ..).goto _).onTape _)
  | output => exact h.print hs _
  | input => exact h.readByte hs _
  | loopOpen =>
    rw [hs.tape]
    cases p.loops.closeOf t.ip with
    | none => exact .stop _ hs
    | some close =>
      simp only []
      split
      · exact .next ((hs.log ..).goto _)
      · exact .next ((hs.log ..).goto _)
  | loopClose =>
    rw [hs.tape]
    cases p.loops.openOf t.ip with
    | none => exact .stop _ hs
    | some start =>
      simp only []
      split
      · exact .next ((hs.log ..).goto _)
      · exact .next ((hs.log ..).goto _)

theorem interrupt_eq (h : w.Rehearses real) (hs : s.Mirrors input t) :
    w.interrupt s = real.interrupt t := by
  unfold Wiring.interrupt
  rw [h.control]
  cases hcontrol : real.control with
  | none => rfl
  | some control => exact Control.interrupt_eq_of_timed (h.timed control hcontrol) hs.ticks

theorem step (h : w.Rehearses real) (hs : s.Mirrors input t) :
    Step.Mirrors input (p.step w s) (p.step real t) := by
  unfold Program.step
  rw [show p.tokens[s.ip]? = p.tokens[t.ip]? from congrArg (p.tokens[·]?) hs.ip, h.interrupt_eq hs]
  cases p.tokens[t.ip]? with
  | none => exact .stop _ hs
  | some tok =>
    cases real.interrupt t with
    | some f => exact .stop _ hs
    | none =>
      simp only [Wiring.printRow_of_printed _ (Wiring.rowRefusal_of_accepting s h.stdout),
        Wiring.printRow_of_untraced t _ h.untraced]
      exact h.exec hs.tick tok

theorem runFor (h : w.Rehearses real) (hs : s.Mirrors input t) (fuel : Nat) :
    (p.runFor w fuel s).outcome = (p.runFor real fuel t).outcome ∧
      (p.runFor w fuel s).state.Mirrors input (p.runFor real fuel t).state := by
  induction fuel generalizing s t with
  | zero => exact ⟨rfl, hs⟩
  | succ fuel ih =>
    have hstep := h.step (p := p) hs
    unfold Program.runFor
    generalize p.step w s = step at hstep ⊢
    generalize p.step real t = step' at hstep ⊢
    cases hstep with
    | next hnext => exact ih hnext
    | stop outcome hstop => exact ⟨rfl, hstop⟩

/-- Whatever the program and its limits, a traced run ends, or goes on, as the real
run does whose reads all find the end of the input: with the same answer, the
same tape and after the same number of instructions. It writes no character
and leaves its own input, whatever that is, as it was. -/
theorem traced_run_computes_real_run (h : w.Rehearses real) (tokens : List Token) (tape : Tape)
    (input : Input) {ended : Input} (hended : ended.Exhausted) (fuel : Nat) :
    (w.run fuel tokens tape input).outcome = (real.run fuel tokens tape ended).outcome ∧
    (w.run fuel tokens tape input).state.tape = (real.run fuel tokens tape ended).state.tape ∧
    (w.run fuel tokens tape input).state.ticks = (real.run fuel tokens tape ended).state.ticks ∧
    (w.run fuel tokens tape input).state.writes = #[] ∧
    (w.run fuel tokens tape input).state.reads = 0 ∧
    (w.run fuel tokens tape input).state.input = input := by
  unfold Wiring.run
  rw [Wiring.headingRefusal_of_accepting h.stdout, Wiring.headingRefusal_of_untraced h.untraced]
  cases Program.ofTokens tokens with
  | error bracket => exact ⟨rfl, rfl, rfl, rfl, rfl, rfl⟩
  | ok p =>
    have hstart : (State.initial w tape input).Mirrors input (State.initial real tape ended) :=
      ⟨rfl, rfl, rfl, rfl, rfl, rfl, hended⟩
    obtain ⟨houtcome, hmirrors⟩ := h.runFor (p := p) hstart fuel
    exact ⟨houtcome, hmirrors.tape, hmirrors.ticks, hmirrors.writes, hmirrors.reads,
      hmirrors.untouched⟩

theorem traced_run_computes_real_run_reading_loop :
    let control : Control := { maxSteps := some 5 }
    let tokens : List Token := [⟨.increment, 0⟩, ⟨.output, 1⟩, ⟨.loopOpen, 2⟩, ⟨.input, 3⟩,
      ⟨.loopClose, 4⟩, ⟨.output, 5⟩]
    let real := Wiring.run { collected := true, control := some control } 9 tokens (.blank 2)
      (.standard (.bytes []))
    let traced := Wiring.run { traced := true, control := some control } 9 tokens (.blank 2)
      (.standard (.bytes [65]))
    Wiring.Rehearses { traced := true, control := some control }
      { collected := true, control := some control } ∧
    (Input.standard (.bytes [])).Exhausted ∧
    real.outcome = .fault (.stepLimit 5) ∧ real.state.tape = ⟨#[-1, 0], 0, by decide⟩ ∧
    real.state.writes = #[[1, 10]] ∧ real.state.reads = 1 ∧
    traced.outcome = .fault (.stepLimit 5) ∧ traced.state.tape = ⟨#[-1, 0], 0, by decide⟩ ∧
    traced.state.ticks = 5 ∧ traced.state.writes = #[] ∧ traced.state.reads = 0 ∧
    traced.state.input = .standard (.bytes [65]) := by
  intro control tokens real traced
  have hrehearses : Wiring.Rehearses { traced := true, control := some control }
      { collected := true, control := some control } :=
    ⟨rfl, rfl, rfl, rfl, rfl, fun _ h => Option.some.inj h ▸ ⟨rfl, rfl⟩⟩
  have hended : (Input.standard (.bytes [])).Exhausted := rfl
  have hreal : real = ⟨.fault (.stepLimit 5),
      { tape := ⟨#[-1, 0], 0, by decide⟩, input := .standard (.bytes []), ip := 5, ticks := 5,
        reads := 1, writes := #[[1, 10]] }⟩ := by decide +kernel
  obtain ⟨houtcome, htape, hticks, hwrites, hreads, hinput⟩ :=
    hrehearses.traced_run_computes_real_run tokens (.blank 2) (.standard (.bytes [65])) hended 9
  change traced.outcome = real.outcome at houtcome
  change traced.state.tape = real.state.tape at htape
  change traced.state.ticks = real.state.ticks at hticks
  rw [hreal] at houtcome htape hticks
  rw [hreal]
  exact ⟨hrehearses, hended, rfl, rfl, rfl, rfl, houtcome, htape, hticks, hwrites, hreads, hinput⟩

end Wiring.Rehearses
end TapeLang
