import TapeLang.Machine.Run

/-! The counts of a run. Executing an instruction leaves the ticks to the step
around it and never takes back a read or a write, so a step adds one tick and
no count goes down. -/
namespace TapeLang

def Step.state : Step → State
  | .next s => s
  | .stop _ s => s

@[simp] theorem Output.refusal_accepting (k : Nat) : accepting.refusal k = none := rfl

@[simp] theorem Output.after_accepting (calls : Nat) : accepting.after calls = accepting := rfl

theorem Output.firstRefusal_accepting (calls : Nat) : accepting.firstRefusal calls = none :=
  List.findSome?_eq_none_iff.mpr fun _ _ => rfl

namespace Wiring

variable (w : Wiring) (s : State) (step : Step)

variable {w} in
theorem headingRefusal_of_untraced (h : w.traced = false) : w.headingRefusal = none := by
  simp [headingRefusal, heading, h, Output.firstRefusal]

variable {w} in
theorem headingRefusal_of_accepting (h : w.stdout = .accepting) : w.headingRefusal = none := by
  rw [headingRefusal, h, Output.firstRefusal_accepting]

variable {w} in
theorem rowRefusal_of_untraced (h : w.traced = false) : w.rowRefusal s = none := by
  simp [rowRefusal, h]

variable {w} in
theorem rowRefusal_of_accepting (h : w.stdout = .accepting) : w.rowRefusal s = none := by
  simp [rowRefusal, h]

variable {w s} in
theorem printRow_of_printed (h : w.rowRefusal s = none) : w.printRow s step = step := by
  cases step with
  | next after => simp only [printRow, h]
  | stop outcome after => rfl

variable {w} in
theorem printRow_of_untraced (h : w.traced = false) : w.printRow s step = step :=
  printRow_of_printed step (rowRefusal_of_untraced s h)

variable {w s step} in
theorem printRow_eq_next {after : State} (h : w.printRow s step = .next after) :
    step = .next after ∧ w.rowRefusal s = none := by
  cases step with
  | stop outcome u => cases h
  | next u =>
    simp only [printRow] at h
    split at h
    next hprinted => exact ⟨h, hprinted⟩
    · cases h

variable {w s step} in
theorem printRow_eq_stop {outcome : Outcome} {after : State}
    (h : w.printRow s step = .stop outcome after) :
    step = .stop outcome after ∨ ∃ reason u, step = .next u ∧ w.rowRefusal s = some reason ∧
      outcome = .crashed reason ∧ after = { u with trace := s.trace } := by
  cases step with
  | stop outcome u => exact .inl h
  | next u =>
    simp only [printRow] at h
    split at h
    · cases h
    next reason hrefused =>
      cases h
      exact .inr ⟨reason, u, rfl, hrefused, rfl, rfl⟩

/-- A row that is refused takes nothing back but itself. -/
theorem printRow_keeps {α : Type} {f : State → α}
    (hf : ∀ (u : State) (trace : Array TraceLine), f { u with trace := trace } = f u) :
    f (w.printRow s step).state = f step.state := by
  cases step with
  | stop outcome after => rfl
  | next after =>
    simp only [printRow]
    split
    · rfl
    · exact hf after s.trace

@[simp] theorem tape_printRow : (w.printRow s step).state.tape = step.state.tape :=
  printRow_keeps w s step fun _ _ => rfl

@[simp] theorem input_printRow : (w.printRow s step).state.input = step.state.input :=
  printRow_keeps w s step fun _ _ => rfl

@[simp] theorem ip_printRow : (w.printRow s step).state.ip = step.state.ip :=
  printRow_keeps w s step fun _ _ => rfl

@[simp] theorem reads_printRow : (w.printRow s step).state.reads = step.state.reads :=
  printRow_keeps w s step fun _ _ => rfl

@[simp] theorem writes_printRow : (w.printRow s step).state.writes = step.state.writes :=
  printRow_keeps w s step fun _ _ => rfl

@[simp] theorem progress_printRow : (w.printRow s step).state.progress = step.state.progress :=
  printRow_keeps w s step fun _ _ => rfl

end Wiring

instance : LE Progress :=
  ⟨fun a b => a.ticks ≤ b.ticks ∧ a.reads ≤ b.reads ∧ a.writes ≤ b.writes⟩

theorem Progress.le_refl (a : Progress) : a ≤ a :=
  ⟨Nat.le_refl _, Nat.le_refl _, Nat.le_refl _⟩

namespace State

@[simp] theorem progress_log (s : State) (w : Wiring) (t : Token) (action : Action) :
    (s.log w t action).progress = s.progress := by
  unfold log
  split <;> rfl

@[simp] theorem progress_goto (s : State) (ip : Nat) : (s.goto ip).progress = s.progress := rfl

@[simp] theorem progress_onTape (s : State) (f : Tape → Tape) :
    (s.onTape f).progress = s.progress := rfl

/-- Something of a machine that does not depend on its tape, its place or its trace. -/
structure Apart {α : Type} (f : State → α) : Prop where
  log (s : State) (w : Wiring) (t : Token) (action : Action) : f (s.log w t action) = f s
  goto (s : State) (ip : Nat) : f (s.goto ip) = f s
  onTape (s : State) (g : Tape → Tape) : f (s.onTape g) = f s

theorem apart_reads : Apart State.reads where
  log s w t action := congrArg Progress.reads (s.progress_log w t action)
  goto _ _ := rfl
  onTape _ _ := rfl

end State

namespace Program

variable {p : Program} {w : Wiring} {s : State}

/-- Only printing and reading can change what does not depend on tape, place and trace. -/
theorem exec_of_apart {α : Type} {f : State → α} (hf : State.Apart f) {t : Token}
    (hprint : t.op = .output → f (w.print t s).state = f s)
    (hread : t.op = .input → f (w.readByte t s).state = f s) : f (p.exec w t s).state = f s := by
  obtain ⟨op, pos⟩ := t
  unfold exec
  cases op with
  | increment => simp only [Step.state, hf.goto, hf.onTape, hf.log]
  | decrement => simp only [Step.state, hf.goto, hf.onTape, hf.log]
  | moveForward => simp only [Step.state, hf.goto, hf.onTape, hf.log]
  | moveBackward => simp only [Step.state, hf.goto, hf.onTape, hf.log]
  | output => exact hprint rfl
  | input => exact hread rfl
  | loopOpen =>
    simp only []
    split
    · rfl
    split <;> simp only [Step.state, hf.goto, hf.log]
  | loopClose =>
    simp only []
    split
    · rfl
    split <;> simp only [Step.state, hf.goto, hf.log]

structure Advances (s : State) (step : Step) : Prop where
  ticks : step.state.ticks = s.ticks
  reads : s.reads ≤ step.state.reads
  writes : s.writes.size ≤ step.state.writes.size
  stops : ∀ after, step ≠ .stop .running after

theorem Advances.next {after : State} (h : after.progress = s.progress) :
    Advances s (.next after) where
  ticks := congrArg Progress.ticks h
  reads := Nat.le_of_eq (congrArg Progress.reads h).symm
  writes := Nat.le_of_eq (congrArg Progress.writes h).symm
  stops := fun _ heq => by cases heq

theorem Advances.fault (f : Fault) : Advances s (.stop (.fault f) s) where
  ticks := rfl
  reads := Nat.le_refl _
  writes := Nat.le_refl _
  stops := fun _ heq => by cases heq

theorem advances_print (t : Token) (s : State) : Advances s (w.print t s) := by
  unfold Wiring.print
  split
  · exact .next (by simp)
  split
  · exact ⟨rfl, Nat.le_refl _, by simp [Step.state], fun _ heq => by cases heq⟩
  · exact .fault _

theorem advances_readByte (t : Token) (s : State) : Advances s (w.readByte t s) := by
  unfold Wiring.readByte
  split
  · exact .next (by simp)
  split
  · exact ⟨rfl, Nat.le_succ _, Nat.le_refl _, fun _ heq => by cases heq⟩
  · exact ⟨rfl, Nat.le_succ _, Nat.le_refl _, fun _ heq => by cases heq⟩
  · exact ⟨rfl, Nat.le_succ _, Nat.le_refl _, fun _ heq => by cases heq⟩
  · exact ⟨rfl, Nat.le_refl _, Nat.le_refl _, fun _ heq => by cases heq⟩

theorem advances_exec (t : Token) (s : State) : Advances s (p.exec w t s) := by
  obtain ⟨op, pos⟩ := t
  cases op with
  | increment => exact .next (by simp)
  | decrement => exact .next (by simp)
  | moveForward => exact .next (by simp)
  | moveBackward => exact .next (by simp)
  | output => exact advances_print _ s
  | input => exact advances_readByte _ s
  | loopOpen =>
    simp only [exec]
    split
    · exact .fault _
    split
    · exact .next (by simp)
    · exact .next (by simp)
  | loopClose =>
    simp only [exec]
    split
    · exact .fault _
    split
    · exact .next (by simp)
    · exact .next (by simp)

theorem step_ne_stop_running (p : Program) (w : Wiring) (s after : State) :
    p.step w s ≠ .stop .running after := by
  unfold step
  split
  · intro heq
    cases heq
  split
  · intro heq
    cases heq
  next t _ _ _ =>
    have hexec := (advances_exec (p := p) (w := w) t { s with ticks := s.ticks + 1 }).stops
    generalize p.exec w t { s with ticks := s.ticks + 1 } = done at hexec
    cases done with
    | stop outcome u => exact hexec after
    | next u =>
      simp only [Wiring.printRow]
      split <;> exact nofun

theorem progress_le_step (p : Program) (w : Wiring) (s : State) :
    s.progress ≤ (p.step w s).state.progress := by
  unfold step
  split
  · exact Progress.le_refl _
  split
  · exact Progress.le_refl _
  next t _ _ _ =>
    have h := advances_exec (p := p) (w := w) t { s with ticks := s.ticks + 1 }
    rw [Wiring.progress_printRow]
    exact ⟨Nat.le_trans (Nat.le_succ _) (Nat.le_of_eq h.ticks.symm), h.reads, h.writes⟩

theorem ticks_step {t : Token} (ht : p.tokens[s.ip]? = some t) (hclear : w.interrupt s = none) :
    (p.step w s).state.ticks = s.ticks + 1 := by
  simp only [step, ht, hclear]
  refine (congrArg Progress.ticks (w.progress_printRow s _)).trans ?_
  exact (advances_exec t _).ticks

theorem state_runFor_one (p : Program) (w : Wiring) (s : State) :
    (p.runFor w 1 s).state = (p.step w s).state := by
  rw [runFor]
  cases p.step w s <;> rfl

/-- What no step changes no run changes. -/
theorem runFor_keeps {p : Program} {w : Wiring} {α : Type} {f : State → α}
    (hstep : ∀ s, f (p.step w s).state = f s) (fuel : Nat) (s : State) :
    f (p.runFor w fuel s).state = f s := by
  induction fuel generalizing s with
  | zero => rfl
  | succ fuel ih =>
    have hkept := hstep s
    cases hs : p.step w s with
    | next after =>
      rw [hs] at hkept
      rw [runFor_succ_of_next hs, ih]
      exact hkept
    | stop outcome after =>
      rw [hs] at hkept
      rw [runFor_succ_of_stop hs]
      exact hkept

theorem progress_le_runFor_succ (p : Program) (w : Wiring) (s : State) (fuel : Nat) :
    (p.runFor w fuel s).state.progress ≤ (p.runFor w (fuel + 1) s).state.progress := by
  induction fuel generalizing s with
  | zero =>
    rw [state_runFor_one]
    exact progress_le_step p w s
  | succ fuel ih =>
    cases hs : p.step w s with
    | next after =>
      rw [runFor_succ_of_next hs, runFor_succ_of_next hs]
      exact ih after
    | stop outcome after =>
      rw [runFor_succ_of_stop hs, runFor_succ_of_stop hs]
      exact Progress.le_refl _

theorem runFor_add_of_running {n : Nat} {u : State} (h : p.runFor w n s = ⟨.running, u⟩)
    (fuel : Nat) : p.runFor w (n + fuel) s = p.runFor w fuel u := by
  induction n generalizing s with
  | zero =>
    cases h
    rw [Nat.zero_add]
  | succ n ih =>
    cases hs : p.step w s with
    | next after =>
      rw [runFor_succ_of_next hs] at h
      rw [Nat.add_right_comm, runFor_succ_of_next hs, ih h]
    | stop outcome after =>
      rw [runFor_succ_of_stop hs] at h
      cases h
      exact absurd hs (step_ne_stop_running p w s _)

end Program
end TapeLang
