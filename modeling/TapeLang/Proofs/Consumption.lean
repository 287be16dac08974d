import TapeLang.Proofs.Progress

/-! What a run does to its input. Only an untraced input instruction asks for a
byte, and what it takes is what stood first, so the bytes a run has taken and
those it has left are the bytes it was given. -/
namespace TapeLang

def ReadResult.bytes : ReadResult → Bytes
  | .byte b => [b]
  | _ => []

namespace Input

/-- A read takes the byte in front, or leaves everything as it is. It waits only
for a source that may still bring something. -/
theorem read_cases (input : Input) :
    (∃ b after, input.read = (.byte b, after) ∧
      input.toQueue = ⟨b :: after.toQueue.bytes, after.toQueue.closed⟩) ∨
    (input.read.2 = input ∧ input.read.1.bytes = [] ∧
      (input.read.1 = .waiting → input.toQueue.closed = false)) := by
  cases input with
  | standard source =>
    cases source with
    | failing reason => exact .inr ⟨rfl, rfl, by intro h; cases h⟩
    | bytes rest =>
      cases rest with
      | nil => exact .inr ⟨rfl, rfl, by intro h; cases h⟩
      | cons b rest => exact .inl ⟨b, _, rfl, rfl⟩
  | queue q =>
    obtain ⟨bytes, closed⟩ := q
    cases bytes with
    | cons b rest => exact .inl ⟨b, _, rfl, rfl⟩
    | nil =>
      cases closed with
      | true => exact .inr ⟨rfl, rfl, by intro h; cases h⟩
      | false => exact .inr ⟨rfl, rfl, fun _ => rfl⟩

theorem bytes_read (input : Input) :
    input.read.1.bytes ++ input.read.2.toQueue.bytes = input.toQueue.bytes := by
  rcases input.read_cases with ⟨b, after, hread, hqueue⟩ | ⟨hsame, hnone, -⟩
  · rw [hread, hqueue]
    rfl
  · rw [hsame, hnone]
    rfl

theorem closed_read (input : Input) : input.read.2.toQueue.closed = input.toQueue.closed := by
  rcases input.read_cases with ⟨b, after, hread, hqueue⟩ | ⟨hsame, -, -⟩
  · rw [hread, hqueue]
  · rw [hsame]

theorem read_of_waiting {input : Input} (h : input.read.1 = .waiting) :
    input.read.2 = input ∧ input.toQueue.closed = false := by
  rcases input.read_cases with ⟨b, after, hread, -⟩ | ⟨hsame, -, hopen⟩
  · rw [hread] at h
    cases h
  · exact ⟨hsame, hopen h⟩

end Input

def Wiring.asks (w : Wiring) (t : Token) : Bool := !w.traced && t.op == .input

@[simp] theorem State.input_log (s : State) (w : Wiring) (t : Token) (action : Action) :
    (s.log w t action).input = s.input := by
  unfold log
  split <;> rfl

@[simp] theorem State.input_goto (s : State) (ip : Nat) : (s.goto ip).input = s.input := rfl

@[simp] theorem State.input_onTape (s : State) (f : Tape → Tape) :
    (s.onTape f).input = s.input := rfl

theorem State.apart_input : Apart State.input := ⟨input_log, input_goto, input_onTape⟩

namespace Wiring

variable {w : Wiring} {t : Token} {s : State}

theorem input_print : (w.print t s).state.input = s.input := by
  unfold print
  split
  · simp [Step.state]
  split <;> rfl

theorem input_readByte (h : w.traced = false) : (w.readByte t s).state.input = s.input.read.2 := by
  unfold readByte
  rw [h]
  rcases hread : s.input.read with ⟨answer, rest⟩
  cases answer with
  | byte b => rfl
  | endOfInput => rfl
  | failed reason => rfl
  | waiting =>
    have hsame := (Input.read_of_waiting (congrArg Prod.fst hread)).1
    rw [hread] at hsame
    exact hsame.symm

end Wiring

namespace Program

variable {p : Program} {w : Wiring} {t : Token} {s : State}

theorem apart_exec_of_not_asks {α : Type} {f : State → α} (hf : State.Apart f)
    (hprint : f (w.print t s).state = f s) (h : w.asks t = false) :
    f (p.exec w t s).state = f s := by
  refine exec_of_apart hf (fun _ => hprint) fun hop => ?_
  have htraced : w.traced = true := by simpa [Wiring.asks, hop] using h
  simp only [Wiring.readByte, htraced, if_true, Step.state, hf.onTape, hf.goto, hf.log]

theorem input_exec_of_not_asks (h : w.asks t = false) :
    (p.exec w t s).state.input = s.input :=
  apart_exec_of_not_asks State.apart_input Wiring.input_print h

theorem exec_of_asks (h : w.asks t = true) : w.traced = false ∧ p.exec w t s = w.readByte t s := by
  obtain ⟨op, pos⟩ := t
  simp only [Wiring.asks, Bool.and_eq_true, Bool.not_eq_true', beq_iff_eq] at h
  obtain ⟨htraced, rfl⟩ := h
  exact ⟨htraced, rfl⟩

theorem input_exec_of_asks (h : w.asks t = true) :
    (p.exec w t s).state.input = s.input.read.2 := by
  obtain ⟨htraced, hexec⟩ := exec_of_asks (p := p) (s := s) h
  rw [hexec]
  exact Wiring.input_readByte htraced

def takes (p : Program) (w : Wiring) (s : State) : Bytes :=
  match p.tokens[s.ip]?, w.interrupt s with
  | some t, none => if w.asks t then s.input.read.1.bytes else []
  | _, _ => []

def takesFor (p : Program) (w : Wiring) : Nat → State → Bytes
  | 0, _ => []
  | fuel + 1, s =>
    match p.step w s with
    | .next after => p.takes w s ++ p.takesFor w fuel after
    | .stop _ _ => p.takes w s

theorem input_step (p : Program) (w : Wiring) (s : State) :
    ((p.step w s).state.input = s.input.read.2 ∧ p.takes w s = s.input.read.1.bytes) ∨
      ((p.step w s).state.input = s.input ∧ p.takes w s = []) := by
  unfold step takes
  cases p.tokens[s.ip]? with
  | none => exact .inr ⟨rfl, rfl⟩
  | some t =>
    cases w.interrupt s with
    | some f => exact .inr ⟨rfl, rfl⟩
    | none =>
      cases hasks : w.asks t with
      | true =>
        exact .inl ⟨(w.input_printRow s _).trans (input_exec_of_asks hasks), if_pos hasks⟩
      | false =>
        exact .inr ⟨(w.input_printRow s _).trans (input_exec_of_not_asks hasks),
          if_neg (by simp [hasks])⟩

theorem bytes_step (p : Program) (w : Wiring) (s : State) :
    p.takes w s ++ (p.step w s).state.input.toQueue.bytes = s.input.toQueue.bytes := by
  rcases input_step p w s with ⟨hinput, htakes⟩ | ⟨hinput, htakes⟩
  · rw [hinput, htakes, s.input.bytes_read]
  · rw [hinput, htakes, List.nil_append]

theorem closed_step (p : Program) (w : Wiring) (s : State) :
    (p.step w s).state.input.toQueue.closed = s.input.toQueue.closed := by
  rcases input_step p w s with ⟨hinput, -⟩ | ⟨hinput, -⟩
  · rw [hinput, s.input.closed_read]
  · rw [hinput]

/-- A run loses no byte of its input and reads none twice. -/
theorem bytes_runFor (p : Program) (w : Wiring) (fuel : Nat) (s : State) :
    p.takesFor w fuel s ++ (p.runFor w fuel s).state.input.toQueue.bytes =
      s.input.toQueue.bytes := by
  induction fuel generalizing s with
  | zero => rfl
  | succ fuel ih =>
    have hstep := bytes_step p w s
    unfold takesFor runFor
    cases hs : p.step w s with
    | next after =>
      rw [hs] at hstep
      simp only [List.append_assoc, ih]
      exact hstep
    | stop outcome after =>
      rw [hs] at hstep
      exact hstep

theorem closed_runFor (p : Program) (w : Wiring) (fuel : Nat) (s : State) :
    (p.runFor w fuel s).state.input.toQueue.closed = s.input.toQueue.closed :=
  runFor_keeps (f := (·.input.toQueue.closed)) (closed_step p w) fuel s

theorem outcome_of_exec {outcome : Outcome} {after : State}
    (h : p.exec w t s = .stop outcome after) :
    (∃ f, outcome = .fault f ∧ f ≠ .cancelled) ∨
      (outcome = .waiting ∧ w.asks t = true ∧ s.input.toQueue.closed = false) := by
  obtain ⟨op, pos⟩ := t
  unfold exec at h
  cases op with
  | increment => cases h
  | decrement => cases h
  | moveForward => cases h
  | moveBackward => cases h
  | output =>
    simp only [Wiring.print] at h
    split at h
    · cases h
    split at h
    · cases h
    · cases h
      exact .inl ⟨_, rfl, nofun⟩
  | input =>
    simp only [Wiring.readByte] at h
    split at h
    · cases h
    next huntraced =>
      split at h
      · cases h
      · cases h
      · cases h
        exact .inl ⟨_, rfl, nofun⟩
      next hread =>
        cases h
        exact .inr ⟨rfl, by simp [Wiring.asks, huntraced],
          (Input.read_of_waiting (congrArg Prod.fst hread)).2⟩
  | loopOpen =>
    simp only [] at h
    split at h
    · cases h
      exact .inl ⟨_, rfl, nofun⟩
    split at h <;> cases h
  | loopClose =>
    simp only [] at h
    split at h
    · cases h
      exact .inl ⟨_, rfl, nofun⟩
    split at h <;> cases h

theorem outcome_of_step {outcome : Outcome} {after : State}
    (h : p.step w s = .stop outcome after) :
    outcome = .halted ∨ (∃ f, outcome = .fault f) ∨
      (outcome = .waiting ∧ s.input.toQueue.closed = false) ∨
      ∃ reason, outcome = .crashed reason ∧ w.rowRefusal s = some reason := by
  unfold step at h
  split at h
  · cases h
    exact .inl rfl
  split at h
  · cases h
    exact .inr (.inl ⟨_, rfl⟩)
  rcases Wiring.printRow_eq_stop h with hexec | ⟨reason, -, -, hrefused, hcrashed, -⟩
  · rcases outcome_of_exec (s := { s with ticks := s.ticks + 1 }) hexec with
      ⟨f, hfault, -⟩ | ⟨hwaiting, -, hopen⟩
    · exact .inr (.inl ⟨f, hfault⟩)
    · exact .inr (.inr (.inl ⟨hwaiting, hopen⟩))
  · exact .inr (.inr (.inr ⟨reason, hcrashed, hrefused⟩))

theorem outcome_runFor_of_closed (hrow : ∀ u, w.rowRefusal u = none)
    (hclosed : s.input.toQueue.closed = true) (fuel : Nat) :
    (p.runFor w fuel s).outcome = .running ∨ (p.runFor w fuel s).outcome = .halted ∨
      ∃ f, (p.runFor w fuel s).outcome = .fault f := by
  induction fuel generalizing s with
  | zero => exact .inl rfl
  | succ fuel ih =>
    cases hs : p.step w s with
    | next after =>
      have hkept := closed_step p w s
      rw [hs, hclosed] at hkept
      rw [runFor_succ_of_next hs]
      exact ih hkept
    | stop outcome after =>
      rw [runFor_succ_of_stop hs]
      rcases outcome_of_step hs with hhalted | hfault | ⟨-, hopen⟩ | ⟨reason, -, hrefused⟩
      · exact .inr (.inl hhalted)
      · exact .inr (.inr hfault)
      · rw [hclosed] at hopen
        cases hopen
      · cases (hrow s).symm.trans hrefused

theorem tick_of_next {after : State} (h : p.step w s = .next after) :
    w.interrupt s = none ∧ after.ticks = s.ticks + 1 := by
  cases htoken : p.tokens[s.ip]? with
  | none => simp [step, htoken] at h
  | some t =>
    cases hclear : w.interrupt s with
    | some f => simp [step, htoken, hclear] at h
    | none =>
      have hticks := ticks_step htoken hclear
      rw [h] at hticks
      exact ⟨rfl, hticks⟩

theorem outcome_ne_running {m k : Nat} (hlimit : ∀ u : State, m ≤ u.ticks → w.interrupt u ≠ none)
    (hm : m ≤ s.ticks + k) : (p.runFor w (k + 1) s).outcome ≠ .running := by
  induction k generalizing s with
  | zero =>
    cases hs : p.step w s with
    | next after => exact absurd (tick_of_next hs).1 (hlimit s hm)
    | stop outcome after =>
      rw [runFor_succ_of_stop hs]
      rintro rfl
      exact step_ne_stop_running p w s after hs
  | succ k ih =>
    cases hs : p.step w s with
    | next after =>
      rw [runFor_succ_of_next hs]
      apply ih
      rw [(tick_of_next hs).2]
      omega
    | stop outcome after =>
      rw [runFor_succ_of_stop hs]
      rintro rfl
      exact step_ne_stop_running p w s after hs

end Program
end TapeLang
