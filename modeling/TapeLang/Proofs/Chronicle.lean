import TapeLang.Proofs.Progress

/-! What happens along a run. A step executes one instruction or none, and what is
noted of a run is what is noted of the states it steps from, in order. -/
namespace TapeLang

variable {α : Type}

namespace Program

variable {p : Program} {w : Wiring} {s : State}

/-- The token that the next step executes. None is executed past the end, or once
a limit is reached. -/
def executes (p : Program) (w : Wiring) (s : State) : Option Token :=
  match p.tokens[s.ip]?, w.interrupt s with
  | some tok, none => some tok
  | _, _ => none

theorem getElem?_of_executes {tok : Token} (h : p.executes w s = some tok) :
    p.tokens[s.ip]? = some tok := by
  unfold executes at h
  split at h
  next htok _ =>
    cases h
    exact htok
  · cases h

theorem step_of_executes {tok : Token} (h : p.executes w s = some tok) :
    p.step w s = w.printRow s (p.exec w tok { s with ticks := s.ticks + 1 }) := by
  unfold executes at h
  split at h
  next htok hclear =>
    cases h
    simp only [step, htok, hclear]
  · cases h

theorem step_of_idle (h : p.executes w s = none) :
    ∃ outcome, p.step w s = .stop outcome s ∧ ∀ reason, outcome ≠ .crashed reason := by
  unfold executes at h
  unfold step
  cases htok : p.tokens[s.ip]? with
  | none => exact ⟨.halted, rfl, nofun⟩
  | some tok =>
    cases hclear : w.interrupt s with
    | some f => exact ⟨.fault f, rfl, nofun⟩
    | none => simp [htok, hclear] at h

theorem state_step_of_idle (h : p.executes w s = none) : (p.step w s).state = s := by
  obtain ⟨outcome, hstop, -⟩ := step_of_idle h
  rw [hstop]
  rfl

def notesFor (p : Program) (w : Wiring) (note : State → List α) : Nat → State → List α
  | 0, _ => []
  | fuel + 1, s =>
    match p.step w s with
    | .next after => note s ++ p.notesFor w note fuel after
    | .stop _ _ => note s

theorem mem_notesFor_succ {note : State → List α} {x : α} (h : x ∈ note s) {fuel : Nat} :
    x ∈ p.notesFor w note (fuel + 1) s := by
  unfold notesFor
  split
  · exact List.mem_append_left _ h
  · exact h

/-- Notes that say how a step changes the machine say it of the whole run. -/
theorem runFor_of_notes {note : State → List α} {R : List α → State → State → Prop}
    (hnil : ∀ s, R [] s s)
    (happend : ∀ {xs ys s t u}, R xs s t → R ys t u → R (xs ++ ys) s u)
    (hstep : ∀ s, R (note s) s (p.step w s).state) (fuel : Nat) (s : State) :
    R (p.notesFor w note fuel s) s (p.runFor w fuel s).state := by
  induction fuel generalizing s with
  | zero => exact hnil s
  | succ fuel ih =>
    have hfirst := hstep s
    unfold notesFor runFor
    cases hs : p.step w s with
    | next after =>
      rw [hs] at hfirst
      exact happend hfirst (ih after)
    | stop outcome after =>
      rw [hs] at hfirst
      exact hfirst

end Program

def Wiring.notes (w : Wiring) (note : Program → State → List α) (fuel : Nat) (tokens : List Token)
    (tape : Tape) (input : Input) : List α :=
  match Program.ofTokens tokens with
  | .error _ => []
  | .ok p =>
    match w.headingRefusal with
    | some _ => []
    | none => p.notesFor w (note p) fuel (State.initial w tape input)

theorem Wiring.run_and_notes (w : Wiring) (note : Program → State → List α) (fuel : Nat)
    (tokens : List Token) (tape : Tape) (input : Input) :
    (w.notes note fuel tokens tape input = [] ∧
      ∃ trace, (w.run fuel tokens tape input).state = { tape, input, trace }) ∨
    ∃ p : Program, w.notes note fuel tokens tape input =
        p.notesFor w (note p) fuel (State.initial w tape input) ∧
      w.run fuel tokens tape input = p.runFor w fuel (State.initial w tape input) := by
  unfold notes run
  cases Program.ofTokens tokens with
  | error bracket => exact .inl ⟨rfl, _, rfl⟩
  | ok p =>
    cases w.headingRefusal with
    | none => exact .inr ⟨p, rfl, rfl⟩
    | some refused => exact .inl ⟨rfl, _, rfl⟩

end TapeLang
