import TapeLang.Proofs.Chronicle
import TapeLang.Proofs.Consumption
import TapeLang.Proofs.Refinement

/-! Machines in lockstep. Where every step of one machine is a step of another seen
in some other way, so is every run. Two machines that agree in all but their
inputs go the same way for as long as their reads answer alike. -/
namespace TapeLang

def Step.map (tell : Outcome → Outcome) (view : State → State) : Step → Step
  | .next s => .next (view s)
  | .stop outcome s => .stop (tell outcome) (view s)

def Run.map (tell : Outcome → Outcome) (view : State → State) (r : Run) : Run :=
  ⟨tell r.outcome, view r.state⟩

namespace Program

variable {p q : Program} {w v : Wiring} (tell : Outcome → Outcome) (view : State → State)

theorem printRow_map {s : State} (hrow : v.rowRefusal (view s) = w.rowRefusal s)
    (htrace : ∀ u : State, view { u with trace := s.trace } =
      { view u with trace := (view s).trace }) (step : Step) :
    v.printRow (view s) (step.map id view) = (w.printRow s step).map id view := by
  cases step with
  | stop outcome after => rfl
  | next after =>
    simp only [Step.map, Wiring.printRow, hrow]
    cases w.rowRefusal s with
    | none => rfl
    | some reason => exact congrArg (Step.stop (.crashed reason)) (htrace after).symm

theorem step_map {s : State} (hip : (view s).ip = s.ip)
    (hinterrupt : v.interrupt (view s) = w.interrupt s)
    (hrow : v.rowRefusal (view s) = w.rowRefusal s)
    (htrace : ∀ u : State, view { u with trace := s.trace } =
      { view u with trace := (view s).trace })
    (hexec : ∀ tok, p.exec v tok { view s with ticks := (view s).ticks + 1 } =
      (p.exec w tok { s with ticks := s.ticks + 1 }).map id view) :
    p.step v (view s) = (p.step w s).map id view := by
  have htoken : p.tokens[(view s).ip]? = p.tokens[s.ip]? := by rw [hip]
  unfold step
  rw [htoken, hinterrupt]
  cases p.tokens[s.ip]? with
  | none => rfl
  | some tok =>
    cases w.interrupt s with
    | some f => rfl
    | none =>
      simp only [hexec]
      exact printRow_map view hrow htrace _

theorem runFor_map (hrunning : tell .running = .running)
    (hstep : ∀ s, q.step v (view s) = (p.step w s).map tell view) (fuel : Nat) (s : State) :
    q.runFor v fuel (view s) = (p.runFor w fuel s).map tell view := by
  induction fuel generalizing s with
  | zero => simp only [runFor, Run.map, hrunning]
  | succ fuel ih =>
    unfold runFor
    rw [hstep]
    cases p.step w s with
    | next after => exact ih after
    | stop outcome after => rfl

theorem notesFor_map {α : Type} {note note' : State → List α}
    (hstep : ∀ s, q.step v (view s) = (p.step w s).map tell view)
    (hnote : ∀ s, note' (view s) = note s) (fuel : Nat) (s : State) :
    q.notesFor v note' fuel (view s) = p.notesFor w note fuel s := by
  induction fuel generalizing s with
  | zero => rfl
  | succ fuel ih =>
    unfold notesFor
    rw [hstep, hnote]
    cases p.step w s with
    | next after => exact congrArg (note s ++ ·) (ih after)
    | stop outcome after => rfl

end Program

theorem Wiring.run_of_untraced {w : Wiring} (huntraced : w.traced = false) {tokens : List Token}
    {p : Program} (hp : Program.ofTokens tokens = .ok p) (fuel : Nat) (tape : Tape)
    (input : Input) :
    w.run fuel tokens tape input = p.runFor w fuel (State.initial w tape input) := by
  simp only [run, hp, headingRefusal_of_untraced huntraced]

/-- Two steps that go on or stop alike, in states that belong together. -/
inductive Step.Pairs (R : State → State → Prop) : Step → Step → Prop where
  | next {s t : State} (h : R s t) : Pairs R (.next s) (.next t)
  | stop (outcome : Outcome) {s t : State} (h : R s t) :
      Pairs R (.stop outcome s) (.stop outcome t)

theorem Wiring.printRow_pairs {w : Wiring} {R : State → State → Prop} {s t : State}
    (htrace : t.trace = s.trace)
    (hkeeps : ∀ u v trace, R u v → R { u with trace := trace } { v with trace := trace })
    {left right : Step} (h : Step.Pairs R left right) :
    Step.Pairs R (w.printRow s left) (w.printRow t right) := by
  cases h with
  | stop outcome hstop => exact .stop _ hstop
  | next hnext =>
    simp only [printRow, rowRefusal, htrace]
    split
    · exact .next hnext
    · exact .stop _ (hkeeps _ _ _ hnext)

theorem Program.step_pairs {p : Program} {w : Wiring} {R : State → State → Prop} {s t : State}
    (h : R s t) (hip : t.ip = s.ip) (hinterrupt : w.interrupt t = w.interrupt s)
    (htrace : t.trace = s.trace)
    (hkeeps : ∀ u v trace, R u v → R { u with trace := trace } { v with trace := trace })
    (hexec : ∀ tok, p.executes w s = some tok →
      Step.Pairs R (p.exec w tok { s with ticks := s.ticks + 1 })
        (p.exec w tok { t with ticks := t.ticks + 1 })) :
    Step.Pairs R (p.step w s) (p.step w t) := by
  have htoken : p.tokens[t.ip]? = p.tokens[s.ip]? := by rw [hip]
  unfold executes at hexec
  unfold step
  rw [htoken, hinterrupt]
  cases htok : p.tokens[s.ip]? with
  | none => exact .stop _ h
  | some tok =>
    cases hclear : w.interrupt s with
    | some f => exact .stop _ h
    | none => exact Wiring.printRow_pairs htrace hkeeps (hexec tok (by rw [htok, hclear]))

/-- Machines in states that belong together stay together, and note the same, for as
long as the first notes nothing that `P` forbids. -/
theorem Program.runFor_pairs_of_notes {α : Type} {p : Program} {w : Wiring}
    {R : State → State → Prop} {note : State → List α} {P : α → Prop}
    (hstep : ∀ s t, R s t → (∀ x ∈ note s, P x) →
      note t = note s ∧ Step.Pairs R (p.step w s) (p.step w t))
    {s t : State} (h : R s t) (fuel : Nat) (hnotes : ∀ x ∈ p.notesFor w note fuel s, P x) :
    (p.runFor w fuel s).outcome = (p.runFor w fuel t).outcome ∧
      R (p.runFor w fuel s).state (p.runFor w fuel t).state ∧
      p.notesFor w note fuel t = p.notesFor w note fuel s := by
  induction fuel generalizing s t with
  | zero => exact ⟨rfl, h, rfl⟩
  | succ fuel ih =>
    obtain ⟨hsame, hpair⟩ := hstep s t h fun x hx => hnotes x (mem_notesFor_succ hx)
    unfold notesFor at hnotes
    unfold runFor notesFor
    rw [hsame]
    generalize p.step w s = left at hpair hnotes ⊢
    generalize p.step w t = right at hpair ⊢
    cases hpair with
    | next hnext =>
      obtain ⟨houtcome, hstate, hlater⟩ :=
        ih hnext fun x hx => hnotes x (List.mem_append_right _ hx)
      exact ⟨houtcome, hstate, congrArg (note s ++ ·) hlater⟩
    | stop outcome hstop => exact ⟨rfl, hstop, rfl⟩

theorem Wiring.run_pairs_of_notes {α : Type} {w : Wiring} {R : State → State → Prop}
    {note : Program → State → List α} {P : α → Prop} {tokens : List Token}
    {tape tape' : Tape} {input input' : Input}
    (hstep : ∀ p, Program.ofTokens tokens = .ok p → ∀ s t, R s t → (∀ x ∈ note p s, P x) →
      note p t = note p s ∧ Step.Pairs R (p.step w s) (p.step w t))
    (hstart : ∀ trace, R { tape, input, trace } { tape := tape', input := input', trace })
    (fuel : Nat)
    (hnotes : ∀ x ∈ w.notes note fuel tokens tape input, P x) :
    (w.run fuel tokens tape input).outcome = (w.run fuel tokens tape' input').outcome ∧
      R (w.run fuel tokens tape input).state (w.run fuel tokens tape' input').state ∧
      w.notes note fuel tokens tape' input' = w.notes note fuel tokens tape input := by
  unfold notes at hnotes
  unfold run notes
  cases hp : Program.ofTokens tokens with
  | error bracket => exact ⟨rfl, hstart _, rfl⟩
  | ok p =>
    simp only [hp] at hnotes ⊢
    cases hheading : w.headingRefusal with
    | some refused => exact ⟨rfl, hstart _, rfl⟩
    | none =>
      simp only [hheading] at hnotes
      exact Program.runFor_pairs_of_notes (hstep p hp) (hstart _) fuel hnotes

namespace State

def feed (s : State) (input : Input) : State := { s with input := input }

variable (s : State) (input : Input)

@[simp] theorem log_feed (w : Wiring) (tok : Token) (action : Action) :
    (s.feed input).log w tok action = (s.log w tok action).feed input := by
  unfold log
  split <;> rfl

@[simp] theorem ip_feed : (s.feed input).ip = s.ip := rfl

@[simp] theorem tape_feed : (s.feed input).tape = s.tape := rfl

@[simp] theorem goto_feed (ip : Nat) : (s.feed input).goto ip = (s.goto ip).feed input := rfl

@[simp] theorem onTape_feed (f : Tape → Tape) :
    (s.feed input).onTape f = (s.onTape f).feed input := rfl

/-- The same machine on two inputs that belong together. -/
def Alike (A : Input → Input → Prop) (s t : State) : Prop :=
  ∃ input, A s.input input ∧ t = s.feed input

theorem Alike.withTrace {A : Input → Input → Prop} (s t : State) (trace : Array TraceLine)
    (h : s.Alike A t) : Alike A { s with trace := trace } { t with trace := trace } := by
  obtain ⟨input, hinput, rfl⟩ := h
  exact ⟨input, hinput, rfl⟩

end State

variable {A : Input → Input → Prop} {w : Wiring} {tok : Token} {p : Program} {s t : State}
  {input : Input}

/-- Reads from two inputs that belong together answer alike and keep them together. -/
def Wiring.ReadsAlike (w : Wiring) (A : Input → Input → Prop) (tok : Token) : Prop :=
  w.asks tok = true → ∀ a b, A a b → a.read.1 = b.read.1 ∧ A a.read.2 b.read.2

theorem Wiring.print_alike (h : A s.input input) :
    Step.Pairs (State.Alike A) (w.print tok s) (w.print tok (s.feed input)) := by
  unfold print
  rw [show (s.feed input).writes = s.writes from rfl]
  split
  · exact .next ⟨input, by simpa using h, by simp⟩
  split
  · exact .next ⟨input, h, rfl⟩
  · exact .stop _ ⟨input, h, rfl⟩

theorem Wiring.readByte_alike (hop : tok.op = .input) (hread : w.ReadsAlike A tok)
    (h : A s.input input) :
    Step.Pairs (State.Alike A) (w.readByte tok s) (w.readByte tok (s.feed input)) := by
  unfold readByte
  split
  · exact .next ⟨input, by simpa using h, by simp⟩
  next huntraced =>
    have hasks : w.asks tok = true := by simp [asks, huntraced, hop]
    obtain ⟨hanswer, hrest⟩ := hread hasks _ _ h
    rw [show (s.feed input).input = input from rfl]
    generalize s.input.read = left at hanswer hrest ⊢
    generalize input.read = right at hanswer hrest ⊢
    obtain ⟨answer, rest⟩ := left
    obtain ⟨answer', rest'⟩ := right
    cases hanswer
    cases answer with
    | byte b => exact .next ⟨rest', hrest, rfl⟩
    | endOfInput => exact .next ⟨rest', hrest, rfl⟩
    | failed reason => exact .stop _ ⟨rest', hrest, rfl⟩
    | waiting => exact .stop _ ⟨input, h, rfl⟩

namespace Program

theorem exec_alike (hread : w.ReadsAlike A tok) (h : A s.input input) :
    Step.Pairs (State.Alike A) (p.exec w tok s) (p.exec w tok (s.feed input)) := by
  obtain ⟨op, pos⟩ := tok
  cases op with
  | output => exact Wiring.print_alike h
  | input => exact Wiring.readByte_alike rfl hread h
  | loopOpen =>
    simp only [exec, State.ip_feed, State.tape_feed, State.log_feed, State.goto_feed]
    split
    · exact .stop _ ⟨input, h, rfl⟩
    split
    · exact .next ⟨input, by simpa using h, rfl⟩
    · exact .next ⟨input, by simpa using h, rfl⟩
  | loopClose =>
    simp only [exec, State.ip_feed, State.tape_feed, State.log_feed, State.goto_feed]
    split
    · exact .stop _ ⟨input, h, rfl⟩
    split
    · exact .next ⟨input, by simpa using h, rfl⟩
    · exact .next ⟨input, by simpa using h, rfl⟩
  | _ =>
    simp only [exec, State.ip_feed, State.tape_feed, State.log_feed, State.goto_feed,
      State.onTape_feed]
    exact .next ⟨input, by simpa using h, rfl⟩

theorem step_alike (hread : ∀ tok ∈ p.tokens, w.ReadsAlike A tok) (h : s.Alike A t) :
    Step.Pairs (State.Alike A) (p.step w s) (p.step w t) := by
  obtain ⟨input, hinput, rfl⟩ := h
  refine step_pairs ⟨input, hinput, rfl⟩ rfl rfl rfl State.Alike.withTrace ?_
  intro tok htok
  have hmem := Array.mem_of_getElem? (getElem?_of_executes htok)
  exact exec_alike (s := { s with ticks := s.ticks + 1 }) (hread tok hmem) hinput

end Program

theorem Run.stdout_of_alike {r r' : Run} (h : r.state.Alike A r'.state) (w : Wiring) :
    r'.stdout w = r.stdout w := by
  obtain ⟨input, -, hstate⟩ := h
  unfold stdout
  rw [hstate]
  rfl

theorem Run.calls_of_alike {r r' : Run} (h : r.state.Alike A r'.state) (w : Wiring) :
    r'.calls w = r.calls w := by
  obtain ⟨input, -, hstate⟩ := h
  unfold calls
  rw [hstate]
  rfl

theorem Wiring.run_alike (w : Wiring) (fuel : Nat) (tokens : List Token) (tape : Tape) {a b : Input}
    (hread : ∀ tok ∈ tokens, w.ReadsAlike A tok) (h : A a b) :
    (w.run fuel tokens tape a).outcome = (w.run fuel tokens tape b).outcome ∧
      (w.run fuel tokens tape a).state.Alike A (w.run fuel tokens tape b).state := by
  let silent : Program → State → List Unit := fun _ _ => []
  have hstep : ∀ p, Program.ofTokens tokens = .ok p → ∀ s t, s.Alike A t →
      (∀ x ∈ silent p s, True) →
      silent p t = silent p s ∧ Step.Pairs (State.Alike A) (p.step w s) (p.step w t) := by
    intro p hp s t hst _
    have htokens := (Program.eq_of_ofTokens hp).1
    refine ⟨rfl, Program.step_alike (fun tok hmem => hread tok ?_) hst⟩
    simpa [htokens] using hmem
  obtain ⟨houtcome, hstate, -⟩ :=
    run_pairs_of_notes hstep (fun _ => ⟨b, h, rfl⟩) fuel fun _ _ => trivial
  exact ⟨houtcome, hstate⟩

end TapeLang
