import TapeLang.Proofs.Progress
import TapeLang.Proofs.Refinement

/-! A machine stays inside its program. Brackets are looked at before anything
else, so an unbalanced program is turned away with nothing done. In a balanced
one a jump leads at most one past the last token, and every bracket that the
machine comes to has a partner. -/
namespace TapeLang

namespace State

variable (s : State) (w : Wiring) (tok : Token) (action : Action)

@[simp] theorem tape_log : (s.log w tok action).tape = s.tape := by
  unfold log
  split <;> rfl

@[simp] theorem ip_goto (ip : Nat) : (s.goto ip).ip = ip := rfl

@[simp] theorem tape_goto (ip : Nat) : (s.goto ip).tape = s.tape := rfl

@[simp] theorem ip_onTape (f : Tape → Tape) : (s.onTape f).ip = s.ip := rfl

@[simp] theorem tape_onTape (f : Tape → Tape) : (s.onTape f).tape = f s.tape := rfl

end State

theorem Wiring.eq_of_interrupt {w : Wiring} {s : State} {f : Fault} (h : w.interrupt s = some f) :
    f = .cancelled ∨ ∃ limit, f = .stepLimit limit := by
  obtain ⟨control, -, hset⟩ := Option.bind_eq_some_iff.mp h
  unfold Control.interrupt at hset
  split at hset
  · exact .inl (Option.some.inj hset).symm
  split at hset
  next limit _ =>
    split at hset
    · exact .inr ⟨limit, (Option.some.inj hset).symm⟩
    · cases hset
  · cases hset

namespace Program

variable {p : Program} {w : Wiring} {s t after : State} {tok : Token} {f : Fault}

/-- What can stop the machine at an instruction that it has begun. -/
inductive Blames (p : Program) (w : Wiring) (ip calls : Nat) (input : Input) (tok : Token) :
    Fault → Prop where
  | write {reason : String} (hop : tok.op = .output)
      (hfail : w.output.refusal calls = some reason) :
      Blames p w ip calls input tok (.io tok.pos reason)
  | read {reason : String} (hop : tok.op = .input) (hfail : input.read.1 = .failed reason) :
      Blames p w ip calls input tok (.io tok.pos reason)
  | opening (hop : tok.op = .loopOpen) (hpartner : p.loops.closeOf ip = none) :
      Blames p w ip calls input tok (.unmatched ⟨.opening, tok.pos⟩)
  | closing (hop : tok.op = .loopClose) (hpartner : p.loops.openOf ip = none) :
      Blames p w ip calls input tok (.unmatched ⟨.closing, tok.pos⟩)

theorem blames_of_exec (h : p.exec w tok s = .stop (.fault f) after) :
    p.Blames w s.ip s.writes.size s.input tok f := by
  obtain ⟨op, pos⟩ := tok
  unfold exec at h
  cases op with
  | increment => cases h
  | decrement => cases h
  | moveForward => cases h
  | moveBackward => cases h
  | output =>
    simp only [Wiring.print] at h
    split at h
    · cases h
    split at h
    · cases h
    next hfail =>
      cases h
      exact .write rfl hfail
  | input =>
    simp only [Wiring.readByte] at h
    split at h
    · cases h
    split at h
    · cases h
    · cases h
    next hread =>
      cases h
      exact .read rfl (congrArg Prod.fst hread)
    · cases h
  | loopOpen =>
    simp only [] at h
    split at h
    next hpartner =>
      cases h
      exact .opening rfl hpartner
    split at h <;> cases h
  | loopClose =>
    simp only [] at h
    split at h
    next hpartner =>
      cases h
      exact .closing rfl hpartner
    split at h <;> cases h

theorem fault_of_step (h : p.step w s = .stop (.fault f) after) :
    ∃ tok, p.tokens[s.ip]? = some tok ∧
      (w.interrupt s = some f ∨ p.Blames w s.ip s.writes.size s.input tok f) := by
  unfold step at h
  split at h
  · cases h
  next tok htok =>
    refine ⟨tok, htok, ?_⟩
    split at h
    next f' hset =>
      cases h
      exact .inl hset
    rcases Wiring.printRow_eq_stop h with hexec | ⟨_, _, _, _, hcrashed, _⟩
    · exact .inr (blames_of_exec (s := { s with ticks := s.ticks + 1 }) hexec)
    · cases hcrashed

theorem ip_exec (p : Program) (w : Wiring) (tok : Token) (s : State) :
    (p.exec w tok s).state.ip = s.ip ∨ (p.exec w tok s).state.ip = s.ip + 1 ∨
      ∃ partner, (p.loops.closeOf s.ip = some partner ∨ p.loops.openOf s.ip = some partner) ∧
        (p.exec w tok s).state.ip = partner + 1 := by
  obtain ⟨op, pos⟩ := tok
  unfold exec
  cases op with
  | increment => simp [Step.state]
  | decrement => simp [Step.state]
  | moveForward => simp [Step.state]
  | moveBackward => simp [Step.state]
  | output =>
    simp only [Wiring.print]
    split
    · simp [Step.state]
    split <;> simp [Step.state]
  | input =>
    simp only [Wiring.readByte]
    split
    · simp [Step.state]
    split <;> simp [Step.state]
  | loopOpen =>
    simp only []
    split
    · simp [Step.state]
    next close hclose =>
      split
      · simp [Step.state]
      · exact .inr (.inr ⟨close, .inl hclose, rfl⟩)
  | loopClose =>
    simp only []
    split
    · simp [Step.state]
    next start hopen =>
      split
      · exact .inr (.inr ⟨start, .inr hopen, rfl⟩)
      · simp [Step.state]

theorem tape_exec (p : Program) (w : Wiring) (tok : Token) (s : State) :
    (p.exec w tok s).state.tape = s.tape ∨ ∃ op, (p.exec w tok s).state.tape = s.tape.apply op := by
  obtain ⟨op, pos⟩ := tok
  unfold exec
  cases op with
  | increment => exact .inr ⟨.increment, by simp [Step.state, Tape.apply]⟩
  | decrement => exact .inr ⟨.decrement, by simp [Step.state, Tape.apply]⟩
  | moveForward => exact .inr ⟨.moveForward, by simp [Step.state, Tape.apply]⟩
  | moveBackward => exact .inr ⟨.moveBackward, by simp [Step.state, Tape.apply]⟩
  | output =>
    simp only [Wiring.print]
    split
    · simp [Step.state]
    split <;> exact .inl rfl
  | input =>
    simp only [Wiring.readByte]
    split
    · exact .inr ⟨.write Cell.endOfInput, by simp [Step.state, Tape.apply]⟩
    split
    · exact .inr ⟨.write _, rfl⟩
    · exact .inr ⟨.write _, rfl⟩
    · exact .inl rfl
    · exact .inl rfl
  | loopOpen =>
    simp only []
    split
    · exact .inl rfl
    split <;> simp [Step.state]
  | loopClose =>
    simp only []
    split
    · exact .inl rfl
    split <;> simp [Step.state]

theorem length_step (p : Program) (w : Wiring) (s : State) :
    (p.step w s).state.tape.length = s.tape.length := by
  unfold step
  split
  · rfl
  split
  · rfl
  next tok _ _ _ =>
    rw [Wiring.tape_printRow]
    rcases tape_exec p w tok { s with ticks := s.ticks + 1 } with hsame | ⟨op, happly⟩
    · rw [hsame]
    · rw [happly, Tape.length_apply]

theorem Reaches.length_eq (h : p.Reaches w s t) : t.tape.length = s.tape.length := by
  induction h with
  | refl => rfl
  | @tail t u _ hnext ih =>
    have hstep := length_step p w t
    rw [hnext] at hstep
    exact hstep.trans ih

/-- All that the machine may look up where it stands is there: the token, unless it
is past the last one, the partner of a bracket, and the cell. -/
structure InBounds (p : Program) (s : State) : Prop where
  ip_le : s.ip ≤ p.tokens.size
  close : ∀ tok, p.tokens[s.ip]? = some tok → tok.op = .loopOpen →
    ∃ close c, p.loops.closeOf s.ip = some close ∧ p.tokens[close]? = some c ∧ c.op = .loopClose
  start : ∀ tok, p.tokens[s.ip]? = some tok → tok.op = .loopClose →
    ∃ start o, p.loops.openOf s.ip = some start ∧ p.tokens[start]? = some o ∧ o.op = .loopOpen
  cursor_lt : s.tape.cursor < s.tape.length

theorem exists_of_balanced {tokens : List Token} (h : Balanced tokens) :
    ∃ p, ofTokens tokens = .ok p := by
  obtain ⟨b, rfl⟩ := h.exists_block
  exact exists_ofTokens b

section OfTokens

variable {tokens : List Token} (h : ofTokens tokens = .ok p)

include h

theorem partner_lt {i partner : Nat}
    (hpartner : p.loops.closeOf i = some partner ∨ p.loops.openOf i = some partner) :
    partner < p.tokens.size := by
  obtain ⟨harray, hbuild⟩ := eq_of_ofTokens h
  rw [harray, List.size_toArray]
  rcases hpartner with hclose | hopen
  · have hpair := LoopTable.encloses_of_closeOf hbuild hclose
    obtain ⟨c, hc, -⟩ := Option.map_eq_some_iff.mp hpair.closing
    exact (List.getElem?_eq_some_iff.mp hc).1
  · have hpair := LoopTable.encloses_of_closeOf hbuild
      ((LoopTable.openOf_eq_some_iff hbuild).mp hopen)
    obtain ⟨o, ho, -⟩ := Option.map_eq_some_iff.mp hpair.opening
    exact (List.getElem?_eq_some_iff.mp ho).1

theorem inBounds_of_ip_le (hip : s.ip ≤ p.tokens.size) : p.InBounds s := by
  obtain ⟨harray, hbuild⟩ := eq_of_ofTokens h
  refine ⟨hip, ?_, ?_, s.tape.cursor_lt⟩
  · intro tok htok hop
    rw [harray, List.getElem?_toArray] at htok
    obtain ⟨close, hclose⟩ := LoopTable.exists_closeOf hbuild htok hop
    have hpair := LoopTable.encloses_of_closeOf hbuild hclose
    obtain ⟨c, hc, hkind⟩ := Option.map_eq_some_iff.mp hpair.closing
    exact ⟨close, c, hclose, by rw [harray, List.getElem?_toArray, hc], hkind⟩
  · intro tok htok hop
    rw [harray, List.getElem?_toArray] at htok
    obtain ⟨start, hstart⟩ := LoopTable.exists_openOf hbuild htok hop
    have hpair := LoopTable.encloses_of_closeOf hbuild
      ((LoopTable.openOf_eq_some_iff hbuild).mp hstart)
    obtain ⟨o, ho, hkind⟩ := Option.map_eq_some_iff.mp hpair.opening
    exact ⟨start, o, hstart, by rw [harray, List.getElem?_toArray, ho], hkind⟩

theorem ip_step_le (hip : s.ip ≤ p.tokens.size) : (p.step w s).state.ip ≤ p.tokens.size := by
  unfold step
  split
  · exact hip
  next tok htok =>
    have hlt : s.ip < p.tokens.size := (Array.getElem?_eq_some_iff.mp htok).1
    split
    · exact hip
    rw [Wiring.ip_printRow]
    rcases ip_exec p w tok { s with ticks := s.ticks + 1 } with hsame | hnext | ⟨j, hpartner, hjump⟩
    · rw [hsame]
      exact hip
    · rw [hnext]
      exact hlt
    · rw [hjump]
      exact partner_lt h hpartner

theorem Reaches.inBounds {tape : Tape} {input : Input}
    (hreaches : p.Reaches w (State.initial w tape input) s) : p.InBounds s := by
  apply inBounds_of_ip_le h
  induction hreaches with
  | refl => exact Nat.zero_le _
  | @tail t u _ hnext ih =>
    have hstep := ip_step_le (w := w) h ih
    rw [hnext] at hstep
    exact hstep

end OfTokens

theorem InBounds.step_ne_unmatched (hs : p.InBounds s) (bracket : UnmatchedBracket) :
    p.step w s ≠ .stop (.fault (.unmatched bracket)) after := by
  intro hstop
  obtain ⟨tok, htok, hlimit | hblames⟩ := fault_of_step hstop
  · rcases Wiring.eq_of_interrupt hlimit with hf | ⟨limit, hf⟩ <;> cases hf
  cases hblames with
  | opening hop hpartner =>
    obtain ⟨close, c, hclose, -⟩ := hs.close tok htok hop
    rw [hpartner] at hclose
    cases hclose
  | closing hop hpartner =>
    obtain ⟨start, o, hstart, -⟩ := hs.start tok htok hop
    rw [hpartner] at hstart
    cases hstart

end Program

namespace Wiring

variable {tokens : List Token}

theorem run_of_unbalanced (w : Wiring) (tape : Tape) (input : Input) (h : ¬ Balanced tokens) :
    ∃ bracket, ∀ fuel,
      w.run fuel tokens tape input = ⟨.fault (.unmatched bracket), { tape, input }⟩ := by
  unfold run
  cases hp : Program.ofTokens tokens with
  | error bracket => exact ⟨bracket, fun fuel => rfl⟩
  | ok p =>
    have hbuild := (Program.eq_of_ofTokens hp).2
    exact absurd (LoopTable.exists_build_iff_balanced.mp ⟨_, hbuild⟩) h

theorem run_ne_unmatched (w : Wiring) (tape : Tape) (input : Input) (h : Balanced tokens)
    (fuel : Nat) (bracket : UnmatchedBracket) :
    (w.run fuel tokens tape input).outcome ≠ .fault (.unmatched bracket) := by
  obtain ⟨p, hp⟩ := Program.exists_of_balanced h
  simp only [run, hp]
  split
  · simp
  intro hunmatched
  rcases p.reaches_or_ends w fuel (State.initial w tape input) with ⟨hrunning, -⟩ | ⟨t, ht, hstop⟩
  · rw [hrunning] at hunmatched
    cases hunmatched
  · rw [hunmatched] at hstop
    exact (Program.Reaches.inBounds hp ht).step_ne_unmatched bracket hstop

/-- A run reports a bracket without a partner exactly when its program is not
balanced, under any limits and traced or not; tape, input, output and table are
then as they were. In a balanced program the machine never looks past the end of
anything and never finds a bracket alone. -/
theorem run_unmatched_iff_unbalanced (w : Wiring) (tokens : List Token) (tape : Tape)
    (input : Input) :
    (∀ fuel, (∃ bracket, (w.run fuel tokens tape input).outcome = .fault (.unmatched bracket)) ↔
      ¬ Balanced tokens) ∧
    (¬ Balanced tokens → ∀ fuel, (w.run fuel tokens tape input).state = { tape, input } ∧
      (w.run fuel tokens tape input).stdout w = []) ∧
    (Balanced tokens → ∃ p, Program.ofTokens tokens = .ok p ∧ p.tokens = tokens.toArray ∧
      ∀ s, p.Reaches w (State.initial w tape input) s →
        p.InBounds s ∧ s.tape.length = tape.length ∧
        ∀ bracket after, p.step w s ≠ .stop (.fault (.unmatched bracket)) after) := by
  refine ⟨?_, ?_, ?_⟩
  · intro fuel
    constructor
    · rintro ⟨bracket, hunmatched⟩ hbalanced
      exact w.run_ne_unmatched tape input hbalanced fuel bracket hunmatched
    · intro hunbalanced
      obtain ⟨bracket, hrun⟩ := w.run_of_unbalanced tape input hunbalanced
      exact ⟨bracket, by rw [hrun]⟩
  · intro hunbalanced fuel
    obtain ⟨bracket, hrun⟩ := w.run_of_unbalanced tape input hunbalanced
    rw [hrun]
    refine ⟨rfl, ?_⟩
    cases hcollected : w.collected <;> simp [Run.stdout, hcollected, renderTrace, Utf8.encode]
  · intro hbalanced
    obtain ⟨p, hp⟩ := Program.exists_of_balanced hbalanced
    refine ⟨p, hp, (Program.eq_of_ofTokens hp).1, ?_⟩
    intro s hs
    have hbounds := Program.Reaches.inBounds hp hs
    exact ⟨hbounds, hs.length_eq, fun bracket after => hbounds.step_ne_unmatched bracket⟩

theorem run_unmatched_iff_unbalanced_cancelled :
    ¬ Balanced [⟨.increment, 0⟩, ⟨.loopClose, 1⟩] ∧
    (let control : Control := { maxSteps := some 0, cancel := { afterTicks := some 0 } }
     let w : Wiring := { traced := true, control := some control }
     let run := w.run 0 [⟨.increment, 0⟩, ⟨.loopClose, 1⟩] (.blank 1) (.standard (.bytes [65]))
     (∃ bracket, run.outcome = .fault (.unmatched bracket)) ∧ run.stdout w = [] ∧
       run.state = { tape := .blank 1, input := .standard (.bytes [65]) }) ∧
    Balanced [⟨.loopOpen, 0⟩, ⟨.loopClose, 1⟩] ∧
    (∃ p, Program.ofTokens [⟨.loopOpen, 0⟩, ⟨.loopClose, 1⟩] = .ok p ∧
      p.InBounds ⟨(Tape.blank 1).increment, .standard (.bytes []), 1, 1, 0, #[], #[]⟩) := by
  have hunbalanced : ¬ Balanced [⟨.increment, 0⟩, ⟨.loopClose, 1⟩] := by decide
  have hbalanced : Balanced [⟨.loopOpen, 0⟩, ⟨.loopClose, 1⟩] := by decide
  obtain ⟨hiff, hnothing, -⟩ := run_unmatched_iff_unbalanced
    { traced := true, control := some { maxSteps := some 0, cancel := { afterTicks := some 0 } } }
    [⟨.increment, 0⟩, ⟨.loopClose, 1⟩] (.blank 1) (.standard (.bytes [65]))
  obtain ⟨hstate, hstdout⟩ := hnothing hunbalanced 0
  obtain ⟨-, -, hinside⟩ := run_unmatched_iff_unbalanced {}
    [⟨.loopOpen, 0⟩, ⟨.loopClose, 1⟩] (Tape.blank 1).increment (.standard (.bytes []))
  obtain ⟨p, hp, -, hreached⟩ := hinside hbalanced
  refine ⟨hunbalanced, ⟨(hiff 0).mpr hunbalanced, hstdout, hstate⟩, hbalanced, p, hp, ?_⟩
  refine (hreached _ ?_).1
  cases hp
  exact Program.Reaches.head rfl .refl

end Wiring
end TapeLang
