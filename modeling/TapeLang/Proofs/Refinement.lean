import TapeLang.Proofs.Matching
import TapeLang.Proofs.Progress
import TapeLang.Proofs.Reachability
import TapeLang.Proofs.Structured

/-! The machine runs the tree of its program. The tree of a part of the program
says where the machine may stand and where its jumps lead; a result of the tree
is a path of the machine, and a tree without a result keeps it running. -/
namespace TapeLang

def State.effects (s : State) : Effects := ⟨s.tape, s.input, s.ticks, s.reads, s.writes⟩

def Effects.stateAt (e : Effects) (ip : Nat) : State where
  tape := e.tape
  input := e.input
  ip := ip
  ticks := e.ticks
  reads := e.reads
  writes := e.writes

@[simp] theorem Effects.effects_stateAt (e : Effects) (ip : Nat) : (e.stateAt ip).effects = e := rfl

@[simp] theorem Effects.ip_stateAt (e : Effects) (ip : Nat) : (e.stateAt ip).ip = ip := rfl

/-- A run that prints no table and has no limits. -/
structure Wiring.Direct (w : Wiring) : Prop where
  untraced : w.traced = false
  uncontrolled : w.control = none

def Step.ofResult (ip : Nat) : Ending × Effects → Step
  | (.completed, after) => .next (after.stateAt (ip + 1))
  | (ending, after) => .stop ending.outcome (after.stateAt ip)

theorem Step.ofResult_of_ne {ending : Ending} (h : ending ≠ .completed) (ip : Nat) (after : Effects) :
    Step.ofResult ip (ending, after) = .stop ending.outcome (after.stateAt ip) := by
  cases ending with
  | completed => exact absurd rfl h
  | failed pos reason => rfl
  | waiting => rfl

namespace Program

variable {p : Program} {w : Wiring} {i : Nat}

theorem exec_plain (hw : w.traced = false) (op : Plain) (pos : Nat) (e : Effects) (ip : Nat) :
    p.exec w ⟨op.instruction, pos⟩ (e.stateAt ip) = .ofResult ip (e.perform w pos op) := by
  cases op with
  | increment => simp [exec, Plain.instruction, State.log, hw]; rfl
  | decrement => simp [exec, Plain.instruction, State.log, hw]; rfl
  | moveForward => simp [exec, Plain.instruction, State.log, hw]; rfl
  | moveBackward => simp [exec, Plain.instruction, State.log, hw]; rfl
  | output =>
    simp only [exec, Plain.instruction, Wiring.print, hw, Effects.perform, Effects.write]
    rw [show (e.stateAt ip).writes = e.writes from rfl]
    cases w.output.refusal e.writes.size <;> rfl
  | input =>
    simp only [exec, Plain.instruction, Wiring.readByte, hw, Effects.perform, Effects.readInto]
    rw [show (e.stateAt ip).input = e.input from rfl]
    rcases e.input.read with ⟨answer, rest⟩
    cases answer <;> rfl

theorem interrupt_of_direct (hw : w.Direct) (s : State) : w.interrupt s = none := by
  rw [Wiring.interrupt, hw.uncontrolled]
  rfl

theorem step_plain (hw : w.Direct) {op : Plain} {pos : Nat}
    (ht : p.tokens[i]? = some ⟨op.instruction, pos⟩) (e : Effects) :
    p.step w (e.stateAt i) = .ofResult i (e.tick.perform w pos op) := by
  simp only [step, Effects.ip_stateAt, ht, interrupt_of_direct hw,
    Wiring.printRow_of_untraced _ _ hw.untraced]
  exact exec_plain hw.untraced op pos e.tick i

theorem step_open (hw : w.Direct) {pos close : Nat} (ht : p.tokens[i]? = some ⟨.loopOpen, pos⟩)
    (hclose : p.loops.closeOf i = some close) (e : Effects) :
    p.step w (e.stateAt i) =
      .next (e.tick.stateAt (if 0 < e.tape.read then i + 1 else close + 1)) := by
  simp only [step, exec, Effects.ip_stateAt, ht, hclose, interrupt_of_direct hw, State.log,
    hw.untraced, Wiring.printRow_of_untraced _ _ hw.untraced]
  by_cases hpos : 0 < e.tape.read
  · rw [if_pos hpos]
    exact if_pos hpos
  · rw [if_neg hpos]
    exact if_neg hpos

theorem step_close (hw : w.Direct) {pos close : Nat}
    (ht : p.tokens[close]? = some ⟨.loopClose, pos⟩) (hopen : p.loops.openOf close = some i)
    (e : Effects) :
    p.step w (e.stateAt close) =
      .next (e.tick.stateAt (if 0 < e.tape.read then i + 1 else close + 1)) := by
  simp only [step, exec, Effects.ip_stateAt, ht, hopen, interrupt_of_direct hw, State.log,
    hw.untraced, Wiring.printRow_of_untraced _ _ hw.untraced]
  by_cases hpos : 0 < e.tape.read
  · rw [if_pos hpos]
    exact if_pos hpos
  · rw [if_neg hpos]
    exact if_neg hpos

/-- The tokens from an index on are those of a tree, and the jumps at its
brackets lead where the tree says. -/
def Holds (p : Program) : Nat → Block → Prop
  | _, .done => True
  | i, .leaf op pos rest => p.tokens[i]? = some ⟨op.instruction, pos⟩ ∧ p.Holds (i + 1) rest
  | i, .loop openPos body closePos rest =>
    p.tokens[i]? = some ⟨.loopOpen, openPos⟩ ∧
    p.tokens[i + body.size + 1]? = some ⟨.loopClose, closePos⟩ ∧
    p.loops.closeOf i = some (i + body.size + 1) ∧
    p.loops.openOf (i + body.size + 1) = some i ∧
    p.Holds (i + 1) body ∧ p.Holds (i + body.size + 2) rest

theorem eq_of_ofTokens {tokens : List Token} (h : ofTokens tokens = .ok p) :
    p.tokens = tokens.toArray ∧ LoopTable.build tokens = .ok p.loops := by
  rw [ofTokens] at h
  cases hbuild : LoopTable.build tokens with
  | error bracket =>
    rw [hbuild] at h
    cases h
  | ok loops =>
    rw [hbuild] at h
    cases h
    exact ⟨rfl, rfl⟩

theorem exists_ofTokens (b : Block) : ∃ p, ofTokens b.tokens = .ok p := by
  rw [ofTokens, b.build_tokens]
  exact ⟨_, rfl⟩

theorem holds_of_append {tokens before after : List Token} {b : Block}
    (h : ofTokens tokens = .ok p) (htokens : tokens = before ++ (b.tokens ++ after)) :
    p.Holds before.length b := by
  obtain ⟨harray, hbuild⟩ := eq_of_ofTokens h
  induction b generalizing before after with
  | done => trivial
  | leaf op pos rest ih =>
    refine ⟨by simp [harray, htokens, Block.tokens], ?_⟩
    have hrest := @ih (before ++ [⟨op.instruction, pos⟩]) after (by simp [htokens, Block.tokens])
    simpa using hrest
  | loop openPos body closePos rest ihbody ihrest =>
    have hloop : tokens = before ++ ⟨.loopOpen, openPos⟩ ::
        (body.tokens ++ ⟨.loopClose, closePos⟩ :: (rest.tokens ++ after)) := by
      simp [htokens, Block.tokens]
    have hpair : p.loops.closeOf before.length = some (before.length + body.size + 1) := by
      rw [LoopTable.closeOf_eq_some_iff hbuild, hloop]
      exact encloses_append rfl rfl body.balanced_tokens before (rest.tokens ++ after)
    have hindex : before.length + body.size + 1 - before.length = body.size + 1 := by omega
    refine ⟨by simp [harray, hloop], ?_, hpair, (LoopTable.openOf_eq_some_iff hbuild).mpr hpair,
      ?_, ?_⟩
    · rw [harray, List.getElem?_toArray, hloop, List.getElem?_append_right (by omega), hindex]
      simp [Block.size]
    · have hbody := @ihbody (before ++ [⟨.loopOpen, openPos⟩])
        (⟨.loopClose, closePos⟩ :: (rest.tokens ++ after)) (by simp [hloop])
      simpa using hbody
    · have hrest := @ihrest (before ++ ⟨.loopOpen, openPos⟩ :: (body.tokens ++
        [⟨.loopClose, closePos⟩])) after (by simp [hloop])
      have hlength : (before ++ (⟨.loopOpen, openPos⟩ : Token) :: (body.tokens ++
          [⟨.loopClose, closePos⟩])).length = before.length + body.size + 2 := by
        simp only [Block.size, List.length_append, List.length_cons, List.length_nil]
        omega
      rwa [hlength] at hrest

/-- The machine comes from a state to the result of a tree: past the tree's last
token when the tree is completed, to a stop when it is not. -/
def Delivers (p : Program) (w : Wiring) (s : State) (exit : Nat) : Ending → Effects → Prop
  | .completed, after => p.Reaches w s (after.stateAt exit)
  | ending, after => ∃ ip, p.Ends w s ending.outcome (after.stateAt ip)

variable {s t : State} {exit : Nat} {ending : Ending} {after : Effects}

theorem Delivers.of_reaches (hst : p.Reaches w s t) (h : p.Delivers w t exit ending after) :
    p.Delivers w s exit ending after := by
  cases ending with
  | completed => exact hst.trans h
  | failed pos reason =>
    obtain ⟨ip, hends⟩ := h
    exact ⟨ip, hends.of_reaches hst⟩
  | waiting =>
    obtain ⟨ip, hends⟩ := h
    exact ⟨ip, hends.of_reaches hst⟩

theorem Delivers.head (hst : p.step w s = .next t) (h : p.Delivers w t exit ending after) :
    p.Delivers w s exit ending after :=
  h.of_reaches (Reaches.head hst .refl)

theorem Delivers.of_step_eq (hstep : p.step w s = p.step w t) (hinside : t.ip ≠ exit)
    (h : p.Delivers w t exit ending after) : p.Delivers w s exit ending after := by
  cases ending with
  | completed => exact Reaches.of_step_eq hstep h fun heq => hinside (congrArg State.ip heq)
  | failed pos reason =>
    obtain ⟨ip, hends⟩ := h
    exact ⟨ip, hends.of_step_eq hstep⟩
  | waiting =>
    obtain ⟨ip, hends⟩ := h
    exact ⟨ip, hends.of_step_eq hstep⟩

theorem Delivers.of_ends (hended : ending ≠ .completed) {ip : Nat}
    (h : p.Ends w s ending.outcome (after.stateAt ip)) (exit : Nat) :
    p.Delivers w s exit ending after := by
  cases ending with
  | completed => exact absurd rfl hended
  | failed pos reason => exact ⟨ip, h⟩
  | waiting => exact ⟨ip, h⟩

theorem Delivers.exists_ends (hended : ending ≠ .completed)
    (h : p.Delivers w s exit ending after) :
    ∃ ip, p.Ends w s ending.outcome (after.stateAt ip) := by
  cases ending with
  | completed => exact absurd rfl hended
  | failed pos reason => exact h
  | waiting => exact h

/-- At its closing bracket a loop looks at the cell just as at its opening one. -/
theorem step_close_eq_step_open (hw : w.Direct) {openPos closePos : Nat} {body rest : Block}
    (h : p.Holds i (.loop openPos body closePos rest)) (e : Effects) :
    p.step w (e.stateAt (i + body.size + 1)) = p.step w (e.stateAt i) := by
  obtain ⟨hopenTok, hcloseTok, hclose, hopen, -, -⟩ := h
  rw [step_close hw hcloseTok hopen, step_open hw hopenTok hclose]

theorem delivers_of_yields (hw : w.Direct) {b : Block} {e : Effects}
    (h : b.Yields w e ending after) (hholds : p.Holds i b) :
    p.Delivers w (e.stateAt i) (i + b.size) ending after := by
  induction h generalizing i with
  | done e => exact .refl
  | @leafNext op pos rest e after last ending hperform _ ih =>
    have hstep := step_plain hw hholds.1 e
    rw [hperform] at hstep
    have hsize : i + (Block.leaf op pos rest).size = i + 1 + rest.size := by
      rw [Block.size_leaf]
      omega
    rw [hsize]
    exact (ih hholds.2).head hstep
  | @leafStop op pos rest e after ending hperform hended =>
    have hstep := step_plain hw hholds.1 e
    rw [hperform, Step.ofResult_of_ne hended] at hstep
    exact Delivers.of_ends hended ⟨_, .refl, hstep⟩ _
  | @loopSkip openPos closePos body rest e last ending hpos _ ih =>
    obtain ⟨hopenTok, -, hclose, -, -, hrest⟩ := hholds
    have hstep := step_open hw hopenTok hclose e
    rw [if_neg hpos] at hstep
    have hsize : i + (Block.loop openPos body closePos rest).size = i + body.size + 2 + rest.size := by
      rw [Block.size_loop]
      omega
    rw [hsize]
    exact (ih hrest).head hstep
  | @loopAgain openPos closePos body rest e after last ending hpos _ _ ihbody ihloop =>
    have hback := step_close_eq_step_open hw hholds after
    have hloop := (ihloop hholds).of_step_eq hback (by
      rw [Effects.ip_stateAt, Block.size_loop]
      omega)
    obtain ⟨hopenTok, -, hclose, -, hbody, -⟩ := hholds
    have hstep := step_open hw hopenTok hclose e
    rw [if_pos hpos] at hstep
    have hend : i + 1 + body.size = i + body.size + 1 := by omega
    have hrun := ihbody hbody
    rw [hend] at hrun
    exact (hloop.of_reaches hrun).head hstep
  | @loopStop openPos closePos body rest e after ending hpos _ hended ihbody =>
    obtain ⟨hopenTok, -, hclose, -, hbody, -⟩ := hholds
    have hstep := step_open hw hopenTok hclose e
    rw [if_pos hpos] at hstep
    obtain ⟨ip, hends⟩ := (ihbody hbody).exists_ends hended
    exact (Delivers.of_ends hended hends _).head hstep

theorem running_of_endless (hw : w.Direct) {b : Block} {e : Effects} (h : b.Endless w e)
    (hholds : p.Holds i b) (fuel : Nat) : (p.runFor w fuel (e.stateAt i)).outcome = .running := by
  -- on the fuel, since a loop comes back to the same tree
  induction fuel using Nat.strongRecOn generalizing b e i with
  | ind fuel ih =>
    cases fuel with
    | zero => rfl
    | succ fuel =>
      cases b with
      | done => exact absurd (.done e) (h _ _)
      | leaf op pos rest =>
        obtain ⟨after, hperform, hrest⟩ := h.of_leaf
        have hstep := step_plain hw hholds.1 e
        rw [hperform] at hstep
        rw [runFor_succ_of_next hstep]
        exact ih fuel (Nat.lt_succ_self fuel) hrest hholds.2
      | loop openPos body closePos rest =>
        have hback := step_close_eq_step_open hw hholds
        have hwhole := hholds
        obtain ⟨hopenTok, -, hclose, -, hbody, hrest⟩ := hholds
        have hstep := step_open hw hopenTok hclose e
        rw [runFor_succ_of_next hstep]
        rcases h.of_loop with ⟨hpos, hendless⟩ | ⟨hpos, hendless⟩ | ⟨hpos, after, hyields, hendless⟩
        · rw [if_neg hpos]
          exact ih fuel (Nat.lt_succ_self fuel) hendless hrest
        · rw [if_pos hpos]
          exact ih fuel (Nat.lt_succ_self fuel) hendless hbody
        · rw [if_pos hpos]
          have hrun := delivers_of_yields hw hyields hbody
          refine Reaches.running hrun ?_
          intro m hm
          cases m with
          | zero => rfl
          | succ m =>
            have hend : i + 1 + body.size = i + body.size + 1 := by omega
            rw [hend, runFor_succ_of_step_eq (hback after)]
            exact ih (m + 1) (by omega) hendless hwhole

theorem holds_whole {b : Block} (hp : ofTokens b.tokens = .ok p) : p.Holds 0 b := by
  have hwhole : b.tokens = [] ++ (b.tokens ++ []) := by simp
  exact holds_of_append hp hwhole

theorem ends_of_yields (hw : w.Direct) {b : Block} {e : Effects}
    (hp : ofTokens b.tokens = .ok p) (h : b.Yields w e ending after) :
    ∃ ip, p.Ends w (e.stateAt 0) ending.outcome (after.stateAt ip) := by
  have hrun := delivers_of_yields hw h (holds_whole hp)
  by_cases hended : ending = .completed
  · subst hended
    refine ⟨0 + b.size, _, hrun, ?_⟩
    have hpast : p.tokens[0 + b.size]? = none := by
      rw [(eq_of_ofTokens hp).1, Nat.zero_add, List.getElem?_toArray]
      exact List.getElem?_eq_none (Nat.le_refl _)
    simp only [step, Effects.ip_stateAt, hpast]
    rfl
  · exact hrun.exists_ends hended

theorem yields_of_runFor (hw : w.Direct) {b : Block} {e : Effects} {fuel : Nat}
    (hp : ofTokens b.tokens = .ok p) (hdone : (p.runFor w fuel (e.stateAt 0)).outcome ≠ .running) :
    ∃ ending, ending.outcome = (p.runFor w fuel (e.stateAt 0)).outcome ∧
      b.Yields w e ending (p.runFor w fuel (e.stateAt 0)).state.effects := by
  by_cases hresult : ∃ ending after, b.Yields w e ending after
  · obtain ⟨ending, after, hyields⟩ := hresult
    obtain ⟨ip, hends⟩ := ends_of_yields hw hp hyields
    obtain ⟨fuel', hrun⟩ := hends.exists_runFor
    have hdone' : (p.runFor w fuel' (e.stateAt 0)).outcome ≠ .running := by
      rw [hrun]
      exact ending.outcome_ne_running
    rw [runFor_eq_of_finished hdone hdone', hrun]
    exact ⟨ending, rfl, hyields⟩
  · have hendless : b.Endless w e := by
      intro ending after hyields
      exact hresult ⟨ending, after, hyields⟩
    exact absurd (running_of_endless hw hendless (holds_whole hp) fuel) hdone

end Program

namespace Wiring

variable {w : Wiring} {p : Program} {tokens : List Token}

theorem run_eq_runFor (hw : w.Direct) (hp : Program.ofTokens tokens = .ok p) (fuel : Nat)
    (tape : Tape) (input : Input) :
    w.run fuel tokens tape input = p.runFor w fuel (Effects.stateAt { tape, input } 0) := by
  simp only [run, hp, headingRefusal_of_untraced hw.untraced, State.initial, heading, hw.untraced]
  rfl

/-- The machine ends a balanced program with an answer, a tape, its output, its
reads and a number of ticks exactly when the tree of the program does, and it
runs for ever exactly when the tree does. -/
theorem run_refines_tree (hw : w.Direct) (hbalanced : Balanced tokens) (tape : Tape)
    (input : Input) :
    ∃ b, Block.parse tokens = some b ∧
      (∀ outcome after, outcome ≠ .running →
        ((∃ fuel, (w.run fuel tokens tape input).outcome = outcome ∧
            (w.run fuel tokens tape input).state.effects = after) ↔
          ∃ ending, ending.outcome = outcome ∧ b.Yields w { tape, input } ending after)) ∧
      ((∀ fuel, (w.run fuel tokens tape input).outcome = .running) ↔
        b.Endless w { tape, input }) := by
  obtain ⟨b, rfl⟩ := hbalanced.exists_block
  obtain ⟨p, hp⟩ := Program.exists_ofTokens b
  refine ⟨b, Block.parse_eq_some_iff.mpr rfl, ?_, ?_⟩
  · intro outcome after hdone
    simp only [run_eq_runFor hw hp]
    constructor
    · rintro ⟨fuel, rfl, rfl⟩
      exact Program.yields_of_runFor hw hp hdone
    · rintro ⟨ending, rfl, hyields⟩
      obtain ⟨ip, hends⟩ := Program.ends_of_yields hw hp hyields
      obtain ⟨fuel, hrun⟩ := hends.exists_runFor
      exact ⟨fuel, by rw [hrun], by rw [hrun, Effects.effects_stateAt]⟩
  · simp only [run_eq_runFor hw hp]
    constructor
    · intro hrunning ending after hyields
      obtain ⟨ip, hends⟩ := Program.ends_of_yields hw hp hyields
      obtain ⟨fuel, hrun⟩ := hends.exists_runFor
      have := hrunning fuel
      rw [hrun] at this
      exact absurd this ending.outcome_ne_running
    · intro hendless fuel
      exact Program.running_of_endless hw hendless (Program.holds_whole hp) fuel

theorem run_refines_tree_cat :
    ∃ b, Block.parse [⟨.input, 0⟩, ⟨.loopOpen, 1⟩, ⟨.output, 2⟩, ⟨.input, 3⟩, ⟨.loopClose, 4⟩] =
        some b ∧
      ∃ ending after, ending.outcome = .halted ∧
        b.Yields {} { tape := .blank 1, input := .standard (.bytes [65]) } ending after ∧
        after.writes = #[[65, 10]] ∧ after.reads = 2 ∧ after.ticks = 5 := by
  obtain ⟨b, hparse, hends, -⟩ := run_refines_tree (w := {}) ⟨rfl, rfl⟩
    (show Balanced [⟨.input, 0⟩, ⟨.loopOpen, 1⟩, ⟨.output, 2⟩, ⟨.input, 3⟩, ⟨.loopClose, 4⟩] by decide)
    (.blank 1) (.standard (.bytes [65]))
  obtain ⟨ending, houtcome, hyields⟩ := (hends .halted _ (by decide)).mp ⟨6, by decide, rfl⟩
  exact ⟨b, hparse, ending, _, houtcome, hyields, by decide, by decide, by decide⟩

end Wiring
end TapeLang
