import TapeLang.Machine.Run
import TapeLang.Proofs.Block

/-! Running a tree. There is no index into the program and no jump: a loop runs
its body for as long as the current cell is positive when it looks. Every
instruction tried and every look at a loop's cell counts one tick. -/
namespace TapeLang

/-- What a run has done so far, without the place in the program. -/
structure Effects where
  tape : Tape
  input : Input
  ticks : Nat := 0
  reads : Nat := 0
  writes : Array Bytes := #[]
deriving DecidableEq, Repr

inductive Ending where
  | completed
  | failed (pos : Nat) (reason : String)
  | waiting
deriving DecidableEq, Repr

def Ending.outcome : Ending → Outcome
  | completed => .halted
  | failed pos reason => .fault (.io pos reason)
  | waiting => .waiting

theorem Ending.outcome_ne_running (ending : Ending) : ending.outcome ≠ .running := by
  cases ending <;> intro h <;> cases h

namespace Effects

def tick (e : Effects) : Effects := { e with ticks := e.ticks + 1 }

def onTape (e : Effects) (f : Tape → Tape) : Effects := { e with tape := f e.tape }

def readInto (e : Effects) (pos : Nat) : Ending × Effects :=
  match e.input.read with
  | (.byte b, rest) =>
    (.completed, { e with input := rest, reads := e.reads + 1, tape := e.tape.write (Cell.ofByte b) })
  | (.endOfInput, rest) =>
    (.completed, { e with input := rest, reads := e.reads + 1, tape := e.tape.write Cell.endOfInput })
  | (.failed reason, rest) => (.failed pos reason, { e with input := rest, reads := e.reads + 1 })
  | (.waiting, _) => (.waiting, e)

def write (e : Effects) (w : Wiring) (pos : Nat) : Ending × Effects :=
  match w.output.refusal e.writes.size with
  | none => (.completed, { e with writes := e.writes.push (w.mode.encode e.tape.read.toChar) })
  | some reason => (.failed pos reason, e)

def perform (e : Effects) (w : Wiring) (pos : Nat) : Plain → Ending × Effects
  | .increment => (.completed, e.onTape Tape.increment)
  | .decrement => (.completed, e.onTape Tape.decrement)
  | .moveForward => (.completed, e.onTape Tape.moveForward)
  | .moveBackward => (.completed, e.onTape Tape.moveBackward)
  | .output => e.write w pos
  | .input => e.readInto pos

end Effects

namespace Block

/-- How the run of a tree comes to its result. -/
inductive Yields (w : Wiring) : Block → Effects → Ending → Effects → Prop where
  | done (e : Effects) : Yields w done e .completed e
  | leafNext {op : Plain} {pos : Nat} {rest : Block} {e after last : Effects} {ending : Ending}
      (hperform : e.tick.perform w pos op = (.completed, after))
      (hrest : Yields w rest after ending last) : Yields w (leaf op pos rest) e ending last
  | leafStop {op : Plain} {pos : Nat} {rest : Block} {e after : Effects} {ending : Ending}
      (hperform : e.tick.perform w pos op = (ending, after)) (hended : ending ≠ .completed) :
      Yields w (leaf op pos rest) e ending after
  | loopSkip {openPos closePos : Nat} {body rest : Block} {e last : Effects} {ending : Ending}
      (hpos : ¬ 0 < e.tape.read) (hrest : Yields w rest e.tick ending last) :
      Yields w (loop openPos body closePos rest) e ending last
  | loopAgain {openPos closePos : Nat} {body rest : Block} {e after last : Effects} {ending : Ending}
      (hpos : 0 < e.tape.read) (hbody : Yields w body e.tick .completed after)
      (hloop : Yields w (loop openPos body closePos rest) after ending last) :
      Yields w (loop openPos body closePos rest) e ending last
  | loopStop {openPos closePos : Nat} {body rest : Block} {e after : Effects} {ending : Ending}
      (hpos : 0 < e.tape.read) (hbody : Yields w body e.tick ending after)
      (hended : ending ≠ .completed) : Yields w (loop openPos body closePos rest) e ending after

def Endless (w : Wiring) (b : Block) (e : Effects) : Prop :=
  ∀ ending after, ¬ b.Yields w e ending after

theorem Endless.of_leaf {w : Wiring} {op : Plain} {pos : Nat} {rest : Block} {e : Effects}
    (h : (leaf op pos rest).Endless w e) :
    ∃ after, e.tick.perform w pos op = (.completed, after) ∧ rest.Endless w after := by
  rcases hperform : e.tick.perform w pos op with ⟨ending, after⟩
  by_cases hended : ending = .completed
  · subst hended
    refine ⟨after, rfl, ?_⟩
    intro ending last hrest
    exact h ending last (.leafNext hperform hrest)
  · exact absurd (.leafStop hperform hended) (h ending after)

/-- A loop without end either leaves its body no end or runs it once more. -/
theorem Endless.of_loop {w : Wiring} {openPos closePos : Nat} {body rest : Block} {e : Effects}
    (h : (loop openPos body closePos rest).Endless w e) :
    (¬ 0 < e.tape.read ∧ rest.Endless w e.tick) ∨
    (0 < e.tape.read ∧ body.Endless w e.tick) ∨
    (0 < e.tape.read ∧ ∃ after, body.Yields w e.tick .completed after ∧
      (loop openPos body closePos rest).Endless w after) := by
  by_cases hpos : 0 < e.tape.read
  · right
    by_cases hbody : ∃ ending after, body.Yields w e.tick ending after
    · right
      obtain ⟨ending, after, hbody⟩ := hbody
      by_cases hended : ending = .completed
      · subst hended
        refine ⟨hpos, after, hbody, ?_⟩
        intro ending last hloop
        exact h ending last (.loopAgain hpos hbody hloop)
      · exact absurd (.loopStop hpos hbody hended) (h ending after)
    · left
      refine ⟨hpos, ?_⟩
      intro ending after hyields
      exact hbody ⟨ending, after, hyields⟩
  · left
    refine ⟨hpos, ?_⟩
    intro ending last hrest
    exact h ending last (.loopSkip hpos hrest)

end Block
end TapeLang
