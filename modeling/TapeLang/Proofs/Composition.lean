import TapeLang.Proofs.Refinement

/-! One program after another. A tree in front of another one is run first and
hands over its tape, its input and its counts, so a joined program does what
its two parts do in turn. -/
namespace TapeLang

/-- What was done in all when `later` was done from a fresh start after `before`. -/
def Effects.following (later before : Effects) : Effects where
  tape := later.tape
  input := later.input
  ticks := before.ticks + later.ticks
  reads := before.reads + later.reads
  writes := before.writes ++ later.writes

/-- The wiring of a run that finds standard output as some calls left it. -/
def Wiring.after (w : Wiring) (calls : Nat) : Wiring :=
  { w with stdout := w.stdout.after calls }

theorem Wiring.refusal_after (w : Wiring) (calls k : Nat) :
    (w.after calls).output.refusal k = w.output.refusal (calls + k) := by
  cases hcollected : w.collected <;> simp [output, after, hcollected, Output.after, Output.accepting]

theorem Wiring.Direct.after {w : Wiring} (hw : w.Direct) (calls : Nat) : (w.after calls).Direct :=
  ⟨hw.untraced, hw.uncontrolled⟩

theorem Ending.eq_completed_of_outcome {ending : Ending} (h : ending.outcome = .halted) :
    ending = .completed := by
  cases ending with
  | completed => rfl
  | failed pos reason => cases h
  | waiting => cases h

namespace Effects

variable (e before : Effects) (w : Wiring) (pos : Nat)

theorem tick_following : (e.following before).tick = e.tick.following before := rfl

theorem write_following : (e.following before).write w pos =
    ((e.write (w.after before.writes.size) pos).1,
      (e.write (w.after before.writes.size) pos).2.following before) := by
  have hsize : (e.following before).writes.size = before.writes.size + e.writes.size :=
    Array.size_append
  unfold write
  rw [w.refusal_after, hsize]
  cases w.output.refusal (before.writes.size + e.writes.size) with
  | none => simp [following, Wiring.after]
  | some reason => rfl

theorem readInto_following : (e.following before).readInto pos =
    ((e.readInto pos).1, (e.readInto pos).2.following before) := by
  unfold readInto
  rw [show (e.following before).input = e.input from rfl]
  rcases e.input.read with ⟨answer, rest⟩
  cases answer <;> rfl

theorem perform_following (op : Plain) : (e.following before).perform w pos op =
    ((e.perform (w.after before.writes.size) pos op).1,
      (e.perform (w.after before.writes.size) pos op).2.following before) := by
  cases op with
  | output => exact e.write_following before w pos
  | input => exact e.readInto_following before pos
  | increment => rfl
  | decrement => rfl
  | moveForward => rfl
  | moveBackward => rfl

theorem fresh_following : Effects.following { tape := e.tape, input := e.input } e = e := by
  simp [following]

end Effects

namespace Block

variable {w : Wiring} {a b : Block} {e before mid last : Effects} {ending : Ending}

theorem Yields.following (h : b.Yields (w.after before.writes.size) e ending last) :
    b.Yields w (e.following before) ending (last.following before) := by
  induction h with
  | done e => exact .done _
  | leafNext hperform _ ih =>
    refine .leafNext ?_ ih
    rw [Effects.tick_following, Effects.perform_following, hperform]
  | leafStop hperform hended =>
    refine .leafStop ?_ hended
    rw [Effects.tick_following, Effects.perform_following, hperform]
  | loopSkip hpos _ ih => exact .loopSkip hpos ih
  | loopAgain hpos _ _ ihbody ihloop => exact .loopAgain hpos ihbody ihloop
  | loopStop hpos _ hended ih => exact .loopStop hpos ih hended

theorem Yields.of_following (h : b.Yields w (e.following before) ending last) :
    ∃ after, b.Yields (w.after before.writes.size) e ending after ∧
      after.following before = last := by
  generalize hstart : e.following before = start at h
  induction h generalizing e with
  | done start =>
    subst hstart
    exact ⟨e, .done e, rfl⟩
  | leafNext hperform _ ih =>
    subst hstart
    rw [Effects.tick_following, Effects.perform_following, Prod.mk.injEq] at hperform
    obtain ⟨after, hrest, hlast⟩ := ih hperform.2
    exact ⟨after, .leafNext (Prod.ext hperform.1 rfl) hrest, hlast⟩
  | leafStop hperform hended =>
    subst hstart
    rw [Effects.tick_following, Effects.perform_following, Prod.mk.injEq] at hperform
    exact ⟨_, .leafStop (Prod.ext hperform.1 rfl) hended, hperform.2⟩
  | loopSkip hpos _ ih =>
    subst hstart
    obtain ⟨after, hrest, hlast⟩ := ih (e.tick_following before).symm
    exact ⟨after, .loopSkip hpos hrest, hlast⟩
  | loopAgain hpos _ _ ihbody ihloop =>
    subst hstart
    obtain ⟨middle, hbody, hmiddle⟩ := ihbody (e.tick_following before).symm
    obtain ⟨after, hloop, hlast⟩ := ihloop hmiddle
    exact ⟨after, .loopAgain hpos hbody hloop, hlast⟩
  | loopStop hpos _ hended ih =>
    subst hstart
    obtain ⟨after, hbody, hlast⟩ := ih (e.tick_following before).symm
    exact ⟨after, .loopStop hpos hbody hended, hlast⟩

theorem Yields.resume
    (h : b.Yields (w.after e.writes.size) { tape := e.tape, input := e.input } ending last) :
    b.Yields w e ending (last.following e) := by
  have hshifted := h.following
  rwa [e.fresh_following] at hshifted

theorem Yields.fresh (h : b.Yields w e ending last) :
    ∃ after, b.Yields (w.after e.writes.size) { tape := e.tape, input := e.input } ending after ∧
      after.following e = last := by
  rw [← e.fresh_following] at h
  exact h.of_following

theorem Yields.append (ha : a.Yields w e .completed mid) (hb : b.Yields w mid ending last) :
    (a.append b).Yields w e ending last := by
  generalize hended : Ending.completed = first at ha
  induction ha with
  | done e => exact hb
  | leafNext hperform _ ih => exact .leafNext hperform (ih hb hended)
  | leafStop _ hne => exact absurd hended.symm hne
  | loopSkip hpos _ ih => exact .loopSkip hpos (ih hb hended)
  | loopAgain hpos hbody _ _ ihloop => exact .loopAgain hpos hbody (ihloop hb hended)
  | loopStop _ _ hne => exact absurd hended.symm hne

theorem Yields.append_of_stop (ha : a.Yields w e ending last) (hended : ending ≠ .completed)
    (b : Block) : (a.append b).Yields w e ending last := by
  induction ha with
  | done e => exact absurd rfl hended
  | leafNext hperform _ ih => exact .leafNext hperform (ih hended)
  | leafStop hperform hne => exact .leafStop hperform hne
  | loopSkip hpos _ ih => exact .loopSkip hpos (ih hended)
  | loopAgain hpos hbody _ _ ihloop => exact .loopAgain hpos hbody (ihloop hended)
  | loopStop hpos hbody hne => exact .loopStop hpos hbody hne

theorem Yields.of_append (h : (a.append b).Yields w e ending last) :
    (∃ mid, a.Yields w e .completed mid ∧ b.Yields w mid ending last) ∨
      (ending ≠ .completed ∧ a.Yields w e ending last) := by
  induction a generalizing e ending last with
  | done => exact .inl ⟨e, .done e, h⟩
  | leaf op pos rest ih =>
    cases h with
    | leafNext hperform hrest =>
      rcases ih hrest with ⟨mid, hfirst, hsecond⟩ | ⟨hended, hfirst⟩
      · exact .inl ⟨mid, .leafNext hperform hfirst, hsecond⟩
      · exact .inr ⟨hended, .leafNext hperform hfirst⟩
    | leafStop hperform hended => exact .inr ⟨hended, .leafStop hperform hended⟩
  | loop openPos body closePos rest _ ih =>
    -- on the run, since a loop comes back to the same joined tree
    generalize hjoined : (loop openPos body closePos rest).append b = joined at h
    induction h with
    | done => cases hjoined
    | leafNext => cases hjoined
    | leafStop => cases hjoined
    | loopSkip hpos hrest =>
      cases hjoined
      rcases ih hrest with ⟨mid, hfirst, hsecond⟩ | ⟨hended, hfirst⟩
      · exact .inl ⟨mid, .loopSkip hpos hfirst, hsecond⟩
      · exact .inr ⟨hended, .loopSkip hpos hfirst⟩
    | loopAgain hpos hbody _ _ ihloop =>
      cases hjoined
      rcases ihloop rfl with ⟨mid, hfirst, hsecond⟩ | ⟨hended, hfirst⟩
      · exact .inl ⟨mid, .loopAgain hpos hbody hfirst, hsecond⟩
      · exact .inr ⟨hended, .loopAgain hpos hbody hfirst⟩
    | loopStop hpos hbody hended =>
      cases hjoined
      exact .inr ⟨hended, .loopStop hpos hbody hended⟩

end Block

namespace Wiring

/-- Run a program and, if it came to its end, another one on the tape, the input and
the standard output it left. -/
def runThen (w : Wiring) (fuel : Nat) (first second : List Token) (tape : Tape) (input : Input) :
    Outcome × Effects :=
  let run := w.run fuel first tape input
  if run.outcome = .halted then
    let next := (w.after run.state.writes.size).run fuel second run.state.tape run.state.input
    (next.outcome, next.state.effects.following run.state.effects)
  else (run.outcome, run.state.effects)

variable {w : Wiring} {fuel : Nat} {first second : List Token} {tape : Tape} {input : Input}
  {s t : State} {outcome : Outcome}

theorem runThen_of_halted (h : w.run fuel first tape input = ⟨.halted, s⟩)
    (hnext : (w.after s.writes.size).run fuel second s.tape s.input = ⟨outcome, t⟩) :
    w.runThen fuel first second tape input = (outcome, t.effects.following s.effects) := by
  simp [runThen, h, hnext]

theorem runThen_of_ne_halted (h : w.run fuel first tape input = ⟨outcome, s⟩)
    (hne : outcome ≠ .halted) : w.runThen fuel first second tape input = (outcome, s.effects) := by
  simp [runThen, h, hne]

variable {a b : Block} {ending : Ending} {after : Effects}

theorem exists_run_of_yields (hw : w.Direct) (h : b.Yields w { tape, input } ending after) :
    ∃ n, ∀ fuel ≥ n, ∃ ip, w.run fuel b.tokens tape input = ⟨ending.outcome, after.stateAt ip⟩ := by
  obtain ⟨p, hp⟩ := Program.exists_ofTokens b
  obtain ⟨ip, hends⟩ := Program.ends_of_yields hw hp h
  obtain ⟨n, hn⟩ := hends.exists_runFor
  refine ⟨n, ?_⟩
  intro fuel hfuel
  obtain ⟨extra, rfl⟩ := Nat.exists_eq_add_of_le hfuel
  have hdone : (p.runFor w n (Effects.stateAt { tape, input } 0)).outcome ≠ .running := by
    rw [hn]
    exact ending.outcome_ne_running
  refine ⟨ip, ?_⟩
  rw [run_eq_runFor hw hp, Program.runFor_add_of_finished hdone, hn]

theorem yields_of_run (hw : w.Direct) (b : Block) (fuel : Nat) (tape : Tape) (input : Input)
    (hdone : (w.run fuel b.tokens tape input).outcome ≠ .running) :
    ∃ ending, ending.outcome = (w.run fuel b.tokens tape input).outcome ∧
      b.Yields w { tape, input } ending (w.run fuel b.tokens tape input).state.effects := by
  obtain ⟨p, hp⟩ := Program.exists_ofTokens b
  rw [run_eq_runFor hw hp] at hdone ⊢
  exact Program.yields_of_runFor hw hp hdone

theorem exists_runThen_of_yields (hw : w.Direct)
    (h : (a.append b).Yields w { tape, input } ending after) :
    ∃ fuel, w.runThen fuel a.tokens b.tokens tape input = (ending.outcome, after) := by
  rcases h.of_append with ⟨mid, hfirst, hsecond⟩ | ⟨hended, hfirst⟩
  · obtain ⟨last, hfresh, rfl⟩ := hsecond.fresh
    obtain ⟨n, hn⟩ := exists_run_of_yields hw hfirst
    obtain ⟨m, hm⟩ := exists_run_of_yields (hw.after _) hfresh
    obtain ⟨ip, hrun⟩ := hn (n + m) (Nat.le_add_right n m)
    obtain ⟨ip', hnext⟩ := hm (n + m) (Nat.le_add_left m n)
    exact ⟨n + m, runThen_of_halted hrun hnext⟩
  · obtain ⟨n, hn⟩ := exists_run_of_yields hw hfirst
    obtain ⟨ip, hrun⟩ := hn n (Nat.le_refl n)
    exact ⟨n, runThen_of_ne_halted hrun (mt Ending.eq_completed_of_outcome hended)⟩

theorem yields_of_runThen (hw : w.Direct) (a b : Block) (fuel : Nat) (tape : Tape) (input : Input)
    (hdone : (w.runThen fuel a.tokens b.tokens tape input).1 ≠ .running) :
    ∃ ending, ending.outcome = (w.runThen fuel a.tokens b.tokens tape input).1 ∧
      (a.append b).Yields w { tape, input } ending
        (w.runThen fuel a.tokens b.tokens tape input).2 := by
  have hfirst := yields_of_run hw a fuel tape input
  rcases hrun : w.run fuel a.tokens tape input with ⟨outcome, s⟩
  rw [hrun] at hfirst
  by_cases hhalted : outcome = .halted
  · subst hhalted
    obtain ⟨first, hcompleted, hmid⟩ := hfirst (by simp)
    rw [Ending.eq_completed_of_outcome hcompleted] at hmid
    have hsecond := yields_of_run (hw.after s.writes.size) b fuel s.tape s.input
    rcases hnext : (w.after s.writes.size).run fuel b.tokens s.tape s.input with ⟨outcome, t⟩
    rw [hnext] at hsecond
    rw [runThen_of_halted hrun hnext] at hdone ⊢
    obtain ⟨ending, houtcome, hlast⟩ := hsecond hdone
    exact ⟨ending, houtcome, hmid.append (hlast.resume (e := s.effects))⟩
  · rw [runThen_of_ne_halted hrun hhalted] at hdone ⊢
    obtain ⟨ending, houtcome, hlast⟩ := hfirst hdone
    refine ⟨ending, houtcome, hlast.append_of_stop ?_ b⟩
    rintro rfl
    exact hhalted houtcome.symm

/-- A joined program comes to the answer, the tape, the input, the output and the
counts that its first part and then its second one come to; it runs for ever
exactly when one of them does. -/
theorem run_append (hw : w.Direct) (hfirst : Balanced first) (hsecond : Balanced second)
    (tape : Tape) (input : Input) :
    (∀ outcome after, outcome ≠ .running →
      ((∃ fuel, (w.run fuel (first ++ second) tape input).outcome = outcome ∧
          (w.run fuel (first ++ second) tape input).state.effects = after) ↔
        ∃ fuel, w.runThen fuel first second tape input = (outcome, after))) ∧
    ((∀ fuel, (w.run fuel (first ++ second) tape input).outcome = .running) ↔
      ∀ fuel, (w.runThen fuel first second tape input).1 = .running) := by
  obtain ⟨a, rfl⟩ := hfirst.exists_block
  obtain ⟨b, rfl⟩ := hsecond.exists_block
  rw [← Block.tokens_append]
  have hsame : ∀ outcome after, outcome ≠ .running →
      ((∃ fuel, (w.run fuel (a.append b).tokens tape input).outcome = outcome ∧
          (w.run fuel (a.append b).tokens tape input).state.effects = after) ↔
        ∃ fuel, w.runThen fuel a.tokens b.tokens tape input = (outcome, after)) := by
    intro outcome after hdone
    constructor
    · rintro ⟨fuel, rfl, rfl⟩
      obtain ⟨ending, houtcome, hyields⟩ := yields_of_run hw _ fuel tape input hdone
      rw [← houtcome]
      exact exists_runThen_of_yields hw hyields
    · rintro ⟨fuel, hrun⟩
      have hjoined := yields_of_runThen hw a b fuel tape input
      rw [hrun] at hjoined
      obtain ⟨ending, rfl, hyields⟩ := hjoined hdone
      obtain ⟨n, hn⟩ := exists_run_of_yields hw hyields
      obtain ⟨ip, hwhole⟩ := hn n (Nat.le_refl n)
      exact ⟨n, by rw [hwhole], by rw [hwhole, Effects.effects_stateAt]⟩
  refine ⟨hsame, ?_⟩
  constructor
  · intro hrunning fuel
    apply Decidable.byContradiction
    intro hdone
    obtain ⟨n, houtcome, -⟩ := (hsame _ _ hdone).mpr ⟨fuel, rfl⟩
    exact hdone (houtcome ▸ hrunning n)
  · intro hrunning fuel
    apply Decidable.byContradiction
    intro hdone
    obtain ⟨n, hrun⟩ := (hsame _ _ hdone).mp ⟨fuel, rfl, rfl⟩
    exact hdone ((congrArg Prod.fst hrun).symm.trans (hrunning n))

theorem run_append_failing_read :
    Balanced [⟨.increment, 0⟩, ⟨.output, 1⟩] ∧
    Balanced [⟨.loopOpen, 2⟩, ⟨.input, 3⟩, ⟨.loopClose, 4⟩] ∧
    ∃ fuel, (({} : Wiring).run fuel
        ([⟨.increment, 0⟩, ⟨.output, 1⟩] ++ [⟨.loopOpen, 2⟩, ⟨.input, 3⟩, ⟨.loopClose, 4⟩])
        (.blank 1) (.standard (.failing "gone"))).outcome = .fault (.io 3 "gone") ∧
      (({} : Wiring).run fuel
        ([⟨.increment, 0⟩, ⟨.output, 1⟩] ++ [⟨.loopOpen, 2⟩, ⟨.input, 3⟩, ⟨.loopClose, 4⟩])
        (.blank 1) (.standard (.failing "gone"))).state.effects =
          { tape := (Tape.blank 1).increment, input := .standard (.failing "gone"),
            ticks := 4, reads := 1, writes := #[[1, 10]] } := by
  have hfirst : Balanced [⟨.increment, 0⟩, ⟨.output, 1⟩] := by decide
  have hsecond : Balanced [⟨.loopOpen, 2⟩, ⟨.input, 3⟩, ⟨.loopClose, 4⟩] := by decide
  obtain ⟨hsame, -⟩ := run_append (w := {}) ⟨rfl, rfl⟩ hfirst hsecond (.blank 1)
    (.standard (.failing "gone"))
  exact ⟨hfirst, hsecond, (hsame _ _ (by decide)).mpr ⟨3, by decide⟩⟩

end Wiring
end TapeLang
