import TapeLang.Proofs.LoopRows
import TapeLang.Proofs.Rehearsal

/-! Executions that come back in time. The clock has no part in what they leave: they are
the run that nothing but the program and its step limit can end. A run prints characters or
a table, never both. -/
namespace TapeLang

variable {p : Program} {w : Wiring} {s : State} {tokens : List Token} {tape : Tape}
  {input : Input}

theorem Program.runFor_of_uncancelled {control : Option Control}
    (hsame : ∀ u : State, w.interrupt u ≠ some .cancelled →
      Wiring.interrupt { w with control := control } u = w.interrupt u)
    {fuel : Nat} (h : (p.runFor w fuel s).outcome ≠ .fault .cancelled) :
    p.runFor { w with control := control } fuel s = p.runFor w fuel s := by
  induction fuel generalizing s with
  | zero => rfl
  | succ fuel ih =>
    have hstep : p.step { w with control := control } s = p.step w s := by
      unfold step
      cases htok : p.tokens[s.ip]? with
      | none => rfl
      | some tok =>
        have hclear : w.interrupt s ≠ some .cancelled := by
          intro hcancelled
          have hstop : p.step w s = .stop (.fault .cancelled) s := by
            simp only [step, htok, hcancelled]
          rw [runFor_succ_of_stop hstop] at h
          exact h rfl
        rw [hsame s hclear]
        rfl
    cases hs : p.step w s with
    | next after =>
      rw [runFor_succ_of_next hs] at h ⊢
      rw [runFor_succ_of_next (hstep.trans hs), ih h]
    | stop outcome after =>
      rw [runFor_succ_of_stop hs, runFor_succ_of_stop (hstep.trans hs)]

namespace Settings

variable {settings : Settings} {clock : Clock} {stdout : Output} {traced : Bool}

/-- The wiring of a run that only its program and its step limit can end. -/
def timeless (settings : Settings) (stdout : Output) (traced : Bool) : Wiring where
  mode := settings.output
  stdout := stdout
  traced := traced
  control := settings.maxSteps.map fun limit => { maxSteps := some limit }

theorem interrupt_timeless (u : State)
    (h : (settings.wiring clock stdout traced).interrupt u ≠ some .cancelled) :
    (settings.timeless stdout traced).interrupt u =
      (settings.wiring clock stdout traced).interrupt u := by
  cases hlimited : settings.isLimited with
  | false =>
    simp only [isLimited, Bool.or_eq_false_iff, Option.isSome_eq_false_iff,
      Option.isNone_iff_eq_none] at hlimited
    simp [Wiring.interrupt, timeless, wiring, control, isLimited, hlimited]
  | true =>
    rw [interrupt_wiring hlimited] at h ⊢
    have hdown : CancelPlan.raised { afterTicks := settings.deadline clock } u.progress = false := by
      apply Bool.eq_false_iff.mpr
      intro hraised
      exact h (Control.interrupt_of_raised hraised)
    have hnever : CancelPlan.raised {} u.progress = false := rfl
    unfold Wiring.interrupt timeless
    cases hsteps : settings.maxSteps with
    | none => simp [Control.interrupt, hdown]
    | some limit => simp [Control.interrupt, hdown, hnever]

theorem run_timeless {fuel : Nat}
    (h : ((settings.wiring clock stdout traced).run fuel tokens tape input).outcome ≠
      .fault .cancelled) :
    (settings.timeless stdout traced).run fuel tokens tape input =
      (settings.wiring clock stdout traced).run fuel tokens tape input := by
  unfold Wiring.run at h ⊢
  cases hp : Program.ofTokens tokens with
  | error bracket => rfl
  | ok p =>
    rw [hp] at h
    have hsame : (settings.timeless stdout traced).headingRefusal =
        (settings.wiring clock stdout traced).headingRefusal := rfl
    rw [hsame]
    cases hheading : (settings.wiring clock stdout traced).headingRefusal with
    | some refusal => rfl
    | none =>
      rw [hheading] at h
      exact Program.runFor_of_uncancelled interrupt_timeless h

/-- The execution comes back before its time is up. -/
structure InTime (settings : Settings) (clock : Clock) (stdout : Output) (traced : Bool)
    (tokens : List Token) (input : Input) : Prop where
  returns : (settings.execute clock stdout traced tokens input).verdict ≠ .unanswered
  timely : ∀ ms, (settings.execute clock stdout traced tokens input).verdict ≠
    .failed (.timeout ms)

theorem InTime.outcome_ne_cancelled
    (h : settings.InTime clock stdout traced tokens input) :
    ((settings.wiring clock stdout traced).run (settings.fuel clock) tokens .fresh input).outcome ≠
      .fault .cancelled := by
  intro hcancelled
  cases htimeout : settings.timeoutMs with
  | some ms =>
    apply h.timely ms
    simp [execute, hcancelled, verdict, htimeout]
  | none =>
    unfold Wiring.run at hcancelled
    split at hcancelled
    · cases hcancelled
    split at hcancelled
    · cases hcancelled
    · exact Program.outcome_ne_cancelled (interrupt_ne_cancelled htimeout) _ hcancelled

theorem InTime.execute_eq (h : settings.InTime clock stdout traced tokens input) :
    let run := (settings.timeless stdout traced).run (settings.fuel clock) tokens .fresh input
    settings.execute clock stdout traced tokens input =
      ⟨settings.verdict run.outcome, run.stdout (settings.timeless stdout traced),
        run.calls (settings.timeless stdout traced), run.state.input⟩ := by
  intro run
  have hrun : run = _ := run_timeless h.outcome_ne_cancelled
  rw [hrun]
  rfl

theorem InTime.answers (h : settings.InTime clock .accepting traced tokens input)
    (hclosed : input.toQueue.closed = true) :
    ((settings.timeless .accepting traced).run (settings.fuel clock) tokens .fresh
      input).outcome.Answers := by
  have hreturns := h.returns
  have htimely := h.outcome_ne_cancelled
  rw [h.execute_eq] at hreturns
  rw [← run_timeless h.outcome_ne_cancelled] at htimely
  cases hp : Program.ofTokens tokens with
  | error bracket => exact .inr ⟨.unmatched bracket, by simp [Wiring.run, hp], nofun⟩
  | ok p =>
    rw [Wiring.run_of_accepting rfl hp] at hreturns htimely ⊢
    rcases Program.outcome_runFor_of_closed (p := p) (w := settings.timeless .accepting traced)
      (s := State.initial _ .fresh input) (fun u => Wiring.rowRefusal_of_accepting u rfl)
      hclosed (settings.fuel clock) with
      hrunning | hhalted | ⟨f, hfault⟩
    · rw [hrunning] at hreturns
      exact absurd rfl hreturns
    · exact .inl hhalted
    · refine .inr ⟨f, hfault, ?_⟩
      rintro rfl
      exact htimely hfault

end Settings

def Run.shown (r : Run) (traced : Bool) : Bytes :=
  if traced then Utf8.encode (renderTrace r.state.trace.toList) else r.state.writes.toList.flatten

theorem Program.trace_exec {tok : Token} (hw : w.traced = false) :
    (p.exec w tok s).state.trace = s.trace := by
  obtain ⟨op, pos⟩ := tok
  unfold exec
  simp only [State.log_of_untraced hw]
  cases op with
  | output =>
    simp only [Wiring.print, hw]
    cases w.output.refusal s.writes.size <;> rfl
  | input =>
    simp only [Wiring.readByte, hw]
    rcases s.input.read with ⟨_ | _ | _ | _, rest⟩ <;> rfl
  | loopOpen =>
    simp only []
    split
    · rfl
    split <;> rfl
  | loopClose =>
    simp only []
    split
    · rfl
    split <;> rfl
  | _ => rfl

theorem Program.trace_step (hw : w.traced = false) (s : State) :
    (p.step w s).state.trace = s.trace := by
  unfold step
  split
  · rfl
  split
  · rfl
  · rw [Wiring.printRow_of_untraced _ _ hw]
    exact trace_exec hw

theorem Program.writes_step_of_traced (hp : ofTokens tokens = .ok p) (hw : w.traced = true)
    (s : State) : (p.step w s).state.writes = s.writes := by
  cases hexec : p.executes w s with
  | none => rw [state_step_of_idle hexec]
  | some tok =>
    obtain ⟨r, after, hnext, hadds, -⟩ := exec_of_traced hp hw hexec
    rw [step_of_executes hexec, Wiring.writes_printRow, hnext]
    exact hadds.writes_eq

namespace Wiring

theorem trace_run (hw : w.traced = false) (fuel : Nat) :
    (w.run fuel tokens tape input).state.trace = #[] := by
  unfold run
  rw [headingRefusal_of_untraced hw]
  cases Program.ofTokens tokens with
  | error bracket => rfl
  | ok p =>
    refine (Program.runFor_keeps (f := State.trace) (Program.trace_step hw) fuel _).trans ?_
    simp [State.initial, heading, hw]

theorem writes_run_of_traced (hw : w.traced = true) (fuel : Nat) :
    (w.run fuel tokens tape input).state.writes = #[] := by
  unfold run
  cases hp : Program.ofTokens tokens with
  | error bracket => rfl
  | ok p =>
    cases w.headingRefusal with
    | some refusal => rfl
    | none =>
      exact Program.runFor_keeps (f := State.writes) (Program.writes_step_of_traced hp hw) fuel _

theorem stdout_run (hcollected : w.collected = false) (fuel : Nat) :
    (w.run fuel tokens tape input).stdout w = (w.run fuel tokens tape input).shown w.traced := by
  unfold Run.stdout Run.shown
  rw [hcollected]
  cases hw : w.traced with
  | false => simp [trace_run hw, renderTrace, Utf8.encode]
  | true => simp [writes_run_of_traced hw]

end Wiring
end TapeLang
