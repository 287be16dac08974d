import TapeLang.Proofs.BareSession
import TapeLang.Proofs.Bounds
import TapeLang.Proofs.Lockstep
import TapeLang.Proofs.Supervision
import TapeLang.Proofs.Truncation

/-! The ways to execute a program. Its bytes stand on standard input or in a closed
queue, and it runs with limits or without; where no limit is hit, all ways have
the same result and leave the same bytes, one run after the other. -/
namespace TapeLang

inductive Source where
  | stdin
  | queue
deriving DecidableEq, Repr

def Source.holding : Source → Bytes → Input
  | stdin, bs => .standard (.bytes bs)
  | queue, bs => .queue ⟨bs, true⟩

/-- What is seen of an execution, whatever its source: its result, its output with
the calls made for it, and the bytes it left. -/
structure Observation where
  verdict : Verdict
  stdout : Bytes
  calls : Nat
  rest : Bytes
deriving DecidableEq, Repr

def Observation.on (o : Observation) (source : Source) : Execution :=
  ⟨o.verdict, o.stdout, o.calls, source.holding o.rest⟩

theorem Observation.eq_of_on {o o' : Observation} (h : o.on .stdin = o'.on .stdin) : o = o' := by
  obtain ⟨verdict, stdout, calls, rest⟩ := o
  obtain ⟨verdict', stdout', calls', rest'⟩ := o'
  cases h
  rfl

def Input.Beside (a b : Input) : Prop :=
  ∃ bs, a = Source.stdin.holding bs ∧ b = Source.queue.holding bs

theorem Wiring.readsAlike_beside (w : Wiring) (tok : Token) : w.ReadsAlike Input.Beside tok := by
  rintro - a b ⟨bs, rfl, rfl⟩
  cases bs with
  | nil => exact ⟨rfl, [], rfl, rfl⟩
  | cons b rest => exact ⟨rfl, rest, rfl, rfl⟩

theorem Wiring.suffix_run (w : Wiring) (fuel : Nat) (tokens : List Token) (tape : Tape)
    (input : Input) :
    (w.run fuel tokens tape input).state.input.toQueue.bytes <:+ input.toQueue.bytes := by
  unfold run
  split
  · exact List.suffix_refl _
  split
  · exact List.suffix_refl _
  next p _ _ _ => exact ⟨_, p.bytes_runFor w fuel (State.initial w tape input)⟩

theorem Wiring.run_of_accepting {w : Wiring} (hout : w.stdout = .accepting) {tokens : List Token}
    {p : Program} (hp : Program.ofTokens tokens = .ok p) (fuel : Nat) (tape : Tape)
    (input : Input) :
    w.run fuel tokens tape input = p.runFor w fuel (State.initial w tape input) := by
  simp only [run, hp, headingRefusal_of_accepting hout]

theorem Settings.exists_observation (settings : Settings) (clock : Clock) (stdout : Output)
    (traced : Bool) (tokens : List Token) (bs : Bytes) :
    ∃ o : Observation, o.rest <:+ bs ∧ ∀ source : Source,
      settings.execute clock stdout traced tokens (source.holding bs) = o.on source := by
  let w := settings.wiring clock stdout traced
  have hsuffix := w.suffix_run (settings.fuel clock) tokens .fresh (Source.stdin.holding bs)
  obtain ⟨houtcome, halike⟩ := w.run_alike (settings.fuel clock) tokens .fresh
    (fun tok _ => w.readsAlike_beside tok) ⟨bs, rfl, rfl⟩
  have hstdout := Run.stdout_of_alike halike w
  have hcalls := Run.calls_of_alike halike w
  obtain ⟨_, ⟨rest, hleft, rfl⟩, hstate⟩ := halike
  rw [hleft] at hsuffix
  let run := w.run (settings.fuel clock) tokens .fresh (Source.stdin.holding bs)
  refine ⟨⟨settings.verdict run.outcome, run.stdout w, run.calls w, rest⟩, hsuffix, ?_⟩
  rintro (_ | _)
  · exact congrArg (Execution.mk _ _ _) hleft
  · change Execution.mk (settings.verdict (w.run _ tokens .fresh _).outcome) _ _ _ = _
    rw [← houtcome, hstdout, hcalls, hstate]
    rfl

namespace Program

variable {p : Program} {w : Wiring} {s : State}

theorem outcome_ne_cancelled (h : ∀ u, w.interrupt u ≠ some .cancelled) (fuel : Nat) :
    (p.runFor w fuel s).outcome ≠ .fault .cancelled := by
  intro hcancelled
  rcases p.reaches_or_ends w fuel s with ⟨hrunning, -⟩ | ⟨t, -, hstop⟩
  · rw [hrunning] at hcancelled
    cases hcancelled
  · rw [hcancelled] at hstop
    obtain ⟨tok, -, hinterrupt | hblames⟩ := fault_of_step hstop
    · exact h t hinterrupt
    · cases hblames

theorem ticks_runFor_mono (p : Program) (w : Wiring) (s : State) {m n : Nat} (h : m ≤ n) :
    (p.runFor w m s).state.ticks ≤ (p.runFor w n s).state.ticks := by
  induction h with
  | refl => exact Nat.le_refl _
  | step _ ih => exact Nat.le_trans ih (progress_le_runFor_succ p w s _).1

theorem attempts_le_of_finished {fuel : Nat} (h : (p.runFor w fuel s).outcome ≠ .running) :
    attempts (p.runFor w · s) ≤ (p.runFor w fuel s).state.ticks := by
  apply iSup_le
  intro n
  rw [Nat.cast_le, ← runFor_add_of_finished h n]
  exact ticks_runFor_mono p w s (Nat.le_add_left n fuel)

end Program

theorem Control.raised_of_cancelled {control : Control} {done : Progress}
    (h : control.interrupt done = some .cancelled) : control.cancel.raised done = true := by
  unfold interrupt at h
  split at h
  · assumption
  split at h
  · split at h <;> cases h
  · cases h

/-- The program came to its end or went wrong by itself. -/
def Verdict.Returned (v : Verdict) : Prop := v = .ok ∨ ∃ f, v = .failed (.fault f)

def Outcome.Answers (outcome : Outcome) : Prop :=
  outcome = .halted ∨ ∃ f, outcome = .fault f ∧ f ≠ .cancelled

namespace Settings

variable {settings : Settings} {clock : Clock} {stdout : Output} {traced : Bool} {p : Program}
  {s : State}

theorem interrupt_ne_cancelled (h : settings.timeoutMs = none) (u : State) :
    (settings.wiring clock stdout traced).interrupt u ≠ some .cancelled := by
  intro hcancelled
  obtain ⟨control, hcontrol, hset⟩ := Option.bind_eq_some_iff.mp hcancelled
  have hraised := Control.raised_of_cancelled hset
  simp only [wiring, Settings.control, deadline, h] at hcontrol
  split at hcontrol
  · cases hcontrol
    simp [CancelPlan.raised, reachedNth] at hraised
  · cases hcontrol

theorem runFor_eq_free (hlimited : settings.isLimited = true) (hs : s.ticks = 0) {free : Wiring}
    (hfree : free = { settings.wiring clock stdout traced with control := none }) {patience : Nat}
    (hreturns : (p.runFor free patience s).outcome ≠ .running)
    (hsteps : ∀ limit, settings.maxSteps = some limit → attempts (p.runFor free · s) ≤ limit)
    (htime : (p.runFor (settings.wiring clock stdout traced) (settings.fuel clock) s).outcome ≠
      .fault .cancelled) :
    p.runFor (settings.wiring clock stdout traced) (settings.fuel clock) s =
      p.runFor free patience s := by
  let control : Control := ⟨settings.maxSteps, { afterTicks := settings.deadline clock }⟩
  have hwiring : settings.wiring clock stdout traced = { free with control := some control } := by
    simp [hfree, wiring, Settings.control, hlimited, control]
  have hnone : free = { free with control := none } := by rw [hfree]
  have hbound : attempts (p.runFor free · s) ≤ control.stepBound := by
    unfold Control.stepBound
    cases hmax : control.maxSteps with
    | none => exact le_top
    | some limit => exact hsteps limit hmax
  obtain ⟨m, hfuel, hinterrupt⟩ := exists_fuel_eq hlimited clock stdout traced
  have hdone := Program.outcome_ne_running (p := p) (s := s) (k := m) hinterrupt
    (Nat.le_add_left m _)
  rw [← hfuel] at hdone
  have htruncates : Truncates control (p.runFor free · s)
      (p.runFor (settings.wiring clock stdout traced) · s) := by
    rw [hwiring, hnone]
    exact Program.truncates_runFor hs
  obtain ⟨c, hc⟩ := htruncates.plans
  by_cases hle : attempts (p.runFor free · s) ≤ min c control.stepBound
  · rw [htruncates.whole c hc hle] at hdone ⊢
    exact Program.runFor_eq_of_finished hdone hreturns
  · have hlt := not_le.mp hle
    obtain ⟨k, u, -, -, -, -, hcut⟩ := htruncates.cut c hc hlt
    have hearly : c ≤ control.stepBound := by
      by_contra hlate
      rw [min_eq_right (le_of_not_ge hlate)] at hlt
      exact absurd hbound (not_le_of_gt hlt)
    have hend := hcut (settings.fuel clock + (k + 1)) (by omega)
    rw [Program.runFor_add_of_finished hdone, if_pos hearly] at hend
    rw [hend] at htime
    exact absurd rfl htime

theorem verdict_of_answers {outcome : Outcome} (h : outcome.Answers) (a b : Settings) :
    a.verdict outcome = b.verdict outcome := by
  rcases h with rfl | ⟨f, rfl, hf⟩
  · rfl
  · cases f with
    | cancelled => exact absurd rfl hf
    | _ => rfl

theorem returned_of_answers {outcome : Outcome} (h : outcome.Answers) (settings : Settings) :
    (settings.verdict outcome).Returned := by
  rcases h with rfl | ⟨f, rfl, hf⟩
  · exact .inl rfl
  · cases f with
    | cancelled => exact absurd rfl hf
    | _ => exact .inr ⟨_, rfl⟩

end Settings

namespace Job

variable {job : Job} {clock : Clock} {bs : Bytes}

def executeOn (job : Job) (clock : Clock) (input : Input) : Execution :=
  job.settings.execute clock job.stdout job.traced job.tokens input

def unlimited (job : Job) : Job := { job with settings := { output := job.settings.output } }

def freeWiring (job : Job) : Wiring where
  mode := job.settings.output
  stdout := job.stdout
  traced := job.traced

def freeRun (job : Job) (bs : Bytes) (fuel : Nat) : Run :=
  job.freeWiring.run fuel job.tokens .fresh (Source.stdin.holding bs)

/-- A job whose limits stay out of its way: the run without them comes back, within
the steps that they allow, and the time is not up before that. -/
structure Unhindered (job : Job) (clock : Clock) (bs : Bytes) : Prop where
  writable : job.stdout = .accepting
  returns : (job.unlimited.executeOn clock (Source.stdin.holding bs)).verdict ≠ .unanswered
  steps : ∀ limit, job.settings.maxSteps = some limit → attempts (job.freeRun bs) ≤ limit
  time : ∀ ms, (job.executeOn clock (Source.stdin.holding bs)).verdict ≠ .failed (.timeout ms)

theorem attempts_freeRun_le (hout : job.stdout = .accepting) (fuel : Nat)
    (h : (job.freeRun bs fuel).outcome ≠ .running) :
    attempts (job.freeRun bs) ≤ (job.freeRun bs fuel).state.ticks := by
  unfold freeRun at h ⊢
  cases hp : Program.ofTokens job.tokens with
  | error bracket =>
    apply iSup_le
    intro n
    simp only [Wiring.run, hp, le_refl]
  | ok p =>
    simp only [Wiring.run_of_accepting (w := job.freeWiring) hout hp] at h ⊢
    exact Program.attempts_le_of_finished h

theorem settings_unlimited (h : job.settings.isLimited = false) :
    job.unlimited.settings = job.settings := by
  obtain ⟨⟨output, timeoutMs, maxSteps⟩, stdout, traced, tokens⟩ := job
  simp only [Settings.isLimited, Bool.or_eq_false_iff, Option.isSome_eq_false_iff,
    Option.isNone_iff_eq_none] at h
  obtain ⟨rfl, rfl⟩ := h
  rfl

theorem executeOn_unlimited (job : Job) (clock : Clock) (bs : Bytes) :
    job.unlimited.executeOn clock (Source.stdin.holding bs) =
      ⟨job.unlimited.settings.verdict (job.freeRun bs clock.patience).outcome,
        (job.freeRun bs clock.patience).stdout job.freeWiring,
        (job.freeRun bs clock.patience).calls job.freeWiring,
        (job.freeRun bs clock.patience).state.input⟩ := rfl

theorem Unhindered.answers (h : job.Unhindered clock bs) :
    (job.freeRun bs clock.patience).outcome.Answers := by
  have hreturns := h.returns
  rw [executeOn_unlimited] at hreturns
  unfold freeRun at hreturns ⊢
  cases hp : Program.ofTokens job.tokens with
  | error bracket =>
    simp only [Wiring.run, hp]
    exact .inr ⟨_, rfl, by simp⟩
  | ok p =>
    rw [Wiring.run_of_accepting h.writable hp] at hreturns ⊢
    rcases Program.outcome_runFor_of_closed (p := p) (w := job.freeWiring)
      (s := State.initial job.freeWiring .fresh (Source.stdin.holding bs))
      (fun u => Wiring.rowRefusal_of_accepting u h.writable) rfl clock.patience with
      hrunning | hhalted | ⟨f, hfault⟩
    · rw [hrunning] at hreturns
      exact absurd rfl hreturns
    · exact .inl hhalted
    · refine .inr ⟨f, hfault, ?_⟩
      rintro rfl
      exact Program.outcome_ne_cancelled
        (w := job.unlimited.settings.wiring clock job.stdout job.traced)
        (Settings.interrupt_ne_cancelled rfl) _ hfault

theorem Unhindered.outcome_ne_cancelled (h : job.Unhindered clock bs) :
    ((job.settings.wiring clock job.stdout job.traced).run (job.settings.fuel clock) job.tokens
      .fresh (Source.stdin.holding bs)).outcome ≠ .fault .cancelled := by
  intro hcancelled
  cases hp : Program.ofTokens job.tokens with
  | error bracket => simp [Wiring.run, hp] at hcancelled
  | ok p =>
    cases htimeout : job.settings.timeoutMs with
    | none =>
      rw [Wiring.run_of_accepting h.writable hp] at hcancelled
      exact Program.outcome_ne_cancelled (Settings.interrupt_ne_cancelled htimeout) _ hcancelled
    | some ms =>
      apply h.time ms
      simp [executeOn, Settings.execute, hcancelled, Settings.verdict, htimeout]

theorem Unhindered.run_eq_freeRun (h : job.Unhindered clock bs) :
    (job.settings.wiring clock job.stdout job.traced).run (job.settings.fuel clock) job.tokens
      .fresh (Source.stdin.holding bs) = job.freeRun bs clock.patience := by
  cases hlimited : job.settings.isLimited with
  | false =>
    rw [← settings_unlimited hlimited]
    rfl
  | true =>
    have htime := h.outcome_ne_cancelled
    have hreturns : (job.freeRun bs clock.patience).outcome ≠ .running := by
      intro hrunning
      rcases h.answers with hhalted | ⟨f, hfault, -⟩
      · cases hrunning.symm.trans hhalted
      · cases hrunning.symm.trans hfault
    have hsteps := h.steps
    unfold freeRun at hreturns hsteps ⊢
    cases hp : Program.ofTokens job.tokens with
    | error bracket => simp only [Wiring.run, hp]
    | ok p =>
      simp only [Wiring.run_of_accepting (w := job.freeWiring) h.writable hp] at hreturns hsteps ⊢
      rw [Wiring.run_of_accepting h.writable hp] at htime ⊢
      exact Settings.runFor_eq_free hlimited rfl rfl hreturns hsteps htime

theorem Unhindered.executeOn_eq (h : job.Unhindered clock bs) :
    job.executeOn clock (Source.stdin.holding bs) =
      job.unlimited.executeOn clock (Source.stdin.holding bs) := by
  rw [executeOn_unlimited, ← Settings.verdict_of_answers h.answers job.settings,
    ← h.run_eq_freeRun]
  rfl

def Variant (job chosen : Job) : Prop := chosen = job ∨ chosen = job.unlimited

theorem Unhindered.exists_observation (h : job.Unhindered clock bs) :
    ∃ o : Observation, o.rest <:+ bs ∧ o.verdict.Returned ∧
      ∀ (source : Source) (chosen : Job), job.Variant chosen →
        chosen.executeOn clock (source.holding bs) = o.on source := by
  obtain ⟨o, hrest, hfree⟩ := job.unlimited.settings.exists_observation clock job.stdout
    job.traced job.tokens bs
  obtain ⟨o', -, hlimited⟩ := job.settings.exists_observation clock job.stdout job.traced
    job.tokens bs
  have hsame : o' = o :=
    Observation.eq_of_on (((hlimited .stdin).symm.trans h.executeOn_eq).trans (hfree .stdin))
  refine ⟨o, hrest, ?_, ?_⟩
  · have hverdict : _ = o.verdict := congrArg Execution.verdict (hfree .stdin)
    rw [← hverdict]
    exact Settings.returned_of_answers h.answers job.unlimited.settings
  · rintro source chosen (rfl | rfl)
    · exact hsame ▸ hlimited source
    · exact hfree source

/-- Jobs done one after the other, each on what those before it left. -/
def executeAll (clock : Clock) : List Job → Input → List Execution
  | [], _ => []
  | job :: later, input =>
    let done := job.executeOn clock input
    done :: executeAll clock later done.input

def UnhinderedAll (clock : Clock) : List Job → Bytes → Prop
  | [], _ => True
  | job :: later, bs =>
    job.Unhindered clock bs ∧ UnhinderedAll clock later
      (job.unlimited.executeOn clock (Source.stdin.holding bs)).input.toQueue.bytes

/-- Standard input or a closed queue, limits or none, for every job of a list as one
likes: where no limit is hit, every job comes back with the same result and the
same output, and takes the same bytes. -/
theorem executions_agree (clock : Clock) (jobs : List Job) (bs : Bytes)
    (h : UnhinderedAll clock jobs bs) :
    ∃ seen : List Observation,
      (∀ o ∈ seen, o.rest <:+ bs ∧ o.verdict.Returned) ∧
      ∀ (source : Source) (chosen : List Job), List.Forall₂ Variant jobs chosen →
        executeAll clock chosen (source.holding bs) = seen.map (·.on source) := by
  induction jobs generalizing bs with
  | nil =>
    refine ⟨[], by simp, ?_⟩
    intro source chosen hchosen
    cases hchosen
    rfl
  | cons job later ih =>
    obtain ⟨hjob, hlater⟩ := h
    obtain ⟨o, hrest, hverdict, hsame⟩ := hjob.exists_observation
    rw [hsame .stdin _ (.inr rfl)] at hlater
    obtain ⟨seen, hseen, hall⟩ := ih o.rest hlater
    refine ⟨o :: seen, ?_, ?_⟩
    · rintro o' (_ | ⟨_, hmem⟩)
      · exact ⟨hrest, hverdict⟩
      · exact ⟨(hseen o' hmem).1.trans hrest, (hseen o' hmem).2⟩
    · intro source chosen hchosen
      cases hchosen with
      | cons hfirst hothers =>
        simp only [executeAll, List.map_cons, hsame source _ hfirst]
        rw [← hall source _ hothers]
        rfl

/-- The first job has just the steps it needs, and the second just the start its clock allows. -/
theorem executions_agree_at_the_limit :
    let clock : Clock := ⟨3, 2, 4⟩
    let first : Job := ⟨{ maxSteps := some 2 }, .accepting, false, tokenize ",."⟩
    let second : Job := ⟨{ output := .raw, timeoutMs := some 0 }, .accepting, false, tokenize ",+."⟩
    UnhinderedAll clock [first, second] [65, 66, 67] ∧
    ∀ chosen, List.Forall₂ Variant [first, second] chosen →
      executeAll clock chosen (Source.queue.holding [65, 66, 67]) =
        [⟨.ok, [65, 10], 1, .queue ⟨[66, 67], true⟩⟩, ⟨.ok, [67], 1, .queue ⟨[67], true⟩⟩] := by
  intro clock first second
  have hfirst : first.Unhindered clock [65, 66, 67] := by
    refine ⟨rfl, by decide +kernel, ?_, ?_⟩
    · intro limit hlimit
      cases hlimit
      exact attempts_freeRun_le rfl 3 (by decide +kernel)
    · intro ms
      rw [show (first.executeOn clock _).verdict = .ok by decide +kernel]
      exact nofun
  have hsecond : second.Unhindered clock [66, 67] := by
    refine ⟨rfl, by decide +kernel, nofun, ?_⟩
    intro ms
    rw [show (second.executeOn clock _).verdict = .ok by decide +kernel]
    exact nofun
  have hall : UnhinderedAll clock [first, second] [65, 66, 67] := ⟨hfirst, hsecond, trivial⟩
  refine ⟨hall, ?_⟩
  intro chosen hchosen
  obtain ⟨seen, -, hsame⟩ := executions_agree clock [first, second] [65, 66, 67] hall
  have hlimited : List.Forall₂ Variant [first, second] [first, second] :=
    .cons (.inl rfl) (.cons (.inl rfl) .nil)
  rw [hsame .queue chosen hchosen, ← hsame .queue _ hlimited]
  decide +kernel

end Job
end TapeLang
