import TapeLang.Proofs.Supervision

/-! An execution under limits is one of the supervised runs it stands for: while
the pump is silent, worker and caller can take turns so that the caller comes
back with the verdict of the execution and leaves the input it leaves. -/
namespace TapeLang
namespace Job

variable {job : Job} {x y z : Supervision} {e : Event}

theorem Step.input_of_raised (h : job.Step x e y) (hx : job.Sound x) (hflag : x.flag = true)
    (hnone : x.worker.allowance = 0) (hparty : e.party ≠ .pump) :
    y.machine.input = x.machine.input := by
  have htaken : e.taken = [] := by
    have hbound := (h.windsDown hflag).taken
    simp only [List.flatMap_singleton, hnone] at hbound
    exact List.eq_nil_of_length_eq_zero (by omega)
  cases h with
  | push bytes => exact absurd rfl hparty
  | close => exact absurd rfl hparty
  | work hwork =>
    obtain ⟨q, hq, hbytes, hclosed⟩ := hwork.queue_eq hx.queue hx.asks
    rw [htaken, List.nil_append] at hbytes
    have hsame : q = x.queue := by
      cases q
      cases hqueue : x.queue
      simp_all
    exact hq.trans (hsame ▸ hx.queue.symm)
  | call hcall => rfl

/-- Some turns of worker and caller lead from here to there. -/
def Unfed (job : Job) (x y : Supervision) : Prop :=
  ∃ events, job.Path x events y ∧ ∀ e ∈ events, e.party ≠ .pump

namespace Unfed

theorem refl (x : Supervision) : job.Unfed x x := ⟨[], .nil x, by simp⟩

theorem step (h : job.Step x e y) (hparty : e.party ≠ .pump) (hrest : job.Unfed y z) :
    job.Unfed x z := by
  obtain ⟨events, hpath, hquiet⟩ := hrest
  exact ⟨e :: events, .cons h hpath, List.forall_mem_cons.mpr ⟨hparty, hquiet⟩⟩

theorem work {s : State} {w : Worker} (h : job.Work x.flag x.machine x.worker e s w)
    (hrest : job.Unfed { x with machine := s, worker := w } z) : job.Unfed x z :=
  step (.work h) h.party_ne hrest

theorem call {flag : Bool} {c : Caller} (h : job.Call x.worker x.flag x.caller flag c)
    (hrest : job.Unfed { x with flag := flag, caller := c } z) : job.Unfed x z :=
  step (.call h) nofun hrest

theorem sound (h : job.Unfed x y) (hx : job.Sound x) : job.Sound y := by
  obtain ⟨events, hpath, -⟩ := h
  exact hpath.sound hx

theorem trans (h : job.Unfed x y) (hrest : job.Unfed y z) : job.Unfed x z := by
  obtain ⟨events, hpath, hquiet⟩ := h
  induction hpath with
  | nil x => exact hrest
  | cons hstep _ ih =>
    rw [List.forall_mem_cons] at hquiet
    exact step hstep hquiet.1 (ih hrest hquiet.2)

end Unfed

theorem Sound.exists_expired (hx : job.Sound x) (hflag : x.flag = true)
    (hnone : x.worker.allowance = 0) :
    ∃ y, job.Unfed x y ∧ y.caller = .expired ∧ y.machine.input = x.machine.input := by
  induction hrank : x.rank using Nat.strongRecOn generalizing x with
  | ind n ih =>
    by_cases hback : x.caller = .expired
    · exact ⟨x, .refl x, hback, rfl⟩
    obtain ⟨e, y, hstep, hparty⟩ := hx.exists_step hflag hback
    have hdown := hstep.windsDown hflag
    have hless : y.rank < n := by
      have hsteps := hdown.steps
      rw [Event.countP_singleton hparty] at hsteps
      omega
    have hallowance : y.worker.allowance = 0 := by
      have htaken := hdown.taken
      omega
    obtain ⟨z, hz, hexpired, hinput⟩ := ih _ hless (hstep.sound hx) hdown.flag hallowance rfl
    exact ⟨z, .step hstep hparty hz, hexpired,
      hinput.trans (hstep.input_of_raised hx hflag hnone hparty)⟩

/-- The caller can come back with this verdict and leave this input. -/
def Replies (job : Job) (x : Supervision) (v : Verdict) (input : Input) : Prop :=
  ∃ y, job.Unfed x y ∧ job.reply y.caller = some v ∧ y.machine.input = input

theorem Replies.of_unfed {v : Verdict} {input : Input} (hy : job.Replies y v input)
    (h : job.Unfed x y) : job.Replies x v input := by
  obtain ⟨z, hz, hreply, hinput⟩ := hy
  exact ⟨z, h.trans hz, hreply, hinput⟩

theorem replies_of_stopped {outcome : Outcome} {s : State}
    (hlimited : job.settings.isLimited = true)
    (hanswered : job.settings.verdict outcome ≠ .unanswered) (hwaiting : outcome ≠ .waiting)
    (hcancelled : outcome ≠ .fault .cancelled) :
    job.Replies { machine := s, worker := .stopped outcome } (job.settings.verdict outcome)
      s.input := by
  refine ⟨_, .work .answer (.call (.receive rfl) (.refl _)), ?_, rfl⟩
  cases outcome with
  | halted => rfl
  | fault f =>
    cases f with
    | cancelled => exact absurd rfl hcancelled
    | unmatched | io | stepLimit => rfl
  | crashed reason => simp [reply, Settings.verdict, hlimited]
  | waiting => exact absurd rfl hwaiting
  | running => exact absurd rfl hanswered

theorem replies_of_timeout {s : State} {w : Worker} {ms : Nat}
    (hx : job.Sound { machine := s, worker := w }) (htimed : job.settings.timeoutMs = some ms)
    (hnone : w.allowance = 0) :
    job.Replies { machine := s, worker := w } (.failed (.timeout ms)) s.input := by
  have hcancel : job.Unfed { machine := s, worker := w }
      { machine := s, worker := w, flag := true, caller := .cancelled } :=
    .call (.timeout (by simp [htimed])) (.call .cancel (.refl _))
  obtain ⟨y, hy, hexpired, hinput⟩ := (hcancel.sound hx).exists_expired rfl hnone
  exact ⟨y, hcancel.trans hy, by simp [hexpired, reply, htimed], hinput⟩

theorem interrupt_ne_cancelled (job : Job) (s : State) :
    (job.wiring false).interrupt s ≠ some .cancelled := by
  have hdown : ¬ CancelPlan.raised {} s.progress = true := nofun
  change Control.interrupt { maxSteps := job.settings.maxSteps } s.progress ≠ some .cancelled
  unfold Control.interrupt
  rw [if_neg hdown]
  split
  · split <;> nofun
  · nofun

def between (p : Program) (s : State) : Supervision := { machine := s, worker := .running p .idle }

theorem sound_between {p : Program} {s : State} {q : ByteQueue} (hq : s.input = .queue q) :
    job.Sound (between p s) where
  queue := by simp only [between, Supervision.queue, hq]; rfl
  asks := fun _ ht => by cases ht
  raised := rfl
  joined := fun h => by cases h

def clocked (job : Job) (clock : Clock) : Wiring :=
  job.settings.wiring clock job.stdout job.traced

def execute (job : Job) (clock : Clock) (q : ByteQueue) : Execution :=
  job.settings.execute clock job.stdout job.traced job.tokens (.queue q)

theorem verdict_execute (job : Job) (clock : Clock) (q : ByteQueue) :
    (job.execute clock q).verdict = job.settings.verdict
      ((job.clocked clock).run (job.settings.fuel clock) job.tokens .fresh (.queue q)).outcome :=
  rfl

theorem input_execute (job : Job) (clock : Clock) (q : ByteQueue) :
    (job.execute clock q).input =
      ((job.clocked clock).run (job.settings.fuel clock) job.tokens .fresh
        (.queue q)).state.input :=
  rfl

theorem begin_eq_run (job : Job) (clock : Clock) (fuel : Nat) (q : ByteQueue) :
    (∃ outcome s, job.begin = .stopped outcome ∧ outcome ≠ .waiting ∧
      outcome ≠ .fault .cancelled ∧
      (job.clocked clock).run fuel job.tokens .fresh (.queue q) = ⟨outcome, s⟩ ∧ s.input = .queue q) ∨
    ∃ p, job.begin = .running p .idle ∧
      (job.clocked clock).run fuel job.tokens .fresh (.queue q) =
        p.runFor (job.clocked clock) fuel (job.launch q).machine := by
  have hheading : (clocked job clock).headingRefusal = (job.wiring false).headingRefusal := rfl
  unfold Job.begin Wiring.run
  rw [hheading]
  cases Program.ofTokens job.tokens with
  | error bracket => exact .inl ⟨_, _, rfl, nofun, nofun, rfl, rfl⟩
  | ok p =>
    cases (job.wiring false).headingRefusal with
    | none => exact .inr ⟨p, rfl, rfl⟩
    | some refused => exact .inl ⟨_, _, rfl, nofun, nofun, rfl, rfl⟩

section

variable (hlimited : job.settings.isLimited = true) {clock : Clock} {p : Program} {s after : State}
  {outcome : Outcome}

include hlimited

theorem interrupt_cases (clock : Clock) (s : State) :
    (job.clocked clock).interrupt s = (job.wiring false).interrupt s ∨
      ((job.clocked clock).interrupt s = some .cancelled ∧
        ∃ ms, job.settings.timeoutMs = some ms) := by
  unfold clocked
  cases htimed : job.settings.timeoutMs with
  | none =>
    left
    simp [Wiring.interrupt, Settings.wiring, Settings.control, hlimited, wiring, Settings.deadline,
      htimed]
  | some ms =>
    by_cases hpast : clock.headStart + ms * clock.ticksPerMs ≤ s.ticks
    · right
      simp [Wiring.interrupt, Settings.wiring, Settings.control, hlimited, Settings.deadline,
        htimed, Control.interrupt, CancelPlan.raised, State.progress, hpast]
    · left
      simp [Wiring.interrupt, Settings.wiring, Settings.control, hlimited, wiring,
        Settings.deadline, htimed, Control.interrupt, CancelPlan.raised, State.progress, hpast,
        reachedNth]

theorem unfed_of_next (h : p.step (job.clocked clock) s = .next after) :
    job.Unfed (between p s) (between p after) := by
  have hclear := (Program.tick_of_next h).1
  cases htoken : p.tokens[s.ip]? with
  | none => simp [Program.step, htoken] at h
  | some t =>
    simp only [Program.step, htoken, hclear] at h
    rcases interrupt_cases hlimited clock s with hdown | ⟨hset, -⟩
    · rw [hclear] at hdown
      cases hasks : (job.wiring false).asks t with
      | true =>
        exact .work (.start htoken hdown.symm) <| .work (.lock hasks) <| .work (.check rfl) <|
          .work (.take (Wiring.printRow_eq_next h).1) (.refl _)
      | false => exact .work (.start htoken hdown.symm) <| .work (.perform hasks h) (.refl _)
    · rw [hclear] at hset
      cases hset

theorem replies_of_exec {t : Token} {q : ByteQueue} (hq : s.input = .queue q)
    (htoken : p.tokens[s.ip]? = some t) (hclear : (job.wiring false).interrupt s = none)
    (h : (job.wiring false).printRow s
      (p.exec (job.wiring false) t { s with ticks := s.ticks + 1 }) = .stop outcome after)
    (hanswered : job.settings.verdict outcome ≠ .unanswered) :
    job.Replies (between p s) (job.settings.verdict outcome) after.input := by
  cases hasks : (job.wiring false).asks t with
  | false =>
    have hstopped : job.Unfed (between p s) { machine := after, worker := .stopped outcome } :=
      .work (.start htoken hclear) <| .work (.fail hasks h) (.refl _)
    rcases Wiring.printRow_eq_stop h with hexec | ⟨reason, -, -, -, rfl, -⟩
    · rcases Program.outcome_of_exec hexec with ⟨f, rfl, hf⟩ | ⟨-, hset, -⟩
      · exact (replies_of_stopped hlimited hanswered nofun (by simpa using hf)).of_unfed hstopped
      · rw [hasks] at hset
        cases hset
    · exact (replies_of_stopped hlimited hanswered nofun nofun).of_unfed hstopped
  | true =>
    obtain ⟨huntraced, hexec⟩ := Program.exec_of_asks (p := p)
      (s := { s with ticks := s.ticks + 1 }) hasks
    rw [Wiring.printRow_of_untraced s _ huntraced] at h
    rcases Wiring.readByte_of_queue huntraced (s := { s with ticks := s.ticks + 1 }) (t := t)
      hq with ⟨next, hread⟩ | hread
    · rw [hexec, hread] at h
      cases h
    · have hwaits := hexec.trans hread
      have hasleep : job.Unfed (between p s)
          { machine := { s with ticks := s.ticks + 1 }, worker := .running p (.asleep t) } :=
        .work (.start htoken hclear) <| .work (.lock hasks) <| .work (.check rfl) <|
          .work (.sleep hwaits) (.refl _)
      rw [hwaits] at h
      cases h
      cases htimed : job.settings.timeoutMs with
      | none => simp [Settings.verdict, htimed] at hanswered
      | some ms =>
        have hverdict : job.settings.verdict .waiting = .failed (.timeout ms) := by
          simp [Settings.verdict, htimed]
        rw [hverdict]
        exact (replies_of_timeout (hasleep.sound (sound_between hq)) htimed rfl).of_unfed hasleep

theorem replies_of_stop {q : ByteQueue} (hq : s.input = .queue q)
    (h : p.step (job.clocked clock) s = .stop outcome after)
    (hanswered : job.settings.verdict outcome ≠ .unanswered) :
    job.Replies (between p s) (job.settings.verdict outcome) after.input := by
  cases htoken : p.tokens[s.ip]? with
  | none =>
    simp only [Program.step, htoken] at h
    cases h
    exact (replies_of_stopped hlimited hanswered (by simp) (by simp)).of_unfed
      (.work (.finish htoken) (.refl _))
  | some t =>
    rcases interrupt_cases hlimited clock s with hdown | ⟨hset, ms, htimed⟩
    · cases hclear : (job.wiring false).interrupt s with
      | some f =>
        simp only [Program.step, htoken, hdown, hclear] at h
        cases h
        refine (replies_of_stopped hlimited hanswered (by simp) ?_).of_unfed
          (.work (.refuse htoken hclear) (.refl _))
        intro hfault
        cases hfault
        exact job.interrupt_ne_cancelled s hclear
      | none =>
        simp only [Program.step, htoken, hdown, hclear] at h
        exact replies_of_exec hlimited hq htoken hclear h hanswered
    · simp only [Program.step, htoken, hset] at h
      cases h
      have hverdict : job.settings.verdict (.fault .cancelled) = .failed (.timeout ms) := by
        simp [Settings.verdict, htimed]
      rw [hverdict]
      exact replies_of_timeout (sound_between hq) htimed rfl

theorem replies_of_runFor {fuel : Nat} {q : ByteQueue} (hq : s.input = .queue q)
    (hanswered :
      job.settings.verdict (p.runFor (job.clocked clock) fuel s).outcome ≠ .unanswered) :
    job.Replies (between p s) (job.settings.verdict (p.runFor (job.clocked clock) fuel s).outcome)
      (p.runFor (job.clocked clock) fuel s).state.input := by
  induction fuel generalizing s q with
  | zero => exact absurd rfl hanswered
  | succ fuel ih =>
    cases hs : p.step (job.clocked clock) s with
    | next after =>
      rw [Program.runFor_succ_of_next hs] at hanswered ⊢
      have hunfed := unfed_of_next hlimited hs
      exact (ih (hunfed.sound (sound_between hq)).queue hanswered).of_unfed hunfed
    | stop outcome after =>
      rw [Program.runFor_succ_of_stop hs] at hanswered ⊢
      exact replies_of_stop hlimited hq hs hanswered

/-- An execution that comes back does what some turns of worker and caller do. -/
theorem replies_of_execute (clock : Clock) (q : ByteQueue)
    (hanswered : (job.execute clock q).verdict ≠ .unanswered) :
    job.Replies (job.launch q) (job.execute clock q).verdict (job.execute clock q).input := by
  have hbegin : job.Unfed (job.launch q) { job.launch q with worker := job.begin } :=
    .work (.begin _) (.refl _)
  refine Replies.of_unfed ?_ hbegin
  rw [verdict_execute] at hanswered ⊢
  rw [input_execute]
  rcases job.begin_eq_run clock (job.settings.fuel clock) q with
    ⟨outcome, s, hstopped, hwaiting, hcancelled, hrun, hinput⟩ | ⟨p, hrunning, hrun⟩
  · rw [hrun] at hanswered ⊢
    rw [hstopped, hinput]
    exact replies_of_stopped hlimited hanswered hwaiting hcancelled
  · rw [hrun] at hanswered ⊢
    rw [hrunning]
    exact replies_of_runFor hlimited rfl hanswered

end

/-- However pump, worker and caller take turns, no byte is lost or taken twice. Once
the flag is up the worker begins no instruction and takes at most one byte more,
one it had looked for before. Once the caller is back with a timeout, which
nothing can keep it from, the worker does nothing and only the pump changes the
queue. An execution under limits is one way to take turns. -/
theorem timed_out_run_spares_input (job : Job) (q : ByteQueue) :
    (∀ events x, job.Path (job.launch q) events x → job.Spares q events x) ∧
    ∀ clock, job.settings.isLimited = true → (job.execute clock q).verdict ≠ .unanswered →
      job.Replies (job.launch q) (job.execute clock q).verdict (job.execute clock q).input := by
  constructor
  · intro events x h
    have hx := h.sound (job.sound_launch q)
    refine ⟨h.conserves (job.sound_launch q), ?_, ?_, ?_⟩
    · intro hflag later y hlater
      exact hlater.windsDown hflag
    · intro ms hreply later y hlater
      exact hlater.leftAlone hx (eq_expired_of_reply hreply)
    · intro hflag
      by_cases hback : x.caller = .expired
      · exact .inl ⟨_, congrArg job.reply hback⟩
      · exact .inr (hx.exists_step hflag hback)
  · intro clock hlimited hanswered
    exact replies_of_execute hlimited clock q hanswered

theorem timed_out_run_spares_input_late_byte :
    let job : Job := ⟨{ timeoutMs := some 50 }, .accepting, false, [⟨.input, 0⟩]⟩
    let events : List Event :=
      [.work, .start, .work, .work, .call, .call, .take [65], .call, .work, .work, .work, .call]
    (∃ x, job.Path (job.launch ⟨[65, 10], false⟩) events x ∧
      job.reply x.caller = some (.failed (.timeout 50)) ∧ x.queue = ⟨[10], false⟩ ∧
      job.Spares ⟨[65, 10], false⟩ events x) ∧
    job.Replies (job.launch ⟨[65, 10], false⟩) (.failed (.timeout 50))
      (.queue ⟨[65, 10], false⟩) := by
  intro job events
  obtain ⟨hspares, hreplies⟩ := timed_out_run_spares_input job ⟨[65, 10], false⟩
  have hpath : ∃ x, job.Path (job.launch ⟨[65, 10], false⟩) events x ∧
      job.reply x.caller = some (.failed (.timeout 50)) ∧ x.queue = ⟨[10], false⟩ := by
    refine ⟨_, .cons (.work (.begin _)) <| .cons (.work (.start rfl rfl)) <|
      .cons (.work (.lock rfl)) <| .cons (.work (.check rfl)) <| .cons (.call (.timeout rfl)) <|
      .cons (.call .cancel) <| .cons (.work (.take rfl)) <| .cons (.call (.notify rfl)) <|
      .cons (.work (.finish rfl)) <| .cons (.work .answer) <| .cons (.work .exit) <|
      .cons (.call (.join rfl)) (.nil _), rfl, rfl⟩
  obtain ⟨x, hx, hreply, hqueue⟩ := hpath
  exact ⟨⟨x, hx, hreply, hqueue, hspares _ _ hx⟩, hreplies ⟨0, 0, 0⟩ rfl nofun⟩

end Job
end TapeLang
