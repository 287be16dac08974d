import TapeLang.Proofs.RunCommand

/-! Output that is refused. A character that cannot be written is reported as a fault of its
instruction. Two other writes are not looked after: the newline behind raw output and the lines
of a table. The command goes down with the first, and with the second if it prints the table
itself; a worker that prints the table is lost. -/
namespace TapeLang

variable {p : Program} {w : Wiring} {s : State} {tokens : List Token} {tape : Tape}
  {input : Input} {reason : String} {tok : Token}

namespace Output

def filling (room : Nat) (reason : String) : Output :=
  ⟨fun k => if k < room then none else some reason⟩

variable {out : Output} {calls k : Nat}

theorem firstRefusal_succ (out : Output) (calls : Nat) :
    out.firstRefusal (calls + 1) =
      (out.firstRefusal calls).or ((out.refusal calls).map (calls, ·)) := by
  unfold firstRefusal
  rw [List.range_succ, List.findSome?_append, List.findSome?_singleton]

theorem firstRefusal_of_le {first : Nat × String} (h : out.firstRefusal k = some first)
    (hle : k ≤ calls) : out.firstRefusal calls = some first := by
  induction hle with
  | refl => exact h
  | step _ ih => rw [firstRefusal_succ, ih, Option.some_or]

theorem firstRefusal_failing (h : 0 < calls) :
    (failing reason).firstRefusal calls = some (0, reason) :=
  firstRefusal_of_le (k := 1) rfl h

theorem reason_of_firstRefusal_failing {cause : String}
    (h : (failing reason).firstRefusal calls = some (k, cause)) : cause = reason ∧ 0 < calls := by
  cases calls with
  | zero => cases h
  | succ calls =>
    rw [firstRefusal_failing (Nat.succ_pos calls)] at h
    cases h
    exact ⟨rfl, Nat.succ_pos calls⟩

end Output

/-- The same wiring with an output that takes everything. -/
def Wiring.withRoom (w : Wiring) : Wiring := { w with stdout := .accepting }

theorem State.Adds.size_trace {rows : List TraceRow} {after : State} (h : s.Adds rows after) :
    after.trace.size = s.trace.size + rows.length := by
  have hlength := congrArg List.length h.trace_eq
  simpa using hlength

namespace Program

theorem exec_withRoom (hw : w.traced = true) :
    p.exec w.withRoom tok s = p.exec w tok s := by
  obtain ⟨op, pos⟩ := tok
  cases op with
  | output => simp [exec, Wiring.print, Wiring.withRoom, State.log, hw]
  | _ => rfl

theorem size_trace_le_runFor (hp : ofTokens tokens = .ok p) (hw : w.traced = true)
    (hout : w.stdout = .accepting) (fuel : Nat) :
    s.trace.size ≤ (p.runFor w fuel s).state.trace.size := by
  obtain ⟨rows, hlogs⟩ := exists_logs hp hw hout fuel s
  have hadds := hlogs.adds (Nat.le_refl _)
  rw [← hlogs.ends] at hadds
  exact hadds.size_trace ▸ Nat.le_add_right _ _

theorem outcome_runFor_ne_crashed (hw : w.traced = false) (fuel : Nat) :
    (p.runFor w fuel s).outcome ≠ .crashed reason := by
  intro hcrashed
  rcases p.reaches_or_ends w fuel s with ⟨hrunning, -⟩ | ⟨t, -, hstop⟩
  · cases hrunning.symm.trans hcrashed
  · rw [hcrashed] at hstop
    rcases outcome_of_step hstop with
      hhalted | ⟨f, hfault⟩ | ⟨hwaiting, -⟩ | ⟨cause, -, hrefused⟩
    · cases hhalted
    · cases hfault
    · cases hwaiting
    · cases (Wiring.rowRefusal_of_untraced t hw).symm.trans hrefused

/-- An instruction of a traced run, with room for its row and without. -/
theorem step_beside_room (hp : ofTokens tokens = .ok p) (hw : w.traced = true)
    (hexec : p.executes w s = some tok) :
    ∃ after : State, after.trace.size = s.trace.size + 1 ∧ p.step w.withRoom s = .next after ∧
      p.step w s = w.printRow s (.next after) := by
  obtain ⟨r, after, hnext, hadds, -⟩ := exec_of_traced hp hw hexec
  refine ⟨after, hadds.size_trace, ?_, ?_⟩
  · rw [step_of_executes (w := w.withRoom) hexec, exec_withRoom hw, hnext,
      Wiring.printRow_of_printed _ (Wiring.rowRefusal_of_accepting s rfl)]
  · rw [step_of_executes hexec, hnext]

theorem outcome_runFor_crashed_iff (hp : ofTokens tokens = .ok p) (hw : w.traced = true)
    (hs : w.stdout.firstRefusal s.trace.size = none) (fuel : Nat) :
    (p.runFor w fuel s).outcome = .crashed reason ↔ ∃ k,
      w.stdout.firstRefusal (p.runFor w.withRoom fuel s).state.trace.size = some (k, reason) := by
  induction fuel generalizing s with
  | zero => simp [runFor, hs]
  | succ fuel ih =>
    cases hexec : p.executes w s with
    | none =>
      obtain ⟨outcome, hstop, hends⟩ := step_of_idle hexec
      obtain ⟨outcome', hstop', -⟩ := step_of_idle (w := w.withRoom) hexec
      rw [runFor_succ_of_stop hstop, runFor_succ_of_stop hstop']
      simp [hs, hends reason]
    | some tok =>
      obtain ⟨after, hsize, hroom, hstep⟩ := step_beside_room hp hw hexec
      have hfirst := w.stdout.firstRefusal_succ s.trace.size
      rw [hs, Option.none_or, ← hsize] at hfirst
      rw [runFor_succ_of_next hroom]
      cases hrefused : w.stdout.refusal s.trace.size with
      | none =>
        have hrow : w.rowRefusal s = none := by simp [Wiring.rowRefusal, hw, hrefused]
        rw [Wiring.printRow_of_printed _ hrow] at hstep
        rw [hrefused] at hfirst
        rw [runFor_succ_of_next hstep]
        exact ih hfirst
      | some cause =>
        have hrow : w.rowRefusal s = some cause := by simp [Wiring.rowRefusal, hw, hrefused]
        simp only [Wiring.printRow, hrow] at hstep
        have hgrows := size_trace_le_runFor (w := w.withRoom) (s := after) hp hw rfl fuel
        rw [hrefused] at hfirst
        rw [runFor_succ_of_stop hstep, Output.firstRefusal_of_le hfirst hgrows]
        simp

end Program

namespace Wiring

/-- A run goes down exactly where a line is refused of the table that it has to print. -/
theorem outcome_crashed_iff (fuel : Nat) :
    (w.run fuel tokens tape input).outcome = .crashed reason ↔ ∃ k,
      w.stdout.firstRefusal (w.withRoom.run fuel tokens tape input).state.trace.size =
        some (k, reason) := by
  cases hp : Program.ofTokens tokens with
  | error bracket => simp [run, hp, Output.firstRefusal]
  | ok p =>
    cases hw : w.traced with
    | false =>
      have hnever : (w.run fuel tokens tape input).outcome ≠ .crashed reason := by
        rw [run_of_untraced hw hp]
        exact Program.outcome_runFor_ne_crashed hw fuel
      simp [hnever, trace_run (w := w.withRoom) hw, Output.firstRefusal]
    | true =>
      rw [run_of_accepting (w := w.withRoom) rfl hp]
      cases hheading : w.headingRefusal with
      | none =>
        simp only [run, hp, hheading]
        exact Program.outcome_runFor_crashed_iff (s := State.initial w tape input) hp hw hheading
          fuel
      | some first =>
        have hgrows := Program.size_trace_le_runFor (w := w.withRoom)
          (s := State.initial w.withRoom tape input) hp hw rfl fuel
        rw [Output.firstRefusal_of_le hheading hgrows]
        simp [run, hp, hheading, Prod.ext_iff]

theorem size_trace_pos_iff (hout : w.stdout = .accepting) (fuel : Nat) :
    0 < (w.run fuel tokens tape input).state.trace.size ↔ w.traced = true ∧ Balanced tokens := by
  cases hp : Program.ofTokens tokens with
  | error bracket =>
    have hunbalanced : ¬ Balanced tokens := by
      intro hbalanced
      obtain ⟨p, hok⟩ := Program.exists_of_balanced hbalanced
      cases hp.symm.trans hok
    simp [run, hp, hunbalanced]
  | ok p =>
    have hbalanced := LoopTable.exists_build_iff_balanced.mp ⟨_, (Program.eq_of_ofTokens hp).2⟩
    cases hw : w.traced with
    | false => simp [trace_run hw]
    | true =>
      have hgrows := Program.size_trace_le_runFor (s := State.initial w tape input) hp hw hout fuel
      rw [← run_of_accepting hout hp] at hgrows
      have hheading : (State.initial w tape input).trace.size = 2 := by
        simp [State.initial, heading, hw]
      simp only [hbalanced, and_self, iff_true]
      omega

/-- The run comes to execute a token, with so many characters written. -/
def ComesTo (w : Wiring) (tokens : List Token) (tape : Tape) (input : Input) (tok : Token)
    (calls : Nat) : Prop :=
  ∃ (p : Program) (k : Nat) (s : State), Program.ofTokens tokens = .ok p ∧
    p.runFor w k (State.initial w tape input) = ⟨.running, s⟩ ∧ p.executes w s = some tok ∧
    s.writes.size = calls

theorem outcome_of_refused_write {calls : Nat} (hw : w.traced = false)
    (hrefused : w.output.refusal calls = some reason) (hop : tok.op = .output)
    (h : w.ComesTo tokens tape input tok calls) {fuel : Nat}
    (hdone : (w.run fuel tokens tape input).outcome ≠ .running) :
    (w.run fuel tokens tape input).outcome = .fault (.io tok.pos reason) := by
  obtain ⟨p, k, s, hp, hrun, hexec, rfl⟩ := h
  have hstop : p.step w s =
      .stop (.fault (.io tok.pos reason)) { s with ticks := s.ticks + 1 } := by
    rw [Program.step_of_executes hexec, printRow_of_untraced _ _ hw]
    simp [Program.exec, hop, print, hw, hrefused]
  have hlast : p.runFor w (k + 1) (State.initial w tape input) =
      ⟨.fault (.io tok.pos reason), { s with ticks := s.ticks + 1 }⟩ := by
    rw [Program.runFor_add_of_running hrun, Program.runFor_succ_of_stop hstop]
  have hend : (p.runFor w (k + 1) (State.initial w tape input)).outcome ≠ .running := by
    simp [hlast]
  rw [run_of_untraced hw hp] at hdone ⊢
  rw [Program.runFor_eq_of_finished hdone hend, hlast]

end Wiring

namespace Settings

variable {settings : Settings}

theorem verdict_eq_crashed_iff {outcome : Outcome} :
    settings.verdict outcome = .crashed reason ↔
      outcome = .crashed reason ∧ settings.isLimited = false := by
  cases outcome with
  | halted => simp [verdict]
  | fault f =>
    cases f with
    | cancelled => simp [verdict]
    | _ => simp [verdict]
  | crashed cause => cases hlimited : settings.isLimited <;> simp [verdict, hlimited]
  | waiting => cases htimeout : settings.timeoutMs <;> simp [verdict, htimeout]
  | running => simp [verdict]

/-- The lines of the table that an execution has to print, with room for all of them. -/
def tableSize (settings : Settings) (clock : Clock) (traced : Bool) (tokens : List Token)
    (input : Input) : Nat :=
  ((settings.wiring clock .accepting traced).run (settings.fuel clock) tokens .fresh
    input).state.trace.size

theorem tableSize_pos_iff {clock : Clock} {traced : Bool} :
    0 < settings.tableSize clock traced tokens input ↔ traced = true ∧ Balanced tokens :=
  Wiring.size_trace_pos_iff rfl _

theorem verdict_execute_eq_crashed_iff {clock : Clock} {stdout : Output} {traced : Bool} :
    (settings.execute clock stdout traced tokens input).verdict = .crashed reason ↔
      settings.isLimited = false ∧ ∃ k,
        stdout.firstRefusal (settings.tableSize clock traced tokens input) = some (k, reason) := by
  unfold execute
  simp only [verdict_eq_crashed_iff, Wiring.outcome_crashed_iff]
  exact And.comm

theorem verdict_of_refused_row {clock : Clock} {stdout : Output} {traced : Bool} {k : Nat}
    (hlimited : settings.isLimited = true)
    (hrefused : stdout.firstRefusal (settings.tableSize clock traced tokens input) =
      some (k, reason)) :
    (settings.execute clock stdout traced tokens input).verdict = .failed .workerLost := by
  have hcrashed : ((settings.wiring clock stdout traced).run (settings.fuel clock) tokens
      .fresh input).outcome = .crashed reason :=
    (Wiring.outcome_crashed_iff _).mpr ⟨k, hrefused⟩
  simp [execute, hcrashed, verdict, hlimited]

theorem verdict_of_refused_write {clock : Clock} {stdout : Output} {calls : Nat}
    (hop : tok.op = .output) (hrefused : stdout.refusal calls = some reason)
    (hcomes : (settings.wiring clock stdout false).ComesTo tokens .fresh input tok calls)
    (hreturns : (settings.execute clock stdout false tokens input).verdict ≠ .unanswered) :
    (settings.execute clock stdout false tokens input).verdict =
      .failed (.fault (.io tok.pos reason)) := by
  have hdone : ((settings.wiring clock stdout false).run (settings.fuel clock) tokens
      .fresh input).outcome ≠ .running := by
    intro hrunning
    apply hreturns
    simp [execute, hrunning, verdict]
  have hfault := Wiring.outcome_of_refused_write (w := settings.wiring clock stdout false) rfl
    hrefused hop hcomes hdone
  simp [execute, hfault, verdict]

/-- Writes that nobody looks after: the newline behind raw output, and the table that no worker
prints. -/
def Unguarded (settings : Settings) (traced : Bool) (tokens : List Token) : Prop :=
  settings.output = .raw ∨ (traced = true ∧ settings.isLimited = false ∧ Balanced tokens)

end Settings

namespace CommandLine

variable {world : World} {arguments : RunArguments} {settings : Settings} {text : String}
  {debug : Bool}

theorem exit_endRaw_crashed_iff {stdout : Output} {response : Response} :
    (endRaw stdout response).exit = .crashed reason ↔
      ((∃ code, response.exit = .status code) ∧ stdout.refusal 0 = some reason) ∨
        response.exit = .crashed reason := by
  unfold endRaw
  cases hexit : response.exit with
  | status code => cases stdout.refusal 0 <;> simp
  | crashed cause => simp [hexit]
  | unanswered => simp [hexit]

theorem Exit.ofVerdict_eq_crashed_iff {v : Verdict} :
    Exit.ofVerdict v = .crashed reason ↔ v = .crashed reason := by
  cases v <;> simp [Exit.ofVerdict]

def World.execution (world : World) (settings : Settings) (debug : Bool) (text : String) :
    Execution :=
  settings.execute world.clock world.stdout debug (tokenize text) (.standard world.stdin)

def World.tableSize (world : World) (settings : Settings) (debug : Bool) (text : String) : Nat :=
  settings.tableSize world.clock debug (tokenize text) (.standard world.stdin)

/-- A refused write brings the command down: a line of a table that no worker prints, or the
newline behind raw output. -/
inductive World.Downs (world : World) (settings : Settings) (debug : Bool) (text : String)
    (reason : String) : Prop where
  | table {k : Nat} (hlimited : settings.isLimited = false)
      (hrefused : world.stdout.firstRefusal (world.tableSize settings debug text) =
        some (k, reason)) : Downs world settings debug text reason
  | newline {code : Nat} (hraw : settings.output = .raw)
      (hended : Exit.ofVerdict (world.execution settings debug text).verdict = .status code)
      (hrefused : world.stdout.refusal (world.execution settings debug text).calls =
        some reason) : Downs world settings debug text reason

theorem exit_runText_crashed_iff :
    (runText world settings debug text).exit = .crashed reason ↔
      world.Downs settings debug text reason := by
  have hcrashed : (world.execution settings debug text).verdict = .crashed reason ↔ _ :=
    Settings.verdict_execute_eq_crashed_iff
  unfold runText
  constructor
  · intro hexit
    cases hmode : settings.output with
    | line =>
      rw [hmode] at hexit
      obtain ⟨hlimited, k, hrefused⟩ := hcrashed.mp (Exit.ofVerdict_eq_crashed_iff.mp hexit)
      exact .table hlimited hrefused
    | raw =>
      rw [hmode] at hexit
      rcases exit_endRaw_crashed_iff.mp hexit with ⟨⟨code, hended⟩, hrefused⟩ | hdown
      · exact .newline hmode hended hrefused
      · obtain ⟨hlimited, k, hrefused⟩ := hcrashed.mp (Exit.ofVerdict_eq_crashed_iff.mp hdown)
        exact .table hlimited hrefused
  · intro hdowns
    cases hdowns with
    | table hlimited hrefused =>
      have hdown := Exit.ofVerdict_eq_crashed_iff.mpr (hcrashed.mpr ⟨hlimited, _, hrefused⟩)
      cases settings.output with
      | line => exact hdown
      | raw => exact exit_endRaw_crashed_iff.mpr (.inr hdown)
    | newline hraw hended hrefused =>
      rw [hraw]
      exact exit_endRaw_crashed_iff.mpr (.inl ⟨⟨_, hended⟩, hrefused⟩)

theorem downs_iff_unguarded (hout : world.stdout = .failing reason)
    (hreturns : (world.execution settings debug text).verdict ≠ .unanswered) :
    world.Downs settings debug text reason ↔ settings.Unguarded debug (tokenize text) := by
  have hpos : 0 < world.tableSize settings debug text ↔ _ := Settings.tableSize_pos_iff
  constructor
  · intro hdowns
    cases hdowns with
    | table hlimited hrefused =>
      rw [hout] at hrefused
      obtain ⟨hdebug, hbalanced⟩ := hpos.mp (Output.reason_of_firstRefusal_failing hrefused).2
      exact .inr ⟨hdebug, hlimited, hbalanced⟩
    | newline hraw => exact .inl hraw
  · rintro (hraw | ⟨hdebug, hlimited, hbalanced⟩)
    · have hrefused : ∀ k, world.stdout.refusal k = some reason := fun k => by rw [hout]; rfl
      cases hverdict : (world.execution settings debug text).verdict with
      | ok => exact .newline hraw (congrArg Exit.ofVerdict hverdict) (hrefused _)
      | failed e => exact .newline hraw (congrArg Exit.ofVerdict hverdict) (hrefused _)
      | unanswered => exact absurd hverdict hreturns
      | crashed cause =>
        obtain ⟨hlimited, k, hfirst⟩ := Settings.verdict_execute_eq_crashed_iff.mp hverdict
        obtain ⟨rfl, -⟩ := Output.reason_of_firstRefusal_failing (hout ▸ hfirst)
        exact .table hlimited hfirst
    · refine .table (k := 0) hlimited ?_
      rw [hout]
      exact Output.firstRefusal_failing (hpos.mpr ⟨hdebug, hbalanced⟩)

theorem run_status_or_executes (world : World) (arguments : RunArguments) :
    (∃ code ≤ 2, (run world arguments).exit = .status code) ∨
      ∃ settings text, Executes world arguments settings text := by
  cases hhelp : arguments.help with
  | true => exact .inl ⟨0, by decide, by simp [run, hhelp]⟩
  | false =>
    by_cases hrefused : world.Refuses arguments
    · exact .inl ⟨2, by decide, (run_of_refused hhelp hrefused).1⟩
    · obtain ⟨hused, settings, hsettings⟩ := World.exists_settings_of_not_refuses hrefused
      by_cases htext : ∃ text, world.Supplies arguments text
      · obtain ⟨text, htext⟩ := htext
        exact .inr ⟨settings, text, executes_of_supplies hhelp hused hsettings htext⟩
      · obtain ⟨message, hrun⟩ := run_of_unsupplied hhelp hused hsettings htext
        exact .inl ⟨1, by decide, congrArg Response.exit hrun⟩

theorem exit_run_crashed_iff :
    (run world arguments).exit = .crashed reason ↔
      ∃ settings text, Executes world arguments settings text ∧
        world.Downs settings arguments.debug text reason := by
  constructor
  · intro hcrashed
    rcases run_status_or_executes world arguments with ⟨code, -, hexit⟩ | ⟨settings, text, h⟩
    · cases hexit.symm.trans hcrashed
    · rw [run_of_executes h] at hcrashed
      exact ⟨settings, text, h, exit_runText_crashed_iff.mp hcrashed⟩
  · rintro ⟨settings, text, h, hdowns⟩
    rw [run_of_executes h]
    exact exit_runText_crashed_iff.mpr hdowns

def Exit.Bounded (exit : Exit) : Prop := ∀ code, exit = .status code → code ≤ 2

theorem Exit.bounded_ofVerdict (v : Verdict) : (Exit.ofVerdict v).Bounded := by
  intro code h
  cases v <;> cases h <;> decide

theorem bounded_endRaw {stdout : Output} {response : Response} (h : response.exit.Bounded) :
    (endRaw stdout response).exit.Bounded := by
  unfold endRaw
  split
  · exact h
  · exact nofun
  · exact h

theorem bounded_run (world : World) (arguments : RunArguments) :
    (run world arguments).exit.Bounded := by
  rcases run_status_or_executes world arguments with ⟨code, hcode, hexit⟩ | ⟨settings, text, h⟩
  · intro other hother
    cases hexit.symm.trans hother
    exact hcode
  · rw [run_of_executes h]
    unfold runText
    cases settings.output with
    | line => exact Exit.bounded_ofVerdict _
    | raw => exact bounded_endRaw (Exit.bounded_ofVerdict _)

theorem verdict_ne_unanswered (h : Executes world arguments settings text)
    (hreturns : (run world arguments).exit ≠ .unanswered) :
    (settings.execute world.clock world.stdout arguments.debug (tokenize text)
      (.standard world.stdin)).verdict ≠ .unanswered := by
  intro hverdict
  apply hreturns
  rw [run_of_executes h]
  cases hmode : settings.output with
  | line => simp [runText, hmode, hverdict, Exit.ofVerdict]
  | raw => simp [runText, hmode, hverdict, Exit.ofVerdict, endRaw]

theorem response_of_failed {e : RunError} (h : Executes world arguments settings text)
    (hverdict : (settings.execute world.clock world.stdout arguments.debug (tokenize text)
      (.standard world.stdin)).verdict = .failed e) :
    (run world arguments).stderr = Diagnostic.reportError (some world.program) text e ∧
      (settings.output = .line → (run world arguments).exit = .status 1) := by
  rw [run_of_executes h]
  constructor
  · rw [stderr_runText, hverdict]
    rfl
  · intro hline
    simp [runText, hline, hverdict, Exit.ofVerdict]

/-- Whatever becomes of its output, the command that ends has a status from 0 to 2 or goes down,
and it goes down exactly where a write that nobody looks after is refused; where all writes are
refused, that is for raw output and for a table that no worker prints. A refused character is
reported as a fault of its instruction, with status 1 where no newline is left to write. A
refused line of its table costs a limited run its worker, and is not reported as such a fault.
What a thread that goes down says of it on standard error is left out of the response. -/
theorem run_with_refused_output (hreturns : (run world arguments).exit ≠ .unanswered) :
    let response := run world arguments
    ((∃ code ≤ 2, response.exit = .status code) ∨ ∃ reason, response.exit = .crashed reason) ∧
    (∀ reason, response.exit = .crashed reason ↔
      ∃ settings text, Executes world arguments settings text ∧
        world.Downs settings arguments.debug text reason) ∧
    (∀ reason, world.stdout = .failing reason → (response.exit = .crashed reason ↔
      ∃ settings text, Executes world arguments settings text ∧
        settings.Unguarded arguments.debug (tokenize text))) ∧
    (∀ settings text reason tok calls, Executes world arguments settings text →
      arguments.debug = false → tok.op = .output →
      (settings.wiring world.clock world.stdout false).ComesTo (tokenize text) .fresh
        (.standard world.stdin) tok calls →
      world.stdout.refusal calls = some reason →
      response.stderr = Diagnostic.report (some world.program) text (.io tok.pos reason) ∧
        (settings.output = .line → response.exit = .status 1)) ∧
    (∀ settings text k reason, Executes world arguments settings text →
      settings.isLimited = true →
      world.stdout.firstRefusal (world.tableSize settings arguments.debug text) =
        some (k, reason) →
      response.stderr = RunError.workerLost.message ++ "\n" ∧
        (settings.output = .line → response.exit = .status 1)) := by
  intro response
  refine ⟨?_, fun _ => exit_run_crashed_iff, ?_, ?_, ?_⟩
  · cases hexit : response.exit with
    | status code => exact .inl ⟨code, bounded_run world arguments code hexit, rfl⟩
    | crashed reason => exact .inr ⟨reason, rfl⟩
    | unanswered => exact absurd hexit hreturns
  · intro reason hout
    rw [show response.exit = .crashed reason ↔ _ from exit_run_crashed_iff]
    constructor
    · rintro ⟨settings, text, h, hdowns⟩
      exact ⟨settings, text, h,
        (downs_iff_unguarded hout (verdict_ne_unanswered h hreturns)).mp hdowns⟩
    · rintro ⟨settings, text, h, hunguarded⟩
      exact ⟨settings, text, h,
        (downs_iff_unguarded hout (verdict_ne_unanswered h hreturns)).mpr hunguarded⟩
  · intro settings text reason tok calls h hdebug hop hcomes hrefused
    have hverdict := verdict_ne_unanswered h hreturns
    rw [hdebug] at hverdict
    have hfailed := Settings.verdict_of_refused_write hop hrefused hcomes hverdict
    rw [← hdebug] at hfailed
    exact response_of_failed h hfailed
  · intro settings text k reason h hlimited hrefused
    exact response_of_failed h (Settings.verdict_of_refused_row hlimited hrefused)

theorem run_with_refused_output_behind_raw :
    let world : World :=
      { program := "tape"
        bindings := fun _ => none
        stdin := .failing "gone"
        stdout := .filling 1 "full"
        terminal := false
        errorTerminal := false
        contents := fun _ => .error "missing"
        clock := ⟨0, 1, 9⟩ }
    let arguments : RunArguments := { flags := { output := some .raw }, code := ["é.", "."] }
    (run world arguments).exit = .crashed "full" ∧ (run world arguments).stdout = [0] ∧
      (run world arguments).stderr =
        Diagnostic.report (some "tape") (String.join ["é.", "."]) (.io 2 "full") := by
  intro world arguments
  have hreturns : (run world arguments).exit ≠ .unanswered := by decide +kernel
  have hresolve : Settings.resolve arguments.flags world.environment = .ok { output := .raw } := by
    decide +kernel
  have hexecutes : Executes world arguments { output := .raw } (String.join arguments.code) :=
    .words rfl rfl nofun hresolve
  have htokens : tokenize (String.join arguments.code) = [⟨.output, 1⟩, ⟨.output, 2⟩] := by
    decide +kernel
  have hcomes : (Settings.wiring { output := .raw } world.clock world.stdout false).ComesTo
      (tokenize (String.join arguments.code)) .fresh (.standard world.stdin) ⟨.output, 2⟩ 1 := by
    rw [htokens]
    exact ⟨_, 1, _, rfl, rfl, rfl, rfl⟩
  have hended : Exit.ofVerdict (world.execution { output := .raw } arguments.debug
      (String.join arguments.code)).verdict = .status 1 := by decide +kernel
  have hdowns : world.Downs { output := .raw } arguments.debug (String.join arguments.code)
      "full" := .newline rfl hended (by decide +kernel)
  obtain ⟨-, hcrashed, -, hreported, -⟩ := run_with_refused_output hreturns
  exact ⟨(hcrashed "full").mpr ⟨_, _, hexecutes, hdowns⟩, by decide +kernel,
    (hreported _ _ "full" ⟨.output, 2⟩ 1 hexecutes rfl rfl hcomes rfl).1⟩

/-- Not every command that ends has a status, and not every refused write of a run is reported as
a fault of input and output. -/
theorem refused_output_goes_unreported :
    (¬ ∀ (world : World) (arguments : RunArguments), (run world arguments).exit ≠ .unanswered →
      ∃ code ≤ 2, (run world arguments).exit = .status code) ∧
    ¬ ∀ (settings : Settings) (clock : Clock) (tokens : List Token) (input : Input)
      (reason : String), Balanced tokens →
      (settings.execute clock (.failing reason) true tokens input).verdict ≠ .unanswered →
      ∃ pos, (settings.execute clock (.failing reason) true tokens input).verdict =
        .failed (.fault (.io pos reason)) := by
  constructor
  · intro hstatus
    let world : World :=
      { program := "tape"
        bindings := fun _ => none
        stdin := .failing "gone"
        stdout := .failing "full"
        terminal := false
        errorTerminal := false
        contents := fun _ => .error "missing"
        clock := ⟨0, 1, 9⟩ }
    let arguments : RunArguments := { flags := { output := some .raw }, code := ["+"] }
    have hcrashed : (run world arguments).exit = .crashed "full" := by decide +kernel
    obtain ⟨code, -, hexit⟩ := hstatus world arguments (by rw [hcrashed]; exact nofun)
    cases hcrashed.symm.trans hexit
  · intro hfault
    have hbalanced : Balanced [⟨.increment, 0⟩, ⟨.output, 1⟩] := by decide
    have hlost : (Settings.execute { maxSteps := some 5 } ⟨0, 1, 9⟩ (.failing "full") true
        [⟨.increment, 0⟩, ⟨.output, 1⟩] (.standard (.failing "gone"))).verdict =
        .failed .workerLost := by decide +kernel
    obtain ⟨pos, hio⟩ := hfault _ _ _ _ _ hbalanced (by rw [hlost]; exact nofun)
    cases hlost.symm.trans hio

end CommandLine
end TapeLang
