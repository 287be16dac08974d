import TapeLang.Proofs.Caret
import TapeLang.Proofs.InTime
import TapeLang.Proofs.Resolution

/-! The command that runs one program. A request that makes no sense is refused before any
file or input is looked at, a text that cannot be had is reported, and otherwise the status
and the two streams tell what came of the run. -/
namespace TapeLang

theorem Utf8.decode?_eq_some_iff {bytes : Bytes} {text : String} :
    decode? bytes = some text ↔ bytes = encode text := by
  unfold decode? String.fromUTF8? encode
  constructor
  · intro h
    split at h
    · cases h
      rfl
    · cases h
  · rintro rfl
    rw [dif_pos text.isValidUTF8]
    rfl

def SettingFlags.Accepted (flags : SettingFlags) (env : Environment) : Prop :=
  modeFormat.Accepts flags.output (env Settings.outputVariable) ∧
  numberFormat.Accepts flags.timeoutMs (env Settings.timeoutVariable) ∧
  numberFormat.Accepts flags.maxSteps (env Settings.maxStepsVariable)

theorem Settings.exists_resolve_iff {flags : SettingFlags} {env : Environment} :
    (∃ settings, resolve flags env = .ok settings) ↔ flags.Accepted env := by
  simp only [SettingFlags.Accepted, Format.accepts_iff_exists_settles, resolve_eq_ok_iff]
  constructor
  · rintro ⟨settings, output, houtput, -, htimeout, hsteps⟩
    exact ⟨⟨output, houtput⟩, ⟨_, htimeout⟩, ⟨_, hsteps⟩⟩
  · rintro ⟨⟨output, houtput⟩, ⟨timeoutMs, htimeout⟩, ⟨maxSteps, hsteps⟩⟩
    exact ⟨⟨output.getD .line, timeoutMs, maxSteps⟩, output, houtput, rfl, htimeout, hsteps⟩

theorem Settings.verdict_of_fault (settings : Settings) {f : Fault} (hf : f ≠ .cancelled) :
    settings.verdict (.fault f) = .failed (.fault f) := by
  cases f with
  | cancelled => exact absurd rfl hf
  | _ => rfl

namespace Diagnostic

theorem report_ne_empty (program : Option String) (code : String) (f : Fault) :
    report program code f ≠ "" := by
  intro h
  have hchars := congrArg String.toList h
  cases f with
  | unmatched bracket => simp [report, located] at hchars
  | io pos reason => simp [report, located] at hchars
  | stepLimit limit => simp [report] at hchars
  | cancelled => simp [report] at hchars

end Diagnostic

namespace CommandLine

def RunArguments.Misused (arguments : RunArguments) : Prop :=
  (arguments.file = none ∧ arguments.code = []) ∨ (arguments.file ≠ none ∧ arguments.code ≠ [])

variable {world : World} {arguments : RunArguments} {settings : Settings} {text : String}

/-- The text to run: the words put together, or what a file spells. -/
inductive World.Supplies (world : World) (arguments : RunArguments) : String → Prop where
  | words (hfile : arguments.file = none) : Supplies world arguments (String.join arguments.code)
  | file {path text : String} (hfile : arguments.file = some path)
      (hcontents : world.contents path = .ok (Utf8.encode text)) : Supplies world arguments text

theorem World.readText_eq_ok_iff {path : String} :
    world.readText path = .ok text ↔ world.contents path = .ok (Utf8.encode text) := by
  unfold readText
  cases world.contents path with
  | error reason => simp [bind, Except.bind]
  | ok bytes =>
    simp only [bind, Except.bind, Except.ok.injEq, ← Utf8.decode?_eq_some_iff]
    cases Utf8.decode? bytes <;> simp

theorem executes_of_supplies (hhelp : arguments.help = false) (hused : ¬ arguments.Misused)
    (hsettings : Settings.resolve arguments.flags world.environment = .ok settings)
    (h : world.Supplies arguments text) : Executes world arguments settings text := by
  unfold RunArguments.Misused at hused
  cases h with
  | words hfile => exact .words hhelp hfile (by tauto) hsettings
  | file hfile hcontents =>
    have hcode : arguments.code = [] := by simpa [hfile] using hused
    exact .file hhelp hfile hcode hsettings (World.readText_eq_ok_iff.mpr hcontents)

theorem runUsage_ne_empty (program : String) : runUsage program ≠ "" := by
  simp [runUsage, unlines]

theorem World.stderr_complain_ne_empty (world : World) (status : Nat) (message : String) :
    (world.complain status message).stderr ≠ "" := by
  simp [World.complain]

theorem run_of_misused (hhelp : arguments.help = false) (h : arguments.Misused)
    (program : String) : ∃ stderr, stderr ≠ "" ∧ ∀ world : World, world.program = program →
      run world arguments = { exit := .status 2, stderr } := by
  rcases h with ⟨hfile, hcode⟩ | ⟨hfile, hcode⟩
  · refine ⟨runUsage program, runUsage_ne_empty program, ?_⟩
    rintro world rfl
    simp [run, hhelp, hfile, hcode]
  · obtain ⟨path, hpath⟩ := Option.ne_none_iff_exists'.mp hfile
    obtain ⟨part, parts, hparts⟩ := List.exists_cons_of_ne_nil hcode
    refine ⟨program ++ ": cannot use positional code together with --file\n" ++ runUsage program,
      by simp, ?_⟩
    rintro world rfl
    simp [run, hhelp, hpath, hparts]

theorem run_of_rejected {e : SettingError} (hhelp : arguments.help = false)
    (hused : ¬ arguments.Misused)
    (h : Settings.resolve arguments.flags world.environment = .error e) :
    run world arguments = world.complain 2 e.message := by
  unfold RunArguments.Misused at hused
  cases hfile : arguments.file with
  | none =>
    obtain ⟨part, parts, hparts⟩ : ∃ part parts, arguments.code = part :: parts :=
      List.exists_cons_of_ne_nil (by tauto)
    simp [run, hhelp, hfile, hparts, h]
  | some path =>
    have hcode : arguments.code = [] := by simpa [hfile] using hused
    simp [run, hhelp, hfile, hcode, h]

theorem run_of_unsupplied (hhelp : arguments.help = false) (hused : ¬ arguments.Misused)
    (hsettings : Settings.resolve arguments.flags world.environment = .ok settings)
    (h : ¬ ∃ text, world.Supplies arguments text) :
    ∃ message, run world arguments = world.complain 1 message := by
  unfold RunArguments.Misused at hused
  cases hfile : arguments.file with
  | none => exact absurd ⟨_, .words hfile⟩ h
  | some path =>
    have hcode : arguments.code = [] := by simpa [hfile] using hused
    cases htext : world.readText path with
    | ok text => exact absurd ⟨text, .file hfile (World.readText_eq_ok_iff.mp htext)⟩ h
    | error reason =>
      refine ⟨"failed to read code file as UTF-8: " ++ reason, ?_⟩
      simp [run, hhelp, hfile, hcode, hsettings, htext]

def ending : OutputMode → Bytes
  | .line => []
  | .raw => [0x0A]

theorem runText_of_returned (hout : world.stdout = .accepting) {debug : Bool}
    (h : (settings.execute world.clock .accepting debug (tokenize text)
      (.standard world.stdin)).verdict.Returned) :
    let done := settings.execute world.clock .accepting debug (tokenize text)
      (.standard world.stdin)
    runText world settings debug text =
      ⟨.ofVerdict done.verdict, done.stdout ++ ending settings.output,
        done.verdict.report (some world.program) text⟩ := by
  intro done
  unfold runText
  rw [hout]
  cases settings.output with
  | line => simp [ending, done]
  | raw =>
    rcases h with hok | ⟨f, hfailed⟩
    · simp [hok, endRaw, Exit.ofVerdict, ending, done]
    · simp [hfailed, endRaw, Exit.ofVerdict, ending, done]

/-- The response to a request tells of the run that it led to. -/
structure Response.Relays (response : Response) (mode : OutputMode) (traced : Bool) (r : Run) :
    Prop where
  ended : r.outcome = .halted ∨ ∃ f, r.outcome = .fault f
  success : response.exit = .status 0 ↔ r.outcome = .halted
  failure : response.exit = .status 1 ↔ ∃ f, r.outcome = .fault f
  stdout_eq : response.stdout = r.shown traced ++ ending mode
  stderr_iff : response.stderr = "" ↔ response.exit = .status 0

theorem relays_of_executes (h : Executes world arguments settings text)
    (hout : world.stdout = .accepting)
    (hintime : settings.InTime world.clock .accepting arguments.debug (tokenize text)
      (.standard world.stdin)) :
    (run world arguments).Relays settings.output arguments.debug
      ((settings.timeless .accepting arguments.debug).run (settings.fuel world.clock)
        (tokenize text) .fresh (.standard world.stdin)) := by
  have hclosed : (Input.standard world.stdin).toQueue.closed = true := by
    cases world.stdin <;> rfl
  have hexecute := hintime.execute_eq
  have hanswers := hintime.answers hclosed
  have hshown := @Wiring.stdout_run (settings.timeless .accepting arguments.debug)
    (tokenize text) .fresh (.standard world.stdin) rfl (settings.fuel world.clock)
  generalize (settings.timeless .accepting arguments.debug).run (settings.fuel world.clock)
    (tokenize text) .fresh (.standard world.stdin) = r at hexecute hanswers hshown ⊢
  have hreturned := Settings.returned_of_answers hanswers settings
  rw [run_of_executes h, runText_of_returned hout (by rwa [hexecute]), hexecute, hshown]
  rcases hanswers with hhalted | ⟨f, hfault, hf⟩
  · refine ⟨.inl hhalted, ?_, ?_, rfl, ?_⟩
    · simp [hhalted, Settings.verdict, Exit.ofVerdict]
    · simp [hhalted, Settings.verdict, Exit.ofVerdict]
    · simp [hhalted, Settings.verdict, Exit.ofVerdict, Verdict.report]
  · have hverdict := Settings.verdict_of_fault settings hf
    refine ⟨.inr ⟨f, hfault⟩, ?_, ?_, rfl, ?_⟩
    · simp [hfault, hverdict, Exit.ofVerdict]
    · simp [hfault, hverdict, Exit.ofVerdict]
    · simp [hfault, hverdict, Exit.ofVerdict, Verdict.report, Diagnostic.reportError,
        Diagnostic.report_ne_empty]

/-- The request itself or the environment is at fault. -/
def World.Refuses (world : World) (arguments : RunArguments) : Prop :=
  arguments.Misused ∨ ¬ arguments.flags.Accepted world.environment

theorem run_of_refused (hhelp : arguments.help = false) (h : world.Refuses arguments) :
    (run world arguments).exit = .status 2 ∧ (run world arguments).stdout = [] ∧
      (run world arguments).stderr ≠ "" ∧
      ∀ other : World, other.program = world.program → other.bindings = world.bindings →
        run other arguments = run world arguments := by
  by_cases hmisused : arguments.Misused
  · obtain ⟨stderr, hstderr, hrun⟩ := run_of_misused hhelp hmisused world.program
    rw [hrun world rfl]
    exact ⟨rfl, rfl, hstderr, fun other hprogram _ => hrun other hprogram⟩
  · have hrejected := h.resolve_left hmisused
    rw [← Settings.exists_resolve_iff] at hrejected
    cases hresolve : Settings.resolve arguments.flags world.environment with
    | ok settings => exact absurd ⟨settings, hresolve⟩ hrejected
    | error e =>
      rw [run_of_rejected hhelp hmisused hresolve]
      refine ⟨rfl, rfl, world.stderr_complain_ne_empty _ _, fun other hprogram hbindings => ?_⟩
      have hother : other.environment = world.environment := by
        unfold World.environment
        rw [hbindings]
      rw [run_of_rejected hhelp hmisused (hother ▸ hresolve), World.complain, World.complain,
        hprogram]

theorem World.exists_settings_of_not_refuses (h : ¬ world.Refuses arguments) :
    ¬ arguments.Misused ∧
      ∃ settings, Settings.resolve arguments.flags world.environment = .ok settings := by
  obtain ⟨hused, haccepted⟩ := not_or.mp h
  exact ⟨hused, Settings.exists_resolve_iff.mpr (not_not.mp haccepted)⟩

/-- The status of the command is 2 exactly for a request that is misused or has a bad setting,
and then nothing is looked at but the words and the environment. It is 1 for a text that cannot
be had. Both are told on standard error. For every other request, answered in time, the status, the output and whether there is
an error to read are those of the run. -/
theorem run_answers_request (hhelp : arguments.help = false) (hout : world.stdout = .accepting)
    (hintime : ∀ settings text, Executes world arguments settings text →
      settings.InTime world.clock .accepting arguments.debug (tokenize text)
        (.standard world.stdin)) :
    let response := run world arguments
    (response.exit = .status 2 ↔ world.Refuses arguments) ∧
    (world.Refuses arguments → response.stdout = [] ∧ response.stderr ≠ "" ∧
      ∀ other : World, other.program = world.program → other.bindings = world.bindings →
        run other arguments = response) ∧
    (¬ world.Refuses arguments → (¬ ∃ text, world.Supplies arguments text) →
      response.exit = .status 1 ∧ response.stdout = [] ∧ response.stderr ≠ "") ∧
    (¬ world.Refuses arguments → ∀ text, world.Supplies arguments text → ∃ settings fuel,
      Settings.resolve arguments.flags world.environment = .ok settings ∧
      response.Relays settings.output arguments.debug
        ((settings.timeless .accepting arguments.debug).run fuel (tokenize text) .fresh
          (.standard world.stdin))) := by
  intro response
  have hlost : ¬ world.Refuses arguments → (¬ ∃ text, world.Supplies arguments text) →
      response.exit = .status 1 ∧ response.stdout = [] ∧ response.stderr ≠ "" := by
    intro hfine hnone
    obtain ⟨hused, settings, hsettings⟩ := World.exists_settings_of_not_refuses hfine
    obtain ⟨message, hrun⟩ := run_of_unsupplied hhelp hused hsettings hnone
    rw [show response = _ from hrun]
    exact ⟨rfl, rfl, world.stderr_complain_ne_empty _ _⟩
  have hrelays : ¬ world.Refuses arguments → ∀ text, world.Supplies arguments text →
      ∃ settings fuel, Settings.resolve arguments.flags world.environment = .ok settings ∧
        response.Relays settings.output arguments.debug
          ((settings.timeless .accepting arguments.debug).run fuel (tokenize text) .fresh
            (.standard world.stdin)) := by
    intro hfine text htext
    obtain ⟨hused, settings, hsettings⟩ := World.exists_settings_of_not_refuses hfine
    have hexecutes := executes_of_supplies hhelp hused hsettings htext
    exact ⟨settings, _, hsettings, relays_of_executes hexecutes hout (hintime _ _ hexecutes)⟩
  refine ⟨⟨?_, fun h => (run_of_refused hhelp h).1⟩, fun h => (run_of_refused hhelp h).2, hlost,
    hrelays⟩
  intro htwo
  by_contra hfine
  by_cases htext : ∃ text, world.Supplies arguments text
  · obtain ⟨text, htext⟩ := htext
    obtain ⟨settings, fuel, -, hresponse⟩ := hrelays hfine text htext
    rcases hresponse.ended with hhalted | hfault
    · cases htwo.symm.trans (hresponse.success.mpr hhalted)
    · cases htwo.symm.trans (hresponse.failure.mpr hfault)
  · cases htwo.symm.trans (hlost hfine htext).1

theorem run_answers_request_split_loop :
    let world : World :=
      { program := "tape"
        bindings := fun name => if name = Settings.outputVariable then some [82, 65, 87] else none
        stdin := .failing "gone"
        stdout := .accepting
        terminal := false
        errorTerminal := false
        contents := fun _ => .error "missing"
        clock := ⟨0, 1, 9⟩ }
    let arguments : RunArguments := { code := ["+[", ".,]"] }
    ¬ world.Refuses arguments ∧ world.Supplies arguments (String.join ["+[", ".,]"]) ∧
    (run world arguments).exit = .status 1 ∧ (run world arguments).stdout = [1, 10] ∧
    ∃ fuel, (run world arguments).Relays .raw false
      ((Settings.timeless { output := .raw } .accepting false).run fuel
        (tokenize (String.join ["+[", ".,]"])) .fresh (.standard (.failing "gone"))) := by
  intro world arguments
  have hresolve : Settings.resolve arguments.flags world.environment = .ok { output := .raw } := by
    decide +kernel
  have hintime : ∀ settings text, Executes world arguments settings text →
      settings.InTime world.clock .accepting arguments.debug (tokenize text)
        (.standard world.stdin) := by
    intro settings text hexecutes
    cases hexecutes with
    | file _ hfile => cases hfile
    | words _ _ _ hsettings =>
      obtain rfl := Except.ok.inj (hresolve.symm.trans hsettings)
      have hverdict : (Settings.execute { output := .raw } world.clock .accepting arguments.debug
          (tokenize (String.join arguments.code)) (.standard world.stdin)).verdict =
          .failed (.fault (.io 3 "gone")) := by decide +kernel
      constructor
      · rw [hverdict]
        exact nofun
      · intro ms
        rw [hverdict]
        exact nofun
  have hrun : (run world arguments).exit = .status 1 ∧ (run world arguments).stdout = [1, 10] := by
    decide +kernel
  obtain ⟨hrefuses, -, -, hrelays⟩ := run_answers_request rfl rfl hintime
  have hfine : ¬ world.Refuses arguments := by
    intro hrefused
    cases hrun.1.symm.trans (hrefuses.mpr hrefused)
  obtain ⟨settings, fuel, hsettings, hresponse⟩ := hrelays hfine _ (.words rfl)
  obtain rfl := Except.ok.inj (hresolve.symm.trans hsettings)
  exact ⟨hfine, .words rfl, hrun.1, hrun.2, fuel, hresponse⟩

end CommandLine
end TapeLang
