import TapeLang.CommandLine.Arguments
import TapeLang.CommandLine.Usage
import TapeLang.Session
import TapeLang.Session.Mode

/-! The commands, as functions of all they can see to all they leave behind. -/
namespace TapeLang.CommandLine

structure World where
  program : String
  bindings : String → Option Bytes
  stdin : StandardInput
  stdout : Output
  terminal : Bool
  errorTerminal : Bool
  contents : String → Except String Bytes
  clock : Clock

inductive Exit where
  | status (code : Nat)
  /-- It goes down on a write that fails where none may. -/
  | crashed (reason : String)
  /-- It does not end. -/
  | unanswered
deriving DecidableEq, Repr

structure Response where
  exit : Exit
  stdout : Bytes := []
  stderr : String := ""
deriving DecidableEq, Repr

/-- A variable that is not well-formed text counts as not set. -/
def World.environment (world : World) : Environment :=
  fun name => (world.bindings name).bind Utf8.decode?

def World.complain (world : World) (status : Nat) (message : String) : Response :=
  { exit := .status status, stderr := world.program ++ ": " ++ message ++ "\n" }

def World.readText (world : World) (path : String) : Except String String := do
  match Utf8.decode? (← world.contents path) with
  | some text => .ok text
  | none => .error "stream did not contain valid UTF-8"

def Exit.ofVerdict : Verdict → Exit
  | .ok => .status 0
  | .failed _ => .status 1
  | .crashed reason => .crashed reason
  | .unanswered => .unanswered

/-- Raw output is ended by one newline, whatever came of the run, and that
write may not fail. -/
def endRaw (stdout : Output) (response : Response) : Response :=
  match response.exit, stdout.refusal 0 with
  | .status _, none => { response with stdout := response.stdout ++ [0x0A] }
  | .status _, some reason => { response with exit := .crashed reason }
  | _, _ => response

def runText (world : World) (settings : Settings) (debug : Bool) (code : String) : Response :=
  let run := settings.execute world.clock world.stdout debug (tokenize code) (.standard world.stdin)
  let response : Response :=
    { exit := .ofVerdict run.verdict
      stdout := run.stdout
      stderr := run.verdict.report (some world.program) code }
  match settings.output with
  | .line => response
  | .raw => endRaw (world.stdout.after run.calls) response

/-- The program comes from words or from a file, and not from both. -/
def run (world : World) (arguments : RunArguments) : Response :=
  if arguments.help then { exit := .status 0, stderr := runUsage world.program }
  else
    match arguments.file, arguments.code with
    | none, [] => { exit := .status 2, stderr := runUsage world.program }
    | some _, _ :: _ =>
      { exit := .status 2
        stderr := world.program ++ ": cannot use positional code together with --file\n" ++
          runUsage world.program }
    | file, code =>
      match Settings.resolve arguments.flags world.environment with
      | .error e => world.complain 2 e.message
      | .ok settings =>
        match file with
        | none => runText world settings arguments.debug (String.join code)
        | some path =>
          match world.readText path with
          | .error reason =>
            world.complain 1 ("failed to read code file as UTF-8: " ++ reason)
          | .ok text => runText world settings arguments.debug text

def Exit.ofFlow : Flow → Exit
  | .proceed => .status 0
  | .exit code => .status code
  | .abandoned verdict => .ofVerdict verdict

/-- Only a terminal is prompted on. -/
def World.prompt (world : World) : String := if world.errorTerminal then ">> " else ""

def World.setup (world : World) (settings : Settings) : SessionSetup :=
  ⟨settings, world.clock, world.stdout, world.prompt⟩

def runSession (world : World) (settings : Settings) : Response :=
  let session := (world.setup settings).overQueue world.stdin.toQueue
  { exit := .ofFlow (sessionFlow session.entries)
    stdout := (session.entries.map Entry.stdout).flatten
    stderr := session.stderr }

/-- The mode is settled before the settings are. The lines of an editor are held
like those of a bare session; its own prompt and drawing are left out. -/
def repl (world : World) (arguments : ReplArguments) : Response :=
  if arguments.help then { exit := .status 0, stderr := replUsage world.program }
  else
    let flag := SessionMode.ofFlags arguments.bare arguments.editor
    match SessionMode.select flag (world.environment SessionMode.variableName) world.terminal with
    | .error e => world.complain 1 e.message
    | .ok mode =>
      match Settings.resolve { output := arguments.output } world.environment with
      | .error e => world.complain 2 e.message
      | .ok settings =>
        match mode with
        | .bare => runSession world settings
        | .editor =>
          let session := runSession { world with errorTerminal := false } settings
          { session with
            stderr := (if world.errorTerminal then editorBanner else "") ++ session.stderr }

def dispatch (world : World) (words : List String) : Response :=
  match parse words with
  | .error e => { exit := .status 2, stderr := e.report }
  | .ok invocation =>
    if invocation.help then { exit := .status 0, stderr := topUsage world.program }
    else
      match invocation.command with
      | .run arguments => run world arguments
      | .repl arguments => repl world arguments

end TapeLang.CommandLine
