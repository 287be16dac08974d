import TapeLang.Diagnostic

/-! A session runs one program a line, each on a fresh tape. Lines and the
programs' own reads can share one queue. -/
namespace TapeLang

inductive LineAction where
  | quit
  | skip
  | execute (code : String)
deriving DecidableEq, Repr

/-- Only a bare `q` quits; a line without instructions is a comment. -/
def LineAction.ofLine (line : String) : LineAction :=
  if line = "q" then .quit
  else if (codeOnly (Text.trim line)).isEmpty then .skip
  else .execute (Text.trim line)

inductive Flow where
  | proceed
  | exit (status : Nat)
  /-- The line's program gave no answer to go on from. -/
  | abandoned (verdict : Verdict)
deriving DecidableEq, Repr

structure Entry where
  line : String
  flow : Flow
  stdout : Bytes := []
  calls : Nat := 0
  stderr : String := ""
deriving DecidableEq, Repr

def Flow.ofVerdict : Verdict → Flow
  | .ok => .proceed
  | .failed e => if e.isFatal then .exit 1 else .proceed
  | .crashed reason => .abandoned (.crashed reason)
  | .unanswered => .abandoned .unanswered

def Verdict.report (v : Verdict) (program : Option String) (code : String) : String :=
  match v with
  | .failed e => Diagnostic.reportError program code e
  | _ => ""

/-- What a session is held with. The prompt is shown before every read of a line. -/
structure SessionSetup where
  settings : Settings
  clock : Clock
  stdout : Output := .accepting
  prompt : String := ""

/-- A session that is over: its lines, all it showed on standard error, and the
queue it left. -/
structure Transcript where
  entries : List Entry
  stderr : String
  rest : ByteQueue
deriving DecidableEq, Repr

namespace SessionSetup

def handle (setup : SessionSetup) (line : String) (input : Input) : Entry × Input :=
  match LineAction.ofLine line with
  | .quit => ({ line, flow := .exit 0 }, input)
  | .skip => ({ line, flow := .proceed }, input)
  | .execute code =>
    let run := setup.settings.execute setup.clock setup.stdout false (tokenize code) input
    ({ line, flow := .ofVerdict run.verdict, stdout := run.stdout, calls := run.calls,
       stderr := run.verdict.report none code }, run.input)

def past (setup : SessionSetup) (entry : Entry) : SessionSetup :=
  { setup with stdout := setup.stdout.after entry.calls }

def overLines (setup : SessionSetup) : List String → Input → List Entry
  | [], _ => []
  | line :: rest, input =>
    let (entry, after) := setup.handle line input
    match entry.flow with
    | .proceed => entry :: (setup.past entry).overLines rest after
    | _ => [entry]

/-- Lines taken from a queue that the programs read from too. Each takes a
byte or more, so one round for each byte and one for the end are enough. -/
def rounds (setup : SessionSetup) : Nat → ByteQueue → Transcript
  | 0, q => ⟨[], "", q⟩
  | n + 1, q =>
    match q.readLine with
    | (.ready line, rest) =>
      let (entry, after) := setup.handle line (.queue rest)
      let shown := setup.prompt ++ entry.stderr
      match entry.flow with
      | .proceed =>
        let later := (setup.past entry).rounds n after.toQueue
        ⟨entry :: later.entries, shown ++ later.stderr, later.rest⟩
      | _ => ⟨[entry], shown, after.toQueue⟩
    | (_, rest) => ⟨[], setup.prompt, rest⟩

def overQueue (setup : SessionSetup) (q : ByteQueue) : Transcript :=
  setup.rounds (q.bytes.length + 1) q

end SessionSetup

def sessionFlow (entries : List Entry) : Flow :=
  match entries.getLast? with
  | some entry =>
    match entry.flow with
    | .proceed => .exit 0
    | flow => flow
  | none => .exit 0

end TapeLang
