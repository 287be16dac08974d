import TapeLang.CommandLine.Words

/-! The commands and their options. -/
namespace TapeLang.CommandLine

def helpFlag : OptionSpec := { name := "help", letter := some 'h' }
def debugFlag : OptionSpec := { name := "debug", letter := some 'd' }
def bareFlag : OptionSpec := { name := "bare" }
def editorFlag : OptionSpec := { name := "editor" }

def fileOption : OptionSpec where
  name := "file"
  letter := some 'f'
  value := some ⟨"FILE", .text⟩

def outputOption : OptionSpec where
  name := "output"
  letter := some 'o'
  value := some ⟨"MODE", .mode⟩

def timeoutOption : OptionSpec where
  name := "timeout"
  value := some ⟨"MS", .number⟩

def maxStepsOption : OptionSpec where
  name := "max-steps"
  value := some ⟨"N", .number⟩

def topGrammar : Grammar := { options := [helpFlag] }

def runGrammar : Grammar where
  options := [debugFlag, fileOption, outputOption, timeoutOption, maxStepsOption, helpFlag]
  takesCode := true

def replGrammar : Grammar := { options := [bareFlag, editorFlag, outputOption, helpFlag] }

structure RunArguments where
  debug : Bool := false
  file : Option String := none
  flags : SettingFlags := {}
  code : List String := []
  help : Bool := false
deriving DecidableEq, Repr, Inhabited

structure ReplArguments where
  bare : Bool := false
  editor : Bool := false
  output : Option OutputMode := none
  help : Bool := false
deriving DecidableEq, Repr, Inhabited

inductive Command where
  | run (arguments : RunArguments)
  | repl (arguments : ReplArguments)
deriving DecidableEq, Repr

structure Invocation where
  help : Bool
  command : Command
deriving DecidableEq, Repr

namespace Reading

def mode? (r : Reading) (o : OptionSpec) : Option OutputMode :=
  (r.value? o).bind fun value => (Settings.readMode value).toOption

def number? (r : Reading) (o : OptionSpec) : Option Nat :=
  (r.value? o).bind fun value => (Settings.readNumber value).toOption

end Reading

def parseRun (words : List String) : Except UsageError RunArguments := do
  let (r, code) ← runGrammar.read {} words
  return {
    debug := r.has debugFlag
    file := r.value? fileOption
    flags :=
      { output := r.mode? outputOption
        timeoutMs := r.number? timeoutOption
        maxSteps := r.number? maxStepsOption }
    code
    help := r.has helpFlag }

def exclusive (r : Reading) : List OptionSpec :=
  (r.given.map (·.1)).filter fun o => o == bareFlag || o == editorFlag

def parseRepl (words : List String) : Except UsageError ReplArguments := do
  let (r, _) ← replGrammar.read {} words
  match exclusive r with
  | first :: second :: _ => throw (.conflict first.display second.display)
  | _ =>
    return {
      bare := r.has bareFlag
      editor := r.has editorFlag
      output := r.mode? outputOption
      help := r.has helpFlag }

/-- A word after a double dash names no command. One that would have is told
apart from one that never does. -/
def afterDoubleDash (word : String) : UsageError :=
  if word = "run" ∨ word = "repl" then .unexpectedArgument word else .unknownCommand word

/-- The words up to the command's name. Without a command a session is meant. -/
def parseTop (r : Reading) : List String → Except UsageError Invocation
  | [] => return ⟨r.has helpFlag, .repl {}⟩
  | "run" :: rest => return ⟨r.has helpFlag, .run (← parseRun rest)⟩
  | "repl" :: rest => return ⟨r.has helpFlag, .repl (← parseRepl rest)⟩
  | "--" :: [] => return ⟨r.has helpFlag, .repl {}⟩
  | "--" :: word :: _ => throw (afterDoubleDash word)
  | word :: rest => do
    match ← topGrammar.readOptions r word with
    | some after => parseTop after rest
    | none => throw (.unknownCommand word)

def parse (words : List String) : Except UsageError Invocation := parseTop {} words

end TapeLang.CommandLine
