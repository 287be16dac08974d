import TapeLang.CommandLine.Dispatch

/-! The program: gather what a command can see, let it answer, and print that.
Standard input is read to its end first, by those commands that may read it. -/
namespace TapeLang.CommandLine

def fileReason : IO.Error → String
  | .noFileOrDirectory .. => "No such file or directory (os error 2)"
  | .permissionDenied .. => "Permission denied (os error 13)"
  | .inappropriateType .. => "Is a directory (os error 21)"
  | e => toString e

partial def readAll (stream : IO.FS.Stream) (before : ByteArray) : IO ByteArray := do
  let chunk ← stream.read 4096
  if chunk.isEmpty then return before
  readAll stream (before ++ chunk)

def gatherStdin (stream : IO.FS.Stream) : IO StandardInput := do
  try
    return .bytes (← readAll stream ByteArray.empty).data.toList
  catch e => return .failing (fileReason e)

def gatherFile (path : Option String) : IO (Except String Bytes) := do
  match path with
  | none => return .error "No such file or directory (os error 2)"
  | some path =>
    try
      return .ok (← IO.FS.readBinFile path).data.toList
    catch e => return .error (fileReason e)

def gatherBindings : IO (String → Option Bytes) := do
  let names := [Settings.outputVariable, Settings.timeoutVariable, Settings.maxStepsVariable,
    SessionMode.variableName]
  let found ← names.mapM fun name => return (name, (← IO.getEnv name).map Utf8.encode)
  return fun name => (found.lookup name).join

def wantedFile (words : List String) : Option String :=
  match parse words with
  | .ok ⟨false, .run arguments⟩ => if arguments.help then none else arguments.file
  | _ => none

def textReads (debug : Bool) (text : String) : Bool :=
  !debug && (tokenize text).any (·.op == .input)

/-- Whether standard input can matter to what the words ask for. -/
def wantsInput (words : List String) (file : Except String Bytes) : Bool :=
  match parse words with
  | .ok ⟨false, .repl arguments⟩ => !arguments.help
  | .ok ⟨false, .run arguments⟩ =>
    !arguments.help && (textReads arguments.debug (String.join arguments.code) ||
      file.toOption.any fun bytes => textReads arguments.debug (Utf8.decode bytes))
  | _ => false

def start (words : List String) : IO UInt32 := do
  let file ← gatherFile (wantedFile words)
  let stdin ← IO.getStdin
  let world : World := {
    program := (← IO.appPath).fileName.getD "tapelang"
    bindings := ← gatherBindings
    stdin := ← if wantsInput words file then gatherStdin stdin else pure (.bytes [])
    stdout := .accepting
    terminal := ← stdin.isTty
    errorTerminal := ← (← IO.getStderr).isTty
    contents := fun _ => file
    clock := .standard }
  let response := dispatch world words
  let stdout ← IO.getStdout
  stdout.write ⟨response.stdout.toArray⟩
  stdout.flush
  IO.eprint response.stderr
  match response.exit with
  | .status code => return code.toUInt32
  | .crashed reason => IO.eprintln reason; return 101
  | .unanswered => return 124

end TapeLang.CommandLine

def main (words : List String) : IO UInt32 := TapeLang.CommandLine.start words
