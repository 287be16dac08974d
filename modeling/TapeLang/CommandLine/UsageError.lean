import TapeLang.Text.ControlSequence

/-! Words on the command line that make no sense. -/
namespace TapeLang.CommandLine

inductive UsageError where
  | unknownCommand (word : String)
  | unexpectedArgument (word : String)
  | repeated (option : String)
  | missingValue (option : String)
  | invalidValue (value option reason : String)
  | unexpectedValue (value option : String)
  | conflict (first second : String)
deriving DecidableEq, Repr

def faulty (text : String) : String := "'\x1b[33m" ++ text ++ "\x1b[0m'"

def mentioned (text : String) : String := "'\x1b[1m" ++ text ++ "\x1b[0m'"

def UsageError.coloured : UsageError → String
  | unknownCommand word => "unrecognized subcommand " ++ faulty word
  | unexpectedArgument word => "unexpected argument " ++ faulty word ++ " found"
  | repeated option => "the argument " ++ faulty option ++ " cannot be used multiple times"
  | missingValue option => "a value is required for " ++ faulty option ++ " but none was supplied"
  | invalidValue value option reason =>
    "invalid value " ++ faulty value ++ " for " ++ mentioned option ++ ": " ++ reason
  | unexpectedValue value option =>
    "unexpected value " ++ faulty value ++ " for " ++ mentioned option ++
      " found; no more were expected"
  | conflict first second =>
    "the argument " ++ faulty first ++ " cannot be used with " ++ faulty second

/-- The line printed where there is no terminal: without the colours, and
without any control sequence of the words it quotes. -/
def UsageError.report (e : UsageError) : String :=
  Text.plain ("\x1b[1m\x1b[31merror:\x1b[0m " ++ e.coloured ++ "\n")

end TapeLang.CommandLine
