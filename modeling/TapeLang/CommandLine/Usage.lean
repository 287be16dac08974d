/-! The help texts, under the name the program was called by. -/
namespace TapeLang.CommandLine

def unlines (lines : List String) : String := String.join (lines.map (· ++ "\n"))

def topUsage (program : String) : String := unlines [
  "Usage:",
  "  " ++ program ++ " run  [--debug|-d] \"<code>\"      # Run a program (args are concatenated)",
  "  " ++ program ++ " run  [--debug|-d] --file <PATH> # Run a program loaded from file",
  "  " ++ program ++ " repl [--bare|--editor]          # Run one program per input line",
  "  " ++ program ++ "                                 # Same as `repl`",
  "",
  "Run \"" ++ program ++ " <subcommand> --help\" for more info.",
  ""]

def runUsage (program : String) : String := unlines [
  "Usage:",
  "  " ++ program ++ " run [OPTIONS] \"<code>\"",
  "  " ++ program ++ " run [OPTIONS] --file <PATH>",
  "",
  "Options:",
  "  --file,   -f <PATH>  Read program text from PATH instead of positional \"<code>\"",
  "  --debug,  -d         Print a step-by-step table of operations instead of executing",
  "  --output, -o <MODE>  line (default): newline after every '.'; raw: no separator",
  "  --timeout <MS>       Abort after MS milliseconds of wall-clock time",
  "  --max-steps <N>      Abort after N interpreter steps",
  "  --help,   -h         Show this help",
  "",
  "Environment:",
  "  BFOOP_OUTPUT, BFOOP_TIMEOUT_MS, BFOOP_MAX_STEPS are used when the flag is absent.",
  "",
  "Notes:",
  "- Characters outside of +-<>.,[] are comments and are ignored.",
  "- The tape has 1024 cells and wraps around at both ends; '-' stops at 0.",
  "- Input (`,`) reads a single byte from stdin; at end of input the cell is set to -1.",
  "- An unmatched '[' or ']' is reported before anything runs and exits with status 1.",
  "",
  "Examples:",
  "- Load a program from a file:",
  "    " ++ program ++ " run --file ./program.bf",
  "- Echo one byte from stdin:",
  "    echo Z | " ++ program ++ " run \",.\"",
  ""]

def replUsage (program : String) : String := unlines [
  "Usage:",
  "  " ++ program ++ " repl   # Start a line-oriented REPL",
  "",
  "Options:",
  "  --help,   -h         Show this help",
  "  --bare               Force non-interactive bare mode",
  "  --editor             Force interactive editor mode (errors if stdin is not a TTY)",
  "  --output, -o <MODE>  line (default): newline after every '.'; raw: no separator",
  "",
  "Description:",
  "  Reads one line at a time and runs it as a complete program.",
  "",
  "Notes:",
  "    - Each line starts with a fresh tape and cursor.",
  "    - A line containing only `q` ends the session; so does end of input.",
  "    - Non-instruction characters are ignored.",
  "    - An unmatched bracket ends the session with exit status 1.",
  "    - Ctrl+C exits the REPL immediately.",
  "    - Mode selection:",
  "        * Flags: --bare|--editor override environment and auto-detection.",
  "        * Env: BFOOP_REPL_MODE=bare|editor overrides auto-detection.",
  "        * Auto-detect: if stdin is a TTY, starts in interactive editor mode; otherwise, bare mode.",
  "        * Prompts/banners suppressed if stderr is not a TTY.",
  "    - BFOOP_TIMEOUT_MS and BFOOP_MAX_STEPS limit every line's execution.",
  ""]

def editorBanner : String := unlines [
  "brainfoop REPL (interactive editor mode)",
  "Each line runs on a fresh tape. Enter 'q' or press ctrl+d to exit"]

end TapeLang.CommandLine
