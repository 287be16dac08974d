import TapeLang.CommandLine.Dispatch
import TapeLang.Proofs.BareSession
import TapeLang.Proofs.Positions

/-! Reports that point. The window of a report is a piece of the text with its
line ends flattened, and the caret stands in the column of the character that
the fault names. -/
namespace TapeLang

namespace Diagnostic

theorem flatten_ne_newline (c : Char) : flatten c ≠ '\n' := by
  unfold flatten
  split
  · decide
  next h => exact fun heq => h (.inl heq)

theorem newline_notMem_window (code : List Char) (pos : Nat) : '\n' ∉ window code pos := by
  intro hmem
  obtain ⟨c, -, hc⟩ := List.mem_map.mp hmem
  exact flatten_ne_newline c hc

end Diagnostic

namespace Settings

end Settings

namespace CommandLine

/-- The command comes to execute a text: its words joined, or what its file holds. -/
inductive Executes (world : World) (arguments : RunArguments) (settings : Settings) :
    String → Prop where
  | words (hhelp : arguments.help = false) (hfile : arguments.file = none)
      (hcode : arguments.code ≠ [])
      (hsettings : Settings.resolve arguments.flags world.environment = .ok settings) :
      Executes world arguments settings (String.join arguments.code)
  | file {path text : String} (hhelp : arguments.help = false)
      (hfile : arguments.file = some path) (hcode : arguments.code = [])
      (hsettings : Settings.resolve arguments.flags world.environment = .ok settings)
      (htext : world.readText path = .ok text) : Executes world arguments settings text

theorem run_of_executes {world : World} {arguments : RunArguments} {settings : Settings}
    {text : String} (h : Executes world arguments settings text) :
    run world arguments = runText world settings arguments.debug text := by
  cases h with
  | words hhelp hfile hcode hsettings =>
    obtain ⟨part, parts, hparts⟩ := List.exists_cons_of_ne_nil hcode
    simp [run, hhelp, hfile, hparts, hsettings]
  | file hhelp hfile hcode hsettings htext =>
    simp [run, hhelp, hfile, hcode, hsettings, htext]

theorem stderr_runText (world : World) (settings : Settings) (debug : Bool) (code : String) :
    (runText world settings debug code).stderr =
      (settings.execute world.clock world.stdout debug (tokenize code)
        (.standard world.stdin)).verdict.report (some world.program) code := by
  unfold runText
  cases settings.output with
  | line => rfl
  | raw =>
    simp only [endRaw]
    split <;> rfl

end CommandLine

end TapeLang
