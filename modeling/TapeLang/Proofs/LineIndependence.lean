import TapeLang.CommandLine.Dispatch
import TapeLang.Proofs.BareSession
import TapeLang.Proofs.Interleaving
import TapeLang.Proofs.Lockstep
import TapeLang.Proofs.Positions

/-! The lines of a session. Every program starts on a fresh tape, and one that does
not read leaves the queue as it was, so whole lines that do not read can be
cut off from a session and held on their own. -/
namespace TapeLang

theorem Text.mem_of_mem_dropRightWhile {c : Char} {p : Char → Bool} {text : List Char}
    (h : c ∈ dropRightWhile p text) : c ∈ text :=
  List.mem_reverse.mp ((List.dropWhile_sublist _).mem (List.mem_reverse.mp h))

namespace ByteQueue

def WholeLines (bytes : Bytes) : Prop := bytes = [] ∨ bytes.getLast? = some 0x0A

theorem newline_notMem_of_cutLine {bytes : Bytes} (h : cutLine bytes = none) : 0x0A ∉ bytes := by
  induction bytes with
  | nil => simp
  | cons b rest ih =>
    rw [cutLine] at h
    split at h
    · cases h
    next hb =>
      have hrest := ih (Option.map_eq_none_iff.mp h)
      simp only [List.mem_cons, not_or]
      exact ⟨fun heq => hb heq.symm, hrest⟩

theorem WholeLines.of_append {front back : Bytes} (h : WholeLines (front ++ back)) :
    WholeLines back := by
  rcases h with hempty | hlast
  · exact .inl (List.append_eq_nil_iff.mp hempty).2
  · cases hback : back.getLast? with
    | none => exact .inl (List.getLast?_eq_none_iff.mp hback)
    | some b =>
      rw [List.getLast?_append, hback] at hlast
      exact .inr (hback.trans hlast)

end ByteQueue

def Entry.callsOf : List Entry → Nat
  | [] => 0
  | entry :: later => entry.calls + callsOf later

namespace SessionSetup

variable {setup : SessionSetup} {q rest last : ByteQueue} {line : String} {turns : List Turn}

def behind (setup : SessionSetup) (entries : List Entry) : SessionSetup :=
  { setup with stdout := setup.stdout.after (Entry.callsOf entries) }

end SessionSetup

def Entry.shown (prompt : String) (entries : List Entry) : String :=
  String.join (entries.map fun entry => prompt ++ entry.stderr)

namespace CommandLine

/-- The world as the lines of a session leave it, its standard output used by so much. -/
def World.behind (world : World) (entries : List Entry) : World :=
  { world with stdout := world.stdout.after (Entry.callsOf entries) }

end CommandLine
end TapeLang
