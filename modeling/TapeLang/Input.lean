import TapeLang.ByteQueue

/-! Where a program's bytes come from and where its characters go. -/
namespace TapeLang

inductive StandardInput where
  | bytes (rest : Bytes)
  | failing (reason : String)
deriving DecidableEq, Repr

/-- All of standard input as a queue; a source that fails has ended. -/
def StandardInput.toQueue : StandardInput → ByteQueue
  | .bytes rest => { bytes := rest, closed := true }
  | .failing _ => { closed := true }

inductive Input where
  | standard (source : StandardInput)
  | queue (q : ByteQueue)
deriving DecidableEq, Repr

def Input.toQueue : Input → ByteQueue
  | .standard source => source.toQueue
  | .queue q => q

inductive ReadResult where
  | byte (b : UInt8)
  | endOfInput
  | failed (reason : String)
  | waiting
deriving DecidableEq, Repr

def StandardInput.read : StandardInput → ReadResult × StandardInput
  | .bytes [] => (.endOfInput, .bytes [])
  | .bytes (b :: rest) => (.byte b, .bytes rest)
  | .failing reason => (.failed reason, .failing reason)

def ReadResult.ofPoll : Poll UInt8 → ReadResult
  | .ready b => .byte b
  | .finished => .endOfInput
  | .waiting => .waiting

def Input.read : Input → ReadResult × Input
  | .standard source => (source.read.1, .standard source.read.2)
  | .queue q => (.ofPoll (q.readByte false).1, .queue (q.readByte false).2)

/-- Standard output, by its answers: why it refuses a call when so many have gone
through, or none if it takes it. A refused call leaves it as it was. -/
structure Output where
  refusal : Nat → Option String
deriving Inhabited

namespace Output

def accepting : Output := ⟨fun _ => none⟩

def failing (reason : String) : Output := ⟨fun _ => some reason⟩

def after (out : Output) (calls : Nat) : Output := ⟨fun k => out.refusal (calls + k)⟩

/-- The first of so many calls that is refused, and why. -/
def firstRefusal (out : Output) (calls : Nat) : Option (Nat × String) :=
  (List.range calls).findSome? fun k => (out.refusal k).map (k, ·)

end Output

end TapeLang
