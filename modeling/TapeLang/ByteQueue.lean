import TapeLang.Text.Blank
import TapeLang.Text.Utf8

/-! A queue of bytes that is filled at one end and read at the other, by whole
lines or by single bytes. Both kinds of read consume one stream in order. -/
namespace TapeLang

inductive Poll (α : Type) where
  | ready (value : α)
  | finished
  | waiting
deriving DecidableEq, Repr

/-- A closed queue expects no more bytes; those it holds can still be read. -/
structure ByteQueue where
  bytes : Bytes := []
  closed : Bool := false
deriving DecidableEq, Repr, Inhabited

def cutLine : Bytes → Option (Bytes × Bytes)
  | [] => none
  | b :: rest =>
    if b = 0x0A then some ([b], rest)
    else (cutLine rest).map fun cut => (b :: cut.1, cut.2)

theorem append_of_cutLine {bytes line rest : Bytes} (h : cutLine bytes = some (line, rest)) :
    line ++ rest = bytes ∧ line ≠ [] := by
  induction bytes generalizing line with
  | nil => cases h
  | cons b tail ih =>
    rw [cutLine] at h
    split at h
    · cases h; simp
    · obtain ⟨cut, hcut, heq⟩ := Option.map_eq_some_iff.mp h
      cases heq
      simp [(ih hcut).1]

/-- The text of a line: decoded, then without the line ends after it. -/
def decodeLine (raw : Bytes) : String :=
  String.ofList (Text.dropRightWhile (fun c => c == '\n' || c == '\r') (Utf8.decodeChars raw))

namespace ByteQueue

def push (q : ByteQueue) (bytes : Bytes) : ByteQueue := { q with bytes := q.bytes ++ bytes }

def close (q : ByteQueue) : ByteQueue := { q with closed := true }

def readByte (q : ByteQueue) (cancelled : Bool) : Poll UInt8 × ByteQueue :=
  if cancelled then (.finished, q)
  else
    match q.bytes with
    | b :: rest => (.ready b, { q with bytes := rest })
    | [] => (if q.closed then .finished else .waiting, q)

/-- The next line without its end. What a closed queue holds after its last
newline is a line too. -/
def readLine (q : ByteQueue) : Poll String × ByteQueue :=
  match cutLine q.bytes with
  | some (line, rest) => (.ready (decodeLine line), { q with bytes := rest })
  | none =>
    if q.closed then
      if q.bytes.isEmpty then (.finished, q)
      else (.ready (decodeLine q.bytes), { q with bytes := [] })
    else (.waiting, q)

theorem length_of_readLine {q after : ByteQueue} {line : String}
    (h : q.readLine = (.ready line, after)) : after.bytes.length < q.bytes.length := by
  unfold readLine at h
  split at h
  next raw rest hcut =>
    cases h
    obtain ⟨happend, hne⟩ := append_of_cutLine hcut
    have := List.length_pos_iff.mpr hne
    simp only [← happend, List.length_append]
    omega
  next =>
    split at h
    · split at h
      · cases h
      next hne =>
        cases h
        exact List.length_pos_iff.mpr (by simpa using hne)
    · cases h

def readLines (q : ByteQueue) : List String :=
  match _h : q.readLine with
  | (.ready line, after) => line :: after.readLines
  | _ => []
termination_by q.bytes.length
decreasing_by exact length_of_readLine (by assumption)

inductive Feed where
  | push (bytes : Bytes)
  | close
  | wake
  | cancel
deriving DecidableEq, Repr

def feed (q : ByteQueue) : Feed → ByteQueue
  | .push bytes => q.push bytes
  | .close => q.close
  | .wake => q
  | .cancel => q

/-- A read that waits is tried again after every feed; feeds after the answer
go to whoever reads next. -/
def await {α : Type} (read : ByteQueue → Bool → Poll α × ByteQueue) (q : ByteQueue)
    (cancelled : Bool) : List Feed → Poll α × ByteQueue
  | [] => read q cancelled
  | f :: rest =>
    match read q cancelled with
    | (.waiting, _) => await read (q.feed f) (cancelled || f == .cancel) rest
    | (answer, after) => (answer, (f :: rest).foldl feed after)

def awaitByte (q : ByteQueue) (feeds : List Feed) : Poll UInt8 × ByteQueue :=
  q.await readByte false feeds

def awaitLine (q : ByteQueue) (feeds : List Feed) : Poll String × ByteQueue :=
  q.await (fun q _ => q.readLine) false feeds

inductive Delivery where
  | chunk (bytes : Bytes)
  | interrupted
  | failed
deriving DecidableEq, Repr

/-- Copy a source into the queue until it ends, by an empty chunk, a failure
or for want of more, and then close the queue. Interruptions are retried. -/
def pump (q : ByteQueue) : List Delivery → ByteQueue
  | [] => q.close
  | .chunk [] :: _ => q.close
  | .chunk (b :: bytes) :: rest => (q.push (b :: bytes)).pump rest
  | .interrupted :: rest => q.pump rest
  | .failed :: _ => q.close

end ByteQueue
end TapeLang
