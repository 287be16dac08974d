/-! Text as UTF-8. Decoding never fails: every longest run of bytes that could
have begun a character but did not finish one becomes a replacement character. -/
namespace TapeLang

abbrev Bytes := List UInt8

namespace Utf8

def replacement : Char := '�'

def encode (text : String) : Bytes := text.toByteArray.data.toList

/-- A character begun: the bounds on the next byte, the bytes wanted after
that one, and the bits gathered so far. -/
structure Pending where
  low : UInt8
  high : UInt8
  more : Nat
  bits : Nat
deriving DecidableEq, Repr

inductive Lead where
  | whole (c : Char)
  | begun (p : Pending)
  | invalid

/-- The second byte is bounded so that no character is written longer than
needed, none is a surrogate and none lies past the last scalar value. -/
def lead (b : UInt8) : Lead :=
  let n := b.toNat
  if n < 0x80 then .whole (Char.ofNat n)
  else if n < 0xC2 then .invalid
  else if n < 0xE0 then .begun ⟨0x80, 0xBF, 0, n - 0xC0⟩
  else if n < 0xF0 then
    .begun ⟨if n = 0xE0 then 0xA0 else 0x80, if n = 0xED then 0x9F else 0xBF, 1, n - 0xE0⟩
  else if n < 0xF5 then
    .begun ⟨if n = 0xF0 then 0x90 else 0x80, if n = 0xF4 then 0x8F else 0xBF, 2, n - 0xF0⟩
  else .invalid

def startAt (b : UInt8) : List Char × Option Pending :=
  match lead b with
  | .whole c => ([c], none)
  | .begun p => ([], some p)
  | .invalid => ([replacement], none)

def continueAt (p : Pending) (b : UInt8) : List Char × Option Pending :=
  if p.low ≤ b ∧ b ≤ p.high then
    let bits := p.bits * 64 + (b.toNat - 0x80)
    match p.more with
    | 0 => ([Char.ofNat bits], none)
    | more + 1 => ([], some ⟨0x80, 0xBF, more, bits⟩)
  else
    let (chars, next) := startAt b
    (replacement :: chars, next)

def step : Option Pending → UInt8 → List Char × Option Pending
  | none, b => startAt b
  | some p, b => continueAt p b

def decodeFrom : Option Pending → Bytes → List Char
  | none, [] => []
  | some _, [] => [replacement]
  | state, b :: rest => (step state b).1 ++ decodeFrom (step state b).2 rest

def decodeChars (bytes : Bytes) : List Char := decodeFrom none bytes

def decode (bytes : Bytes) : String := String.ofList (decodeChars bytes)

def decode? (bytes : Bytes) : Option String := String.fromUTF8? ⟨bytes.toArray⟩

end Utf8
end TapeLang
