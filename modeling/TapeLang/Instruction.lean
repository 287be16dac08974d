/-! The eight instructions and the characters that write them. Every other
character of a program text is a comment. -/
namespace TapeLang

inductive Instruction where
  | increment
  | decrement
  | moveForward
  | moveBackward
  | loopOpen
  | loopClose
  | output
  | input
deriving DecidableEq, Repr, Inhabited

namespace Instruction

def toChar : Instruction → Char
  | increment => '+'
  | decrement => '-'
  | moveForward => '>'
  | moveBackward => '<'
  | loopOpen => '['
  | loopClose => ']'
  | output => '.'
  | input => ','

def ofChar? : Char → Option Instruction
  | '+' => some increment
  | '-' => some decrement
  | '>' => some moveForward
  | '<' => some moveBackward
  | '[' => some loopOpen
  | ']' => some loopClose
  | '.' => some output
  | ',' => some input
  | _ => none

theorem ofChar?_toChar (op : Instruction) : ofChar? op.toChar = some op := by
  cases op <;> rfl

theorem toChar_of_ofChar? {c : Char} {op : Instruction} (h : ofChar? c = some op) :
    op.toChar = c := by
  revert h
  fun_cases ofChar? c <;> intro h <;> cases h <;> rfl

theorem ofChar?_eq_some_iff {c : Char} {op : Instruction} :
    ofChar? c = some op ↔ c = op.toChar :=
  ⟨fun h => (toChar_of_ofChar? h).symm, fun h => h ▸ ofChar?_toChar op⟩

end Instruction
end TapeLang
