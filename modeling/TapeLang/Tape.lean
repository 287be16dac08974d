/-! The circular tape. Cells are signed 32-bit numbers: adding stops at the
largest one, subtracting stops at zero, and both ends of the tape meet. -/
namespace TapeLang

abbrev Cell := Int32

namespace Cell

def endOfInput : Cell := -1

def bump (c : Cell) : Cell := if c < Int32.maxValue then c + 1 else c

/-- One less when positive; zero and the end-of-input mark stay. -/
def drop (c : Cell) : Cell := if 0 < c then c - 1 else c

def ofByte (b : UInt8) : Cell := Int32.ofNat b.toNat

/-- The character a cell stands for; a value that is no scalar value stands
for the replacement character. -/
def toChar (c : Cell) : Char :=
  if 0 ≤ c ∧ c.toInt.toNat.isValidChar then Char.ofNat c.toInt.toNat else '�'

theorem toInt_bump (c : Cell) : c.bump.toInt = min (c.toInt + 1) 2147483647 := by
  have hlt := Int32.toInt_lt c
  have hle := Int32.le_toInt c
  have hone : (1 : Int32).toInt = 1 := by decide
  have hmax : Int32.maxValue.toInt = 2147483647 := by decide
  unfold bump
  split
  next h =>
    rw [Int32.lt_iff_toInt_lt] at h
    rw [Int32.toInt_add, Int.bmod_eq_of_le (by omega) (by omega)]
    omega
  next h =>
    rw [Int32.lt_iff_toInt_lt] at h
    omega

theorem toInt_drop (c : Cell) : c.drop.toInt = if 0 < c.toInt then c.toInt - 1 else c.toInt := by
  have hlt := Int32.toInt_lt c
  have hone : (1 : Int32).toInt = 1 := by decide
  have hzero : (0 : Int32).toInt = 0 := by decide
  unfold drop
  simp only [Int32.lt_iff_toInt_lt, hzero]
  split
  next h =>
    rw [Int32.toInt_sub, Int.bmod_eq_of_le (by omega) (by omega)]
    omega
  next => rfl

theorem toInt_ofByte (b : UInt8) : (ofByte b).toInt = b.toNat := by
  have := b.toNat_lt
  rw [ofByte, Int32.toInt_ofNat_of_lt (by omega)]

@[simp] theorem toInt_endOfInput : endOfInput.toInt = -1 := by decide

theorem pos_iff {c : Cell} : 0 < c ↔ 0 < c.toInt := Int32.lt_iff_toInt_lt

end Cell

/-- At least one cell, one of them under the cursor. -/
structure Tape where
  cells : Array Cell
  cursor : Nat
  cursor_lt : cursor < cells.size
deriving DecidableEq, Repr

namespace Tape

def defaultLength : Nat := 1024

def blank (length : Nat) : Tape where
  cells := Array.replicate (max length 1) 0
  cursor := 0
  cursor_lt := by simp only [Array.size_replicate]; omega

def fresh : Tape := blank defaultLength

instance : Inhabited Tape := ⟨fresh⟩

def length (t : Tape) : Nat := t.cells.size

def isEmpty (t : Tape) : Bool := t.length == 0

def read (t : Tape) : Cell :=
  have := t.cursor_lt
  t.cells[t.cursor]

def modify (f : Cell → Cell) : Tape → Tape
  | ⟨cells, cursor, h⟩ => ⟨cells.modify cursor f, cursor, by rwa [Array.size_modify]⟩

def increment : Tape → Tape := modify Cell.bump
def decrement : Tape → Tape := modify Cell.drop
def write (v : Cell) : Tape → Tape := modify fun _ => v

/-- Put the cursor on an index, taken modulo the length. -/
def seek (t : Tape) (index : Nat) : Tape :=
  ⟨t.cells, index % t.cells.size, Nat.mod_lt _ (Nat.zero_lt_of_lt t.cursor_lt)⟩

def moveForward (t : Tape) : Tape := t.seek (t.cursor + 1)
def moveBackward (t : Tape) : Tape := t.seek (t.cursor + t.length - 1)

theorem length_pos (t : Tape) : 0 < t.length := Nat.zero_lt_of_lt t.cursor_lt

@[simp] theorem isEmpty_eq_false (t : Tape) : t.isEmpty = false := by
  have := t.length_pos
  simp [isEmpty]; omega

@[simp] theorem length_modify (f : Cell → Cell) (t : Tape) : (t.modify f).length = t.length := by
  simp [modify, length]

@[simp] theorem cursor_modify (f : Cell → Cell) (t : Tape) : (t.modify f).cursor = t.cursor := rfl

@[simp] theorem read_modify (f : Cell → Cell) (t : Tape) : (t.modify f).read = f t.read := by
  have := t.cursor_lt
  simp [modify, read, Array.getElem_modify]

theorem getElem?_cursor (t : Tape) : t.cells[t.cursor]? = some t.read :=
  Array.getElem?_eq_getElem t.cursor_lt

theorem getElem?_modify_of_ne (f : Cell → Cell) (t : Tape) {i : Nat} (h : i ≠ t.cursor) :
    (t.modify f).cells[i]? = t.cells[i]? := by
  simp only [modify, Array.getElem?_modify]
  rw [if_neg (Ne.symm h)]

theorem modify_modify (f g : Cell → Cell) (t : Tape) : (t.modify f).modify g = t.modify (g ∘ f) := by
  obtain ⟨cells, cursor, h⟩ := t
  simp only [modify, mk.injEq, and_true]
  apply Array.ext_getElem?
  intro i
  simp only [Array.getElem?_modify]
  split <;> simp

theorem modify_eq_self {f : Cell → Cell} {t : Tape} (h : f t.read = t.read) : t.modify f = t := by
  obtain ⟨cells, cursor, hlt⟩ := t
  simp only [modify, mk.injEq, and_true]
  apply Array.ext_getElem?
  intro i
  rw [Array.getElem?_modify]
  split
  next hi =>
    subst hi
    rw [Array.getElem?_eq_getElem hlt]
    exact congrArg some h
  · rfl

@[simp] theorem cursor_moveForward (t : Tape) :
    t.moveForward.cursor = (t.cursor + 1) % t.length := rfl

@[simp] theorem cursor_moveBackward (t : Tape) :
    t.moveBackward.cursor = (t.cursor + t.length - 1) % t.length := rfl

@[simp] theorem cells_seek (t : Tape) (index : Nat) : (t.seek index).cells = t.cells := rfl

@[simp] theorem length_seek (t : Tape) (index : Nat) : (t.seek index).length = t.length := rfl

def nonzero (t : Tape) : List (Nat × Cell) :=
  t.cells.toList.zipIdx.filterMap fun (v, i) => if v = 0 then none else some (i, v)

end Tape

inductive TapeOp where
  | increment
  | decrement
  | moveForward
  | moveBackward
  | write (value : Cell)
deriving DecidableEq, Repr

def Tape.apply (t : Tape) : TapeOp → Tape
  | .increment => t.increment
  | .decrement => t.decrement
  | .moveForward => t.moveForward
  | .moveBackward => t.moveBackward
  | .write v => t.write v

def Tape.applyAll (t : Tape) (ops : List TapeOp) : Tape := ops.foldl Tape.apply t

/-- No operation reaches further than the cell under the cursor. -/
theorem Tape.getElem?_apply_of_ne (t : Tape) (op : TapeOp) {i : Nat} (h : i ≠ t.cursor) :
    (t.apply op).cells[i]? = t.cells[i]? := by
  cases op with
  | increment => exact t.getElem?_modify_of_ne _ h
  | decrement => exact t.getElem?_modify_of_ne _ h
  | moveForward => rfl
  | moveBackward => rfl
  | write v => exact t.getElem?_modify_of_ne _ h

@[simp] theorem Tape.length_apply (t : Tape) (op : TapeOp) : (t.apply op).length = t.length := by
  cases op <;> simp [apply, increment, decrement, moveForward, moveBackward, write]

end TapeLang
