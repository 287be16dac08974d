import Mathlib.Data.List.Basic
import Mathlib.Data.List.Induction
import TapeLang.Tape

/-! A series of operations on a tape, taken apart. Where the cursor comes to stand is a
matter of the moves alone, and what a cell comes to hold is a matter of the edits that
met it, in their order. -/
namespace TapeLang

namespace TapeOp

def isMove : TapeOp → Bool
  | .moveForward | .moveBackward => true
  | _ => false

def shift : TapeOp → Int
  | .moveForward => 1
  | .moveBackward => -1
  | _ => 0

def displacement (ops : List TapeOp) : Int := ops.count .moveForward - ops.count .moveBackward

/-- What an operation makes of the number under the cursor, among all whole numbers. -/
def amend (v : Int) : TapeOp → Int
  | .increment => min (v + 1) 2147483647
  | .decrement => if 0 < v then v - 1 else v
  | .write c => c.toInt
  | .moveForward | .moveBackward => v

theorem amend_of_isMove {op : TapeOp} (h : op.isMove = true) (v : Int) : op.amend v = v := by
  cases op with
  | moveForward | moveBackward => rfl
  | increment | decrement | write => cases h

theorem displacement_concat (ops : List TapeOp) (op : TapeOp) :
    displacement (ops ++ [op]) = displacement ops + op.shift := by
  simp only [displacement, List.count_append, List.count_singleton]
  cases op <;> simp [shift] <;> omega

end TapeOp

namespace Tape

variable (t : Tape)

def value? (i : Nat) : Option Int := t.cells[i]?.map Int32.toInt

def place (ops : List TapeOp) : Int := (t.cursor + TapeOp.displacement ops) % t.length

/-- The edits among some operations that find the cursor on cell `i`, in order. -/
def editsAt (i : Nat) (ops : List TapeOp) : List TapeOp :=
  ops.zipIdx.filterMap fun (op, k) =>
    if op.isMove = false ∧ t.place (ops.take k) = i then some op else none

theorem applyAll_concat (ops : List TapeOp) (op : TapeOp) :
    t.applyAll (ops ++ [op]) = (t.applyAll ops).apply op := by
  simp [applyAll]

@[simp] theorem length_applyAll (ops : List TapeOp) : (t.applyAll ops).length = t.length := by
  induction ops using List.reverseRecOn with
  | nil => rfl
  | append_singleton ops op ih => rw [applyAll_concat, length_apply, ih]

theorem cursor_emod_length : (t.cursor : Int) % t.length = t.cursor :=
  Int.emod_eq_of_lt (Int.natCast_nonneg _) (Int.ofNat_lt.mpr t.cursor_lt)

theorem cursor_apply (op : TapeOp) :
    ((t.apply op).cursor : Int) = (t.cursor + op.shift) % t.length := by
  cases op with
  | moveForward => simp [apply, TapeOp.shift]
  | moveBackward =>
    have hpos := t.length_pos
    have hback : ((t.cursor + t.length - 1 : Nat) : Int) = t.cursor + -1 + t.length := by omega
    rw [apply, cursor_moveBackward, Int.natCast_emod, hback, Int.add_emod_right, TapeOp.shift]
  | increment | decrement | write =>
    simp [apply, increment, decrement, write, TapeOp.shift, cursor_emod_length]

theorem cursor_applyAll (ops : List TapeOp) : ((t.applyAll ops).cursor : Int) = t.place ops := by
  induction ops using List.reverseRecOn with
  | nil => simp [applyAll, place, TapeOp.displacement, cursor_emod_length]
  | append_singleton ops op ih =>
    rw [applyAll_concat, cursor_apply, ih, length_applyAll, place, place, Int.emod_add_emod,
      TapeOp.displacement_concat, Int.add_assoc]

theorem value?_modify {f : Cell → Cell} {g : Int → Int}
    (hfg : ∀ c : Cell, (f c).toInt = g c.toInt) (i : Nat) :
    (t.modify f).value? i = (t.value? i).map fun v => if t.cursor = i then g v else v := by
  simp only [value?, modify, Array.getElem?_modify]
  split <;> simp [Function.comp_def, hfg]

theorem value?_apply (op : TapeOp) (i : Nat) :
    (t.apply op).value? i = (t.value? i).map fun v => if t.cursor = i then op.amend v else v := by
  cases op with
  | increment => exact t.value?_modify Cell.toInt_bump i
  | decrement => exact t.value?_modify Cell.toInt_drop i
  | write c => exact t.value?_modify (fun _ => rfl) i
  | moveForward | moveBackward =>
    simp [value?, apply, moveForward, moveBackward, TapeOp.amend, Function.comp_def]

theorem editsAt_concat (i : Nat) (ops : List TapeOp) (op : TapeOp) :
    t.editsAt i (ops ++ [op]) =
      t.editsAt i ops ++ if op.isMove = false ∧ t.place ops = i then [op] else [] := by
  have hbefore : ∀ p ∈ ops.zipIdx, (ops ++ [op]).take p.2 = ops.take p.2 := by
    intro p hp
    exact List.take_append_of_le_length (Nat.le_of_lt (List.snd_lt_of_mem_zipIdx hp))
  rw [editsAt, editsAt, List.zipIdx_append, List.filterMap_append]
  congr 1
  · apply List.filterMap_congr
    intro p hp
    simp only [hbefore p hp]
  · split <;> simp_all

theorem value?_applyAll (i : Nat) (ops : List TapeOp) :
    (t.applyAll ops).value? i = (t.value? i).map ((t.editsAt i ops).foldl TapeOp.amend) := by
  -- from the end, since the cell an operation meets is told by those before it
  induction ops using List.reverseRecOn with
  | nil => simp [applyAll, editsAt]
  | append_singleton ops op ih =>
    have hplace : (t.applyAll ops).cursor = i ↔ t.place ops = i := by
      rw [← cursor_applyAll, Int.ofNat_inj]
    rw [applyAll_concat, value?_apply, ih, editsAt_concat, Option.map_map]
    congr 1
    funext v
    simp only [Function.comp_apply, hplace, List.foldl_append]
    by_cases hi : t.place ops = i
    · cases hmove : op.isMove <;> simp [hi, TapeOp.amend_of_isMove, hmove]
    · simp [hi]

/-- The moves reckoned in 64-bit words: no sum outgrows a word, one is taken from no less
than one, and the words' remainder is the index. -/
structure FitsWords : Prop where
  forward : t.cursor + 1 < UInt64.size
  backward : t.cursor + t.length < UInt64.size
  borrow : 1 ≤ t.cursor + t.length
  forward_eq :
    ((UInt64.ofNat t.cursor + 1) % UInt64.ofNat t.length).toNat = t.moveForward.cursor
  backward_eq :
    ((UInt64.ofNat t.cursor + UInt64.ofNat t.length - 1) % UInt64.ofNat t.length).toNat =
      t.moveBackward.cursor

theorem fitsWords (h : t.length ≤ UInt64.size / 2) : t.FitsWords := by
  have hcursor : t.cursor < t.length := t.cursor_lt
  have hsize : UInt64.size = 18446744073709551616 := rfl
  have hword : ∀ n < UInt64.size, (UInt64.ofNat n).toNat = n := fun n => UInt64.toNat_ofNat_of_lt'
  have hforward : (UInt64.ofNat t.cursor + 1).toNat = t.cursor + 1 := by
    rw [UInt64.toNat_add, hword _ (by omega), UInt64.toNat_one]
    omega
  have hsum : (UInt64.ofNat t.cursor + UInt64.ofNat t.length).toNat = t.cursor + t.length := by
    rw [UInt64.toNat_add, hword _ (by omega), hword _ (by omega)]
    omega
  have hborrow : (1 : UInt64) ≤ UInt64.ofNat t.cursor + UInt64.ofNat t.length := by
    rw [UInt64.le_iff_toNat_le, hsum, UInt64.toNat_one]
    omega
  refine ⟨by omega, by omega, by omega, ?_, ?_⟩
  · rw [UInt64.toNat_mod, hforward, hword _ (by omega), cursor_moveForward]
  · rw [UInt64.toNat_mod, UInt64.toNat_sub_of_le _ _ hborrow, hsum, hword _ (by omega),
      UInt64.toNat_one, cursor_moveBackward]

theorem length_blank (n : Nat) : (blank n).length = max n 1 := Array.size_replicate

theorem value?_blank (n i : Nat) :
    (blank n).value? i = if i < max n 1 then some 0 else none := by
  rw [value?, blank, Array.getElem?_replicate]
  split <;> rfl

/-- A series of operations on any tape, a fresh one of any length or one in use. The cursor
goes round as far as the moves forward outnumber those backward. Each cell is left with
its first value, amended by exactly those increments, decrements and writes, in their
order, that find the cursor, so reckoned, upon it; they amend it as a whole number, so
no cell wraps. Nor do the words in which the moves are reckoned: no array has more bytes
than half the number of words. -/
theorem applyAll_splits_over_cells :
    (∀ n, (blank n).length = max n 1 ∧ (blank n).cursor = 0 ∧
      ∀ i, (blank n).value? i = if i < max n 1 then some 0 else none) ∧
    ∀ (t : Tape) (ops : List TapeOp),
      (t.applyAll ops).length = t.length ∧
      ((t.applyAll ops).cursor : Int) =
        (t.cursor + (ops.count .moveForward - ops.count .moveBackward)) % t.length ∧
      (t.length ≤ UInt64.size / 2 → ∀ k, (t.applyAll (ops.take k)).FitsWords) ∧
      ∀ i, (t.applyAll ops).value? i =
        (t.value? i).map ((t.editsAt i ops).foldl TapeOp.amend) := by
  refine ⟨fun n => ⟨length_blank n, rfl, value?_blank n⟩, fun t ops => ?_⟩
  refine ⟨t.length_applyAll ops, t.cursor_applyAll ops, ?_, fun i => t.value?_applyAll i ops⟩
  intro hlength k
  apply fitsWords
  rwa [length_applyAll]

theorem applyAll_splits_over_cells_across_the_end :
    let t : Tape := ⟨#[0, 0, 2147483646], 2, by decide⟩
    let ops : List TapeOp := [.increment, .increment, .moveForward, .decrement, .increment,
      .moveBackward, .decrement, .moveBackward, .write (-1), .decrement]
    t.length ≤ UInt64.size / 2 ∧ (t.applyAll (ops.take 5)).FitsWords ∧
    (t.applyAll ops).cursor = 1 ∧
    t.editsAt 2 ops = [.increment, .increment, .decrement] ∧
    (t.applyAll ops).value? 2 = some 2147483646 ∧
    (t.applyAll ops).value? 0 = some 1 ∧ (t.applyAll ops).value? 1 = some (-1) := by
  intro t ops
  have hlength : t.length ≤ UInt64.size / 2 := by decide
  obtain ⟨-, hcursor, hwords, hcells⟩ := applyAll_splits_over_cells.2 t ops
  exact ⟨hlength, hwords hlength 5, Int.ofNat_inj.mp hcursor, by decide,
    (hcells 2).trans (by decide), (hcells 0).trans (by decide), (hcells 1).trans (by decide)⟩

end Tape
end TapeLang
