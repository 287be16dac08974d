import Mathlib.Logic.Function.Iterate
import TapeLang.Proofs.Composition

/-! A loop that multiplies. Each round takes one from the current cell and adds a
constant to the cell on its right, so that the loop ends with the product there. -/
namespace TapeLang

theorem Cell.toInt_bump_iterate (k : Nat) (c : Cell) :
    (bump^[k] c).toInt = min (c.toInt + k) 2147483647 := by
  have hlt := Int32.toInt_lt c
  induction k with
  | zero =>
    rw [Function.iterate_zero_apply]
    omega
  | succ k ih =>
    rw [Function.iterate_succ_apply', toInt_bump, ih]
    omega

namespace Tape

variable {t u v : Tape} {k m n : Nat}

def right (t : Tape) : Nat := (t.cursor + 1) % t.length

theorem right_ne_cursor (h : 2 ≤ t.length) : t.right ≠ t.cursor := by
  have hlt : t.cursor < t.length := t.cursor_lt
  unfold right
  by_cases hend : t.cursor + 1 = t.length
  · rw [hend, Nat.mod_self]
    omega
  · rw [Nat.mod_eq_of_lt (by omega)]
    omega

theorem back_from_right (t : Tape) : (t.right + t.length - 1) % t.length = t.cursor := by
  have hlt : t.cursor < t.length := t.cursor_lt
  unfold right
  by_cases hend : t.cursor + 1 = t.length
  · rw [hend, Nat.mod_self, Nat.zero_add, Nat.mod_eq_of_lt (by omega)]
    omega
  · have hinside : (t.cursor + 1) % t.length = t.cursor + 1 := Nat.mod_eq_of_lt (by omega)
    rw [hinside, Nat.add_right_comm, Nat.add_sub_cancel, Nat.add_mod_right, Nat.mod_eq_of_lt hlt]

/-- What `n` rounds make of a tape: they take `n` from the current cell, add `k` that
many times on its right, and leave all else. -/
structure Rounds (k n : Nat) (t u : Tape) : Prop where
  length : u.length = t.length
  cursor : u.cursor = t.cursor
  source : u.read.toInt = t.read.toInt - n
  target : u.cells[t.right]? = t.cells[t.right]?.map Cell.bump^[k * n]
  others : ∀ i, i ≠ t.cursor → i ≠ t.right → u.cells[i]? = t.cells[i]?

theorem Rounds.right_eq (h : Rounds k n t u) : u.right = t.right := by
  rw [right, right, h.length, h.cursor]

theorem Rounds.none (k : Nat) (t : Tape) : Rounds k 0 t t where
  length := rfl
  cursor := rfl
  source := by simp
  target := by simp
  others := fun _ _ _ => rfl

theorem Rounds.trans (htu : Rounds k m t u) (huv : Rounds k n u v) : Rounds k (m + n) t v where
  length := huv.length.trans htu.length
  cursor := huv.cursor.trans htu.cursor
  source := by
    have hfirst := htu.source
    have hsecond := huv.source
    omega
  target := by
    have hsecond := huv.target
    rw [htu.right_eq] at hsecond
    rw [hsecond, htu.target, Option.map_map, ← Function.iterate_add, ← Nat.mul_add, Nat.add_comm n]
  others := by
    intro i hcursor hright
    have hsecond := huv.others i (htu.cursor ▸ hcursor) (htu.right_eq ▸ hright)
    exact hsecond.trans (htu.others i hcursor hright)

theorem increment_iterate (k : Nat) (t : Tape) : increment^[k] t = t.modify Cell.bump^[k] := by
  induction k with
  | zero => exact (modify_eq_self rfl).symm
  | succ k ih =>
    rw [Function.iterate_succ_apply', ih, increment, modify_modify, ← Function.iterate_succ']

def round (k : Nat) (t : Tape) : Tape := (increment^[k] t.moveForward).moveBackward.decrement

theorem rounds_round (k : Nat) (hlength : 2 ≤ t.length) (hpos : 0 < t.read.toInt) :
    Rounds k 1 t (t.round k) := by
  have hne := right_ne_cursor hlength
  let added := t.moveForward.modify Cell.bump^[k]
  have hround : t.round k = added.moveBackward.modify Cell.drop := by
    rw [round, increment_iterate, decrement]
  have haddedLength : added.length = t.length := length_modify _ _
  have haddedCursor : added.cursor = t.right := rfl
  have hcursor : added.moveBackward.cursor = t.cursor := by
    rw [cursor_moveBackward, haddedLength, haddedCursor, back_from_right]
  have hcells : added.moveBackward.cells = added.cells := rfl
  have hread : added.moveBackward.read = t.read := by
    have hcell := added.moveBackward.getElem?_cursor
    rw [hcursor, hcells, getElem?_modify_of_ne _ _ (Ne.symm hne)] at hcell
    exact Option.some.inj (hcell.symm.trans t.getElem?_cursor)
  rw [hround]
  constructor
  · rw [length_modify]
    exact haddedLength
  · exact hcursor
  · rw [read_modify, hread, Cell.toInt_drop, if_pos hpos]
    rfl
  · rw [getElem?_modify_of_ne _ _ (hcursor ▸ hne), hcells, Nat.mul_one]
    have hbefore : t.cells[t.right]? = some t.moveForward.read := t.moveForward.getElem?_cursor
    have hafter : added.cells[t.right]? = some added.read := added.getElem?_cursor
    rw [hafter, hbefore, read_modify, Option.map_some]
  · intro i hi hright
    rw [getElem?_modify_of_ne _ _ (hcursor ▸ hi), hcells, getElem?_modify_of_ne _ _ hright]
    rfl

end Tape

def Effects.advance (e : Effects) (ticks : Nat) (tape : Tape) : Effects :=
  { e with ticks := e.ticks + ticks, tape := tape }

@[simp] theorem Effects.advance_advance (e : Effects) (m n : Nat) (t u : Tape) :
    (e.advance m t).advance n u = e.advance (m + n) u := by
  simp [advance, Nat.add_assoc]

namespace Block

variable {w : Wiring} {e last : Effects} {ending : Ending}

def increments (pos : Nat) : Nat → Block → Block
  | 0, rest => rest
  | k + 1, rest => leaf .increment pos (increments (pos + 1) k rest)

theorem Yields.increments {pos k : Nat} {rest : Block}
    (h : rest.Yields w (e.advance k (Tape.increment^[k] e.tape)) ending last) :
    (increments pos k rest).Yields w e ending last := by
  induction k generalizing pos e with
  | zero => exact h
  | succ k ih =>
    refine .leafNext rfl (ih ?_)
    have hsame : (e.tick.onTape Tape.increment).advance k (Tape.increment^[k + 1] e.tape) =
        e.advance (k + 1) (Tape.increment^[k + 1] e.tape) := by
      simp [Effects.advance, Effects.tick, Effects.onTape, Nat.add_comm, Nat.add_left_comm]
    rwa [← hsame] at h

def multiplyRound (k : Nat) : Block :=
  leaf .moveForward 1 (increments 2 k
    (leaf .moveBackward (k + 2) (leaf .decrement (k + 3) done)))

def multiply (k : Nat) : Block := loop 0 (multiplyRound k) (k + 4) done

theorem yields_multiplyRound (k : Nat) (e : Effects) :
    (multiplyRound k).Yields w e .completed (e.advance (k + 3) (e.tape.round k)) := by
  let forward := e.tape.moveForward
  let added := Tape.increment^[k] forward
  have hdecrement : (leaf .decrement (k + 3) done).Yields w
      (e.advance (k + 2) added.moveBackward) .completed (e.advance (k + 3) (e.tape.round k)) :=
    .leafNext rfl (.done _)
  have hback : (leaf .moveBackward (k + 2) (leaf .decrement (k + 3) done)).Yields w
      (e.advance (k + 1) added) .completed (e.advance (k + 3) (e.tape.round k)) :=
    .leafNext rfl hdecrement
  have hadd : (increments 2 k (leaf .moveBackward (k + 2) (leaf .decrement (k + 3) done))).Yields w
      (e.advance 1 forward) .completed (e.advance (k + 3) (e.tape.round k)) := by
    apply Yields.increments
    rw [Effects.advance_advance, Nat.add_comm 1]
    exact hback
  exact .leafNext rfl hadd

theorem exists_yields_multiply (k v : Nat) (e : Effects) (hlength : 2 ≤ e.tape.length)
    (hv : e.tape.read.toInt = v) :
    ∃ u, (multiply k).Yields w e .completed (e.advance (1 + v * (k + 4)) u) ∧
      e.tape.Rounds k v u := by
  induction v generalizing e with
  | zero =>
    refine ⟨e.tape, .loopSkip ?_ ?_, .none k e.tape⟩
    · rw [Cell.pos_iff, hv]
      exact Int.lt_irrefl 0
    · rw [Nat.zero_mul]
      exact .done e.tick
  | succ v ih =>
    have hpos : 0 < e.tape.read.toInt := by omega
    have hround := Tape.rounds_round k hlength hpos
    let next := e.tick.advance (k + 3) (e.tape.round k)
    have hnext : next.tape.read.toInt = v := by
      have hsource : next.tape.read.toInt = e.tape.read.toInt - 1 := hround.source
      omega
    obtain ⟨u, hrest, hrounds⟩ := ih next (hround.length ▸ hlength) hnext
    have hticks : next.advance (1 + v * (k + 4)) u = e.advance (1 + (v + 1) * (k + 4)) u := by
      simp only [next, Effects.advance, Effects.tick, Nat.succ_mul, Effects.mk.injEq, true_and,
        and_true]
      omega
    refine ⟨u, .loopAgain (Cell.pos_iff.mpr hpos) (yields_multiplyRound k e.tick) ?_, ?_⟩
    · rw [← hticks]
      exact hrest
    · rw [Nat.add_comm]
      exact hround.trans hrounds

end Block

/-- The text of the loop: `[>`, then `k` times `+`, then `<-]`. -/
def multiplyText (k : Nat) : String := "[>" ++ String.ofList (List.replicate k '+') ++ "<-]"

theorem tokensFrom_increments {start k : Nat} {text : List Char} {rest : Block} {after : List Token}
    (h : tokensFrom (start + k) text = rest.tokens ++ after) :
    tokensFrom start (List.replicate k '+' ++ text) =
      (Block.increments start k rest).tokens ++ after := by
  induction k generalizing start with
  | zero => exact h
  | succ k ih =>
    rw [List.replicate_succ, List.cons_append, tokensFrom_cons, Block.increments, Block.tokens,
      ih (by rwa [Nat.add_right_comm])]
    rfl

theorem tokenize_multiplyText (k : Nat) :
    tokenize (multiplyText k) = (Block.multiply k).tokens := by
  have htext : (multiplyText k).toList =
      '[' :: '>' :: (List.replicate k '+' ++ ['<', '-', ']']) := by
    simp [multiplyText]
  have hback : tokensFrom (2 + k) ['<', '-', ']'] =
      (Block.leaf .moveBackward (k + 2) (.leaf .decrement (k + 3) .done)).tokens ++
        [⟨.loopClose, k + 4⟩] := by
    rw [Nat.add_comm]
    rfl
  rw [tokenize, htext, tokensFrom_cons, tokensFrom_cons, tokensFrom_increments hback]
  rfl

namespace Wiring

variable {w : Wiring}

/-- On a tape of two cells or more, the loop with `k` increments ends after one look at the
current cell and `k + 4` instructions for each one in it. It leaves nothing in that
cell and its `k`-fold in the cell on the right, added to what was there, up to the
largest number that a cell holds. The cursor is back where it was, no other cell
has changed, and nothing was read or written. -/
theorem multiply_loop_multiplies (hw : w.Direct) (k : Nat) {tape : Tape} (input : Input)
    (hlength : 2 ≤ tape.length) (hsource : 0 ≤ tape.read.toInt) {target : Cell}
    (htarget : tape.cells[(tape.cursor + 1) % tape.length]? = some target) :
    ∃ n, ∀ fuel ≥ n, ∃ s, w.run fuel (tokenize (multiplyText k)) tape input = ⟨.halted, s⟩ ∧
      (s.ticks : Int) = 1 + tape.read.toInt * (k + 4) ∧
      s.tape.length = tape.length ∧ s.tape.cursor = tape.cursor ∧ s.tape.read = 0 ∧
      (∃ c, s.tape.cells[(tape.cursor + 1) % tape.length]? = some c ∧
        c.toInt = min (target.toInt + k * tape.read.toInt) Int32.maxValue.toInt) ∧
      (∀ i, i ≠ tape.cursor → i ≠ (tape.cursor + 1) % tape.length →
        s.tape.cells[i]? = tape.cells[i]?) ∧
      s.input = input ∧ s.reads = 0 ∧ s.writes = #[] := by
  obtain ⟨v, hv⟩ := Int.eq_ofNat_of_zero_le hsource
  obtain ⟨u, hyields, hrounds⟩ :=
    Block.exists_yields_multiply (w := w) k v { tape, input } hlength hv
  obtain ⟨n, hn⟩ := exists_run_of_yields hw hyields
  refine ⟨n, ?_⟩
  intro fuel hfuel
  obtain ⟨ip, hrun⟩ := hn fuel hfuel
  rw [tokenize_multiplyText, hrun]
  refine ⟨_, rfl, ?_, hrounds.length, hrounds.cursor, ?_, ⟨Cell.bump^[k * v] target, ?_, ?_⟩,
    hrounds.others, rfl, rfl, rfl⟩
  · rw [hv]
    simp [Effects.stateAt, Effects.advance]
  · have hleft := hrounds.source
    rw [hv, Int.sub_self] at hleft
    exact Int32.toInt_inj.mp hleft
  · exact hrounds.target.trans (congrArg _ htarget)
  · rw [hv, Cell.toInt_bump_iterate, Int.natCast_mul]
    rfl

theorem multiply_loop_multiplies_across_the_end :
    let tape : Tape := ⟨#[2147483641, 3], 1, by decide⟩
    2 ≤ tape.length ∧ 0 ≤ tape.read.toInt ∧
    tape.cells[(tape.cursor + 1) % tape.length]? = some 2147483641 ∧
    ∃ fuel s, ({} : Wiring).run fuel (tokenize "[>+++<-]") tape (.standard (.bytes [])) =
        ⟨.halted, s⟩ ∧
      s.ticks = 22 ∧ s.tape.cursor = 1 ∧ s.tape.read = 0 ∧
      ∃ c, s.tape.cells[0]? = some c ∧ c.toInt = 2147483647 := by
  intro tape
  have hlength : 2 ≤ tape.length := by decide
  have hsource : 0 ≤ tape.read.toInt := by decide
  have htarget : tape.cells[(tape.cursor + 1) % tape.length]? = some 2147483641 := by decide
  have hread : tape.read.toInt = 3 := by decide
  have hright : (tape.cursor + 1) % tape.length = 0 := by decide
  obtain ⟨n, hn⟩ := multiply_loop_multiplies (w := {}) ⟨rfl, rfl⟩ 3 (.standard (.bytes [])) hlength
    hsource htarget
  obtain ⟨s, hrun, hticks, -, hcursor, hzero, ⟨c, hc, hvalue⟩, -⟩ := hn n (Nat.le_refl n)
  rw [hread] at hticks hvalue
  rw [hright] at hc
  refine ⟨hlength, hsource, htarget, n, s, hrun, by omega, hcursor, hzero, c, hc, ?_⟩
  rw [hvalue]
  decide

end Wiring
end TapeLang
