import TapeLang.Proofs.Bounds
import TapeLang.Proofs.Chronicle

/-! What cells come to hold over a series of runs on one tape. Nothing takes a cell
below the end-of-input mark, or further below than it began, and only a read that
finds no byte leaves a mark. -/
namespace TapeLang

/-- How a cell may change; `marked` says whether a read put the end-of-input mark
into it meanwhile. -/
structure Cell.Becomes (marked : Prop) (before after : Cell) : Prop where
  floor : min before.toInt (-1) ≤ after.toInt
  negative : 0 ≤ before.toInt → after.toInt < 0 → after.toInt = -1 ∧ marked

namespace Cell.Becomes

variable {marked marked' : Prop} {a b c : Cell}

theorem refl (a : Cell) : a.Becomes marked a where
  floor := Int.min_le_left _ _
  negative := by omega

theorem trans (hab : a.Becomes marked b) (hbc : b.Becomes marked' c) :
    a.Becomes (marked ∨ marked') c where
  floor := by
    have hfirst := hab.floor
    have hsecond := hbc.floor
    omega
  negative := by
    intro ha hc
    have hfloor := hbc.floor
    rcases Int.lt_or_le b.toInt 0 with hb | hb
    · obtain ⟨hmark, hmarked⟩ := hab.negative ha hb
      exact ⟨by omega, .inl hmarked⟩
    · obtain ⟨hmark, hmarked⟩ := hbc.negative hb hc
      exact ⟨hmark, .inr hmarked⟩

theorem of_nonneg (h : 0 ≤ b.toInt) : a.Becomes marked b where
  floor := by omega
  negative := by omega

theorem bump (a : Cell) : a.Becomes marked a.bump := by
  have hvalue := a.toInt_bump
  have hlt := Int32.toInt_lt a
  constructor <;> omega

theorem drop (a : Cell) : a.Becomes marked a.drop := by
  have hvalue := a.toInt_drop
  split at hvalue <;> constructor <;> omega

theorem endOfInput (h : marked) (a : Cell) : a.Becomes marked endOfInput where
  floor := by
    rw [toInt_endOfInput]
    exact Int.min_le_right _ _
  negative := fun _ _ => ⟨toInt_endOfInput, h⟩

end Cell.Becomes

/-- How a tape may change while reads mark the cells at the indices `marks`. -/
structure Tape.Evolves (marks : List Nat) (t u : Tape) : Prop where
  length : u.length = t.length
  cell : ∀ (i : Nat) (c c' : Cell), t.cells[i]? = some c → u.cells[i]? = some c' →
    c.Becomes (i ∈ marks) c'

namespace Tape.Evolves

variable {marks marks' : List Nat} {t u v : Tape}

theorem of_cells_eq (h : u.cells = t.cells) : t.Evolves marks u where
  length := congrArg Array.size h
  cell := by
    intro i c c' hc hc'
    rw [h, hc] at hc'
    cases hc'
    exact .refl c

theorem trans (htu : t.Evolves marks u) (huv : u.Evolves marks' v) :
    t.Evolves (marks ++ marks') v where
  length := huv.length.trans htu.length
  cell := by
    intro i a c ha hc
    have hlt : i < u.cells.size := by
      have hsize : u.cells.size = t.cells.size := htu.length
      rw [hsize]
      exact (Array.getElem?_eq_some_iff.mp ha).1
    have hb : u.cells[i]? = some u.cells[i] := Array.getElem?_eq_getElem hlt
    have hac := (htu.cell i _ _ ha hb).trans (huv.cell i _ _ hb hc)
    rwa [← List.mem_append] at hac

theorem modify {f : Cell → Cell} (hf : ∀ c : Cell, c.Becomes (t.cursor ∈ marks) (f c)) :
    t.Evolves marks (t.modify f) where
  length := t.length_modify f
  cell := by
    intro i c c' hc hc'
    by_cases hi : i = t.cursor
    · subst hi
      rw [Tape.modify, Array.getElem?_modify, if_pos rfl, hc] at hc'
      cases hc'
      exact hf c
    · rw [getElem?_modify_of_ne f t hi, hc] at hc'
      cases hc'
      exact .refl c

end Tape.Evolves

/-- Where an instruction leaves the end-of-input mark: an input instruction under the
cursor, if it finds no byte or is traced. -/
def Wiring.marks (w : Wiring) (tok : Token) (s : State) : List Nat :=
  if tok.op = .input ∧ (w.traced = true ∨ s.input.read.1 = .endOfInput) then [s.tape.cursor]
  else []

theorem Wiring.marks_of_exhausted {w : Wiring} {tok : Token} {s : State} (hop : tok.op = .input)
    (h : w.traced = true ∨ s.input.read.1 = .endOfInput) : w.marks tok s = [s.tape.cursor] :=
  if_pos ⟨hop, h⟩

namespace Program

variable (p : Program) (w : Wiring) (tok : Token) (s : State)

def marks : List Nat :=
  match p.executes w s with
  | some tok => w.marks tok s
  | none => []

theorem evolves_readByte (hop : tok.op = .input) :
    s.tape.Evolves (w.marks tok s) (w.readByte tok s).state.tape := by
  unfold Wiring.readByte
  split
  next htraced =>
    rw [Wiring.marks_of_exhausted hop (.inl htraced)]
    simp only [Step.state, State.tape_onTape, State.tape_goto, State.tape_log]
    exact .modify (.endOfInput List.mem_cons_self)
  split
  next b rest hread => exact .modify fun _ => .of_nonneg (by simp [Cell.toInt_ofByte])
  next rest hread =>
    rw [Wiring.marks_of_exhausted hop (.inr (congrArg Prod.fst hread))]
    exact .modify (.endOfInput List.mem_cons_self)
  · exact .of_cells_eq rfl
  · exact .of_cells_eq rfl

theorem evolves_exec : s.tape.Evolves (w.marks tok s) (p.exec w tok s).state.tape := by
  obtain ⟨op, pos⟩ := tok
  unfold exec
  cases op with
  | increment =>
    simp only [Step.state, State.tape_onTape, State.tape_goto, State.tape_log]
    exact .modify .bump
  | decrement =>
    simp only [Step.state, State.tape_onTape, State.tape_goto, State.tape_log]
    exact .modify .drop
  | moveForward => exact .of_cells_eq (by simp [Step.state, Tape.moveForward])
  | moveBackward => exact .of_cells_eq (by simp [Step.state, Tape.moveBackward])
  | output =>
    refine .of_cells_eq ?_
    simp only [Wiring.print]
    split
    · simp [Step.state]
    split <;> rfl
  | input => exact evolves_readByte w _ s rfl
  | loopOpen =>
    refine .of_cells_eq ?_
    simp only []
    split
    · rfl
    split <;> simp [Step.state]
  | loopClose =>
    refine .of_cells_eq ?_
    simp only []
    split
    · rfl
    split <;> simp [Step.state]

theorem evolves_step : s.tape.Evolves (p.marks w s) (p.step w s).state.tape := by
  unfold marks
  cases htok : p.executes w s with
  | none =>
    rw [state_step_of_idle htok]
    exact .of_cells_eq rfl
  | some tok =>
    rw [step_of_executes htok, Wiring.tape_printRow]
    exact p.evolves_exec w tok { s with ticks := s.ticks + 1 }

theorem evolves_runFor (fuel : Nat) :
    s.tape.Evolves (p.notesFor w (p.marks w) fuel s) (p.runFor w fuel s).state.tape :=
  runFor_of_notes (R := fun marks s t => s.tape.Evolves marks t.tape)
    (fun _ => .of_cells_eq rfl) .trans (p.evolves_step w) fuel s

end Program

/-- One run in a series on the same tape, followed for at most `fuel` steps. -/
structure Stint where
  wiring : Wiring
  tokens : List Token
  input : Input
  fuel : Nat

namespace Stint

def run (st : Stint) (tape : Tape) : Run := st.wiring.run st.fuel st.tokens tape st.input

def marks (st : Stint) (tape : Tape) : List Nat :=
  st.wiring.notes (Program.marks · st.wiring) st.fuel st.tokens tape st.input

theorem evolves_run (st : Stint) (tape : Tape) :
    tape.Evolves (st.marks tape) (st.run tape).state.tape := by
  unfold run marks
  rcases st.wiring.run_and_notes (Program.marks · st.wiring) st.fuel st.tokens tape st.input with
    ⟨hnotes, trace, hstate⟩ | ⟨p, hnotes, hrun⟩
  · rw [hstate]
    exact .of_cells_eq rfl
  · rw [hnotes, hrun]
    exact p.evolves_runFor st.wiring (State.initial st.wiring tape st.input) st.fuel

end Stint

namespace Tape

def after (tape : Tape) : List Stint → Tape
  | [] => tape
  | st :: rest => (st.run tape).state.tape.after rest

def marksDuring (tape : Tape) : List Stint → List Nat
  | [] => []
  | st :: rest => st.marks tape ++ (st.run tape).state.tape.marksDuring rest

theorem evolves_after (tape : Tape) (stints : List Stint) :
    tape.Evolves (tape.marksDuring stints) (tape.after stints) := by
  induction stints generalizing tape with
  | nil => exact .of_cells_eq rfl
  | cons st rest ih => exact (st.evolves_run tape).trans (ih (st.run tape).state.tape)

theorem Evolves.exists_before {marks : List Nat} {t u : Tape} (h : t.Evolves marks u) {i : Nat}
    {c : Cell} (hc : u.cells[i]? = some c) : ∃ first, t.cells[i]? = some first := by
  have hlt := (Array.getElem?_eq_some_iff.mp hc).1
  have hsize : u.cells.size = t.cells.size := h.length
  exact ⟨t.cells[i], Array.getElem?_eq_getElem (hsize ▸ hlt)⟩

/-- A series of runs on one tape, whatever they run, however they are wired and
however they end; the last may be cut anywhere, so this holds on the way too. The
tape keeps its length and its cursor, and no cell wraps round or falls below the
end-of-input mark unless it began there. Of cells that begin at zero or above,
only those are negative that a read found no byte for, or a traced one, and they
hold the mark: a run without such a read makes no cell negative. -/
theorem cells_stay_in_range (tape : Tape) (stints : List Stint) :
    (tape.after stints).length = tape.length ∧
    (tape.after stints).cursor < (tape.after stints).length ∧
    (∀ (i : Nat) (c : Cell), (tape.after stints).cells[i]? = some c →
      c.toInt ≤ Int32.maxValue.toInt ∧
        ∃ first, tape.cells[i]? = some first ∧ min first.toInt (-1) ≤ c.toInt) ∧
    ((∀ first ∈ tape.cells, 0 ≤ first.toInt) →
      ∀ (i : Nat) (c : Cell), (tape.after stints).cells[i]? = some c → c.toInt < 0 →
        c.toInt = -1 ∧ i ∈ tape.marksDuring stints) ∧
    (∀ st : Stint, st.marks (tape.after stints) = [] →
      ∀ (i : Nat) (c c' : Cell), (tape.after stints).cells[i]? = some c → 0 ≤ c.toInt →
        (st.run (tape.after stints)).state.tape.cells[i]? = some c' → 0 ≤ c'.toInt) := by
  have hevolves := tape.evolves_after stints
  refine ⟨hevolves.length, (tape.after stints).cursor_lt, ?_, ?_, ?_⟩
  · intro i c hc
    obtain ⟨first, hfirst⟩ := hevolves.exists_before hc
    exact ⟨Int32.toInt_le c, first, hfirst, (hevolves.cell i first c hfirst hc).floor⟩
  · intro hstart i c hc hnegative
    obtain ⟨first, hfirst⟩ := hevolves.exists_before hc
    have hnonneg := hstart first (Array.mem_of_getElem? hfirst)
    exact (hevolves.cell i first c hfirst hc).negative hnonneg hnegative
  · intro st hmarks i c c' hc hnonneg hc'
    have hrun := (st.evolves_run (tape.after stints)).cell i c c' hc hc'
    rw [hmarks] at hrun
    apply Int.not_lt.mp
    intro hnegative
    exact List.not_mem_nil (hrun.negative hnonneg hnegative).2

theorem cells_stay_in_range_marked :
    let first : Stint := ⟨{}, [⟨.input, 0⟩], .standard (.bytes []), 9⟩
    let second : Stint := ⟨{ traced := true, control := some { maxSteps := some 3 } },
      [⟨.decrement, 0⟩, ⟨.moveForward, 1⟩, ⟨.decrement, 2⟩, ⟨.input, 3⟩], .standard (.bytes []), 9⟩
    (∀ c ∈ (Tape.blank 2).cells, 0 ≤ c.toInt) ∧
    ((Tape.blank 2).after [first, second]).cells = #[-1, 0] ∧
    0 ∈ (Tape.blank 2).marksDuring [first, second] ∧
    second.marks ((Tape.blank 2).after [first]) = [] ∧
    (∀ c, (second.run ((Tape.blank 2).after [first])).state.tape.cells[1]? = some c →
      0 ≤ c.toInt) := by
  intro first second
  have hstart : ∀ c ∈ (Tape.blank 2).cells, 0 ≤ c.toInt := by
    intro c hc
    rw [Array.eq_of_mem_replicate hc]
    decide
  have hcells : ((Tape.blank 2).after [first, second]).cells = #[-1, 0] := by decide
  have hsecond : second.marks ((Tape.blank 2).after [first]) = [] := by decide
  obtain ⟨-, -, -, hmarked, -⟩ := cells_stay_in_range (.blank 2) [first, second]
  obtain ⟨-, -, -, -, hquiet⟩ := cells_stay_in_range (.blank 2) [first]
  refine ⟨hstart, hcells, ?_, hsecond, ?_⟩
  · exact (hmarked hstart 0 (-1) (by rw [hcells]; rfl) (by decide)).2
  · intro c
    exact hquiet second hsecond 1 0 c (by decide) (by decide)

end Tape
end TapeLang
