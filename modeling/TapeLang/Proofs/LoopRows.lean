import TapeLang.Proofs.Logbook

/-! The rows of brackets. Such a row has one sentence for a positive cell and one for every
other cell, and names the partner of its bracket where the run goes there. The other sentence
calls the cell zero, which the mark for the end of input is not. -/
namespace TapeLang

variable {tokens : List Token} {w : Wiring} {s after : State} {r : TraceRow}

structure Action.Weighs (action : Action) (cell : Cell) (positive other : String) : Prop where
  positive_iff : action.describe = positive ↔ 0 < cell.toInt
  other_iff : action.describe = other ↔ cell.toInt ≤ 0

namespace Action.Weighs

variable {action : Action} {cell : Cell} {positive other : String}

theorem of_positive (hcell : 0 < cell) (h : action.describe = positive)
    (hne : positive.toList.head? ≠ other.toList.head?) : action.Weighs cell positive other := by
  rw [Cell.pos_iff] at hcell
  have hother : action.describe ≠ other := by
    rw [h]
    rintro rfl
    exact hne rfl
  exact ⟨iff_of_true h hcell, iff_of_false hother (Int.not_le.mpr hcell)⟩

theorem of_other (hcell : ¬ 0 < cell) (h : action.describe = other)
    (hne : positive.toList.head? ≠ other.toList.head?) : action.Weighs cell positive other := by
  rw [Cell.pos_iff] at hcell
  have hpositive : action.describe ≠ positive := by
    rw [h]
    rintro rfl
    exact hne rfl
  exact ⟨iff_of_false hpositive hcell, iff_of_true h (Int.not_lt.mp hcell)⟩

end Action.Weighs

/-- What the row of a bracket says, where the machine was in this state before. -/
structure TraceRow.WeighsLoop (tokens : List Token) (s : State) (r : TraceRow) : Prop where
  token_eq : tokens[s.ip]? = some r.token
  cell_eq : r.cell = s.tape.read
  opening : r.token.op = .loopOpen → ∃ (close : Nat) (c : Token),
    Encloses tokens s.ip close ∧ tokens[close]? = some c ∧
    r.action.Weighs r.cell "Enter loop (cell > 0)"
      ("Cell is 0; skip past matching ']' at IP " ++ toString c.pos)
  closing : r.token.op = .loopClose → ∃ (start : Nat) (o : Token),
    Encloses tokens start s.ip ∧ tokens[start]? = some o ∧
    r.action.Weighs r.cell ("Cell > 0; repeat loop from IP " ++ toString o.pos)
      "Exit loop (cell is 0)"

theorem LoopTable.exists_close {table : LoopTable} {i : Nat} {t : Token}
    (hbuild : build tokens = .ok table) (ht : tokens[i]? = some t) (hop : t.op = .loopOpen) :
    ∃ (close : Nat) (c : Token), Encloses tokens i close ∧ tokens[close]? = some c := by
  obtain ⟨close, hclose⟩ := exists_closeOf hbuild ht hop
  have hpair := encloses_of_closeOf hbuild hclose
  obtain ⟨c, hc, -⟩ := Option.map_eq_some_iff.mp hpair.closing
  exact ⟨close, c, hpair, hc⟩

theorem LoopTable.exists_start {table : LoopTable} {i : Nat} {t : Token}
    (hbuild : build tokens = .ok table) (ht : tokens[i]? = some t) (hop : t.op = .loopClose) :
    ∃ (start : Nat) (o : Token), Encloses tokens start i ∧ tokens[start]? = some o := by
  obtain ⟨start, hstart⟩ := exists_openOf hbuild ht hop
  have hpair := encloses_of_closeOf hbuild ((openOf_eq_some_iff hbuild).mp hstart)
  obtain ⟨o, ho, -⟩ := Option.map_eq_some_iff.mp hpair.opening
  exact ⟨start, o, hpair, ho⟩

theorem TraceRow.Reports.weighsLoop {table : LoopTable}
    (hbuild : LoopTable.build tokens = .ok table) (h : r.Reports tokens s after) :
    r.WeighsLoop tokens s := by
  obtain ⟨step, ⟨op, pos⟩, cursor, cell, action⟩ := r
  obtain ⟨-, htok, -, rfl, haction⟩ := h
  refine ⟨htok, rfl, ?_, ?_⟩
  · rintro rfl
    have hne : ∀ c : Token, "Enter loop (cell > 0)".toList.head? ≠
        ("Cell is 0; skip past matching ']' at IP " ++ toString c.pos).toList.head? := by
      intro c
      rw [Text.head?_append_of_some (c := 'C') rfl]
      decide
    cases haction with
    | entered hcell _ =>
      obtain ⟨close, c, hpair, hc⟩ := LoopTable.exists_close hbuild htok rfl
      exact ⟨close, c, hpair, hc, .of_positive hcell rfl (hne c)⟩
    | skipped hcell hpair hc _ => exact ⟨_, _, hpair, hc, .of_other hcell rfl (hne _)⟩
  · rintro rfl
    have hne : ∀ o : Token, ("Cell > 0; repeat loop from IP " ++ toString o.pos).toList.head? ≠
        "Exit loop (cell is 0)".toList.head? := by
      intro o
      rw [Text.head?_append_of_some (c := 'C') rfl]
      decide
    cases haction with
    | repeated hcell hpair ho _ => exact ⟨_, _, hpair, ho, .of_positive hcell rfl (hne _)⟩
    | left hcell _ =>
      obtain ⟨start, o, hpair, ho⟩ := LoopTable.exists_start hbuild htok rfl
      exact ⟨start, o, hpair, ho, .of_other hcell rfl (hne o)⟩

namespace Wiring

theorem exists_logs_of_balanced (hw : w.traced = true) (hout : w.stdout = .accepting)
    (hbalanced : Balanced tokens) (tape : Tape) (input : Input) (fuel : Nat) :
    ∃ rows : List TraceRow, Logs tokens (w.run · tokens tape input) fuel rows ∧
      (State.initial w tape input).Adds rows (w.run fuel tokens tape input).state := by
  obtain ⟨p, hp⟩ := Program.exists_of_balanced hbalanced
  have hrun : (w.run · tokens tape input) = fun k => p.runFor w k (State.initial w tape input) :=
    funext fun k => run_of_accepting hout hp k tape input
  obtain ⟨rows, hlogs⟩ := Program.exists_logs hp hw hout fuel (State.initial w tape input)
  have hadds := hlogs.adds (Nat.le_refl _)
  rw [List.take_length, ← hlogs.ends] at hadds
  refine ⟨rows, ?_, ?_⟩
  · rw [hrun]
    exact hlogs
  · rw [run_of_accepting hout hp]
    exact hadds

/-- In the table of a run the row of a bracket calls its cell positive exactly where it is, and
zero exactly where it is not positive; the bracket that it names is the partner of its own. -/
theorem loop_rows_weigh_cell (hw : w.traced = true) (hout : w.stdout = .accepting)
    (hbalanced : Balanced tokens) (tape : Tape) (input : Input) (fuel : Nat) :
    let run : Nat → Run := fun k => w.run k tokens tape input
    ∃ rows : List TraceRow,
      (run fuel).stdout w =
        Utf8.encode (renderTrace (.heading :: .rule :: rows.map TraceLine.row)) ∧
      rows.length = (run fuel).state.ticks ∧
      ∀ (k : Nat) (r : TraceRow), rows[k]? = some r → r.WeighsLoop tokens (run k).state := by
  intro run
  obtain ⟨p, hp⟩ := Program.exists_of_balanced hbalanced
  obtain ⟨rows, hlogs, hadds⟩ := exists_logs_of_balanced hw hout hbalanced tape input fuel
  refine ⟨rows, ?_, ?_, ?_⟩
  · simp [run, Run.stdout, hadds.trace_eq, hadds.writes_eq, State.initial, heading, hw]
  · rw [hadds.ticks_eq]
    exact (Nat.zero_add _).symm
  · intro k r hr
    exact (hlogs.row hr).weighsLoop (Program.eq_of_ofTokens hp).2

theorem loop_rows_weigh_cell_at_the_mark :
    let w : Wiring := { traced := true }
    let tokens : List Token := [⟨.input, 0⟩, ⟨.loopOpen, 3⟩, ⟨.output, 4⟩, ⟨.loopClose, 7⟩]
    let run : Nat → Run := fun k => w.run k tokens ⟨#[5], 0, by decide⟩ (.standard (.bytes []))
    Balanced tokens ∧ ∃ rows : List TraceRow, rows.length = 2 ∧
      (run 9).stdout w =
        Utf8.encode (renderTrace (.heading :: .rule :: rows.map TraceLine.row)) ∧
      ∀ r, rows[1]? = some r → r.token = ⟨.loopOpen, 3⟩ ∧ r.cell.toInt = -1 ∧
        r.action.describe = "Cell is 0; skip past matching ']' at IP 7" := by
  intro w tokens run
  have hbalanced : Balanced tokens := by decide
  have hbefore : (run 1).state.ip = 1 ∧ (run 1).state.tape.read = Cell.endOfInput ∧
      (run 9).state.ticks = 2 := by decide
  obtain ⟨hip, hread, hticks⟩ := hbefore
  obtain ⟨rows, hstdout, hlength, hrows⟩ :=
    loop_rows_weigh_cell (w := w) rfl rfl hbalanced ⟨#[5], 0, by decide⟩ (.standard (.bytes [])) 9
  refine ⟨hbalanced, rows, hlength.trans hticks, hstdout, ?_⟩
  intro r hr
  obtain ⟨htok, hcell, hopening, -⟩ := hrows 1 r hr
  rw [hip] at htok hopening
  obtain htoken : ⟨.loopOpen, 3⟩ = r.token := Option.some.inj htok
  have hmark : r.cell.toInt = -1 := by rw [hcell, hread, Cell.toInt_endOfInput]
  obtain ⟨close, c, hpair, hc, hweighs⟩ := hopening (by rw [← htoken])
  obtain rfl : close = 3 := hpair.unique ⟨rfl, rfl, by decide, by decide⟩
  obtain rfl : ⟨.loopClose, 7⟩ = c := Option.some.inj hc
  exact ⟨htoken.symm, hmark, hweighs.other_iff.mpr (by omega)⟩

/-- So a row that calls its cell zero may stand beside a cell that is not. -/
theorem loop_row_calls_negative_cell_zero :
    ¬ ∀ (w : Wiring) (tokens : List Token) (tape : Tape) (input : Input) (fuel : Nat)
      (r : TraceRow), w.traced = true → Balanced tokens →
      .row r ∈ (w.run fuel tokens tape input).state.trace.toList →
      r.token.op = .loopOpen ∨ r.token.op = .loopClose →
      ((∃ pos : Nat, r.action.describe =
          "Cell is 0; skip past matching ']' at IP " ++ toString pos) ∨
        r.action.describe = "Exit loop (cell is 0)" ↔ r.cell.toInt = 0) := by
  intro hrows
  have hzero := hrows { traced := true } (tokenize ",[+]") ⟨#[0], 0, by decide⟩
    (.standard (.bytes [])) 9 ⟨2, ⟨.loopOpen, 1⟩, 0, Cell.endOfInput, .skipped 3⟩ rfl (by decide)
    (by decide) (.inl rfl)
  exact absurd (hzero.mp (.inl ⟨3, rfl⟩)) (by decide)

end Wiring
end TapeLang
