import TapeLang.Proofs.Bounds
import TapeLang.Proofs.Chronicle
import TapeLang.Proofs.ExecutionPaths
import TapeLang.Proofs.Printing
import TapeLang.Proofs.TableText

/-! The table of a traced run is a log of it. An instruction adds one row, which records
where the machine stood and what the instruction did, and a step that executes nothing adds
none. So the rows follow the run from state to state: what a row says of the state it leads
to is what the next one begins with. -/
namespace TapeLang

variable {tokens : List Token} {p : Program} {w : Wiring} {s after : State} {tok : Token}

/-- What an instruction did between two states. A jump leads past the bracket it names. -/
inductive Action.Accounts (tokens : List Token) (s after : State) :
    Instruction → Action → Prop where
  | incremented {v : Cell} (hread : after.tape.read = v) :
      Accounts tokens s after .increment (.incremented s.tape.cursor s.tape.read v)
  | decremented {v : Cell} (hread : after.tape.read = v) :
      Accounts tokens s after .decrement (.decremented s.tape.cursor s.tape.read v)
  | movedForward {i : Nat} (hcursor : after.tape.cursor = i) :
      Accounts tokens s after .moveForward (.moved i)
  | movedBackward {i : Nat} (hcursor : after.tape.cursor = i) :
      Accounts tokens s after .moveBackward (.moved i)
  | printed {c : Char} (hshows : s.tape.read.Shows c) : Accounts tokens s after .output (.printed c)
  | exhausted (hread : after.tape.read = Cell.endOfInput) :
      Accounts tokens s after .input .exhausted
  | entered (hcell : 0 < s.tape.read) (hip : after.ip = s.ip + 1) :
      Accounts tokens s after .loopOpen .entered
  | skipped {close : Nat} {c : Token} (hcell : ¬ 0 < s.tape.read)
      (hpair : Encloses tokens s.ip close) (htok : tokens[close]? = some c)
      (hip : after.ip = close + 1) : Accounts tokens s after .loopOpen (.skipped c.pos)
  | repeated {start : Nat} {o : Token} (hcell : 0 < s.tape.read)
      (hpair : Encloses tokens start s.ip) (htok : tokens[start]? = some o)
      (hip : after.ip = start + 1) : Accounts tokens s after .loopClose (.repeated o.pos)
  | left (hcell : ¬ 0 < s.tape.read) (hip : after.ip = s.ip + 1) :
      Accounts tokens s after .loopClose .left

structure TraceRow.Reports (tokens : List Token) (s after : State) (r : TraceRow) : Prop where
  step_eq : r.step = s.ticks + 1
  token_eq : tokens[s.ip]? = some r.token
  cursor_eq : r.cursor = s.tape.cursor
  cell_eq : r.cell = s.tape.read
  action : r.action.Accounts tokens s after r.token.op

structure State.Adds (rows : List TraceRow) (s after : State) : Prop where
  trace_eq : after.trace.toList = s.trace.toList ++ rows.map .row
  ticks_eq : after.ticks = s.ticks + rows.length
  writes_eq : after.writes = s.writes

theorem State.Adds.none (s : State) : s.Adds [] s := ⟨by simp, rfl, rfl⟩

theorem State.Adds.cons {r : TraceRow} {rows : List TraceRow} {t : State} (h : s.Adds [r] after)
    (hrest : after.Adds rows t) : s.Adds (r :: rows) t where
  trace_eq := by
    rw [hrest.trace_eq, h.trace_eq]
    simp
  ticks_eq := by
    rw [hrest.ticks_eq, h.ticks_eq]
    simp only [List.length_cons, List.length_nil]
    omega
  writes_eq := by rw [hrest.writes_eq, h.writes_eq]

namespace Program

theorem posAt_of_getElem? {i : Nat} (htokens : p.tokens = tokens.toArray)
    (h : tokens[i]? = some tok) : p.posAt i = tok.pos := by
  simp [posAt, htokens, h]

theorem adds_log (hw : w.traced = true) (action : Action) (f : Tape → Tape) (ip : Nat) :
    s.Adds [⟨s.ticks + 1, tok, s.tape.cursor, s.tape.read, action⟩]
      (((State.log { s with ticks := s.ticks + 1 } w tok action).goto ip).onTape f) where
  trace_eq := by simp [State.log, hw, State.goto, State.onTape]
  ticks_eq := by simp [State.log, hw, State.goto, State.onTape]
  writes_eq := by simp [State.log, hw, State.goto, State.onTape]

theorem exec_of_traced (hp : ofTokens tokens = .ok p) (hw : w.traced = true)
    (hexec : p.executes w s = some tok) :
    ∃ r after, p.exec w tok { s with ticks := s.ticks + 1 } = .next after ∧ s.Adds [r] after ∧
      r.Reports tokens s after := by
  obtain ⟨htokens, hbuild⟩ := eq_of_ofTokens hp
  have htok : tokens[s.ip]? = some tok := by
    have hsame := getElem?_of_executes hexec
    rwa [htokens, List.getElem?_toArray] at hsame
  have hrow : ∀ {action : Action} {f : Tape → Tape} {ip : Nat},
      action.Accounts tokens s
        (((State.log { s with ticks := s.ticks + 1 } w tok action).goto ip).onTape f) tok.op →
      ∃ r after,
        Step.next (((State.log { s with ticks := s.ticks + 1 } w tok action).goto ip).onTape f) =
          .next after ∧
        s.Adds [r] after ∧ r.Reports tokens s after := by
    intro action f ip haction
    exact ⟨_, _, rfl, adds_log hw action f ip, rfl, htok, rfl, rfl, haction⟩
  obtain ⟨op, pos⟩ := tok
  unfold exec
  cases op with
  | increment => exact hrow (.incremented (by simp [Tape.increment]))
  | decrement => exact hrow (.decremented (by simp [Tape.decrement]))
  | moveForward => exact hrow (.movedForward (by simp))
  | moveBackward => exact hrow (.movedBackward (by simp))
  | output =>
    simp only [Wiring.print, hw, if_true]
    exact hrow (f := id) (.printed (Cell.shows_toChar _))
  | input =>
    simp only [Wiring.readByte, hw, if_true]
    exact hrow (.exhausted (by simp [Tape.write]))
  | loopOpen =>
    obtain ⟨close, hclose⟩ := LoopTable.exists_closeOf hbuild htok rfl
    have hpair := LoopTable.encloses_of_closeOf hbuild hclose
    obtain ⟨c, hc, -⟩ := Option.map_eq_some_iff.mp hpair.closing
    simp only [hclose, posAt_of_getElem? htokens hc]
    split
    next hcell => exact hrow (f := id) (.entered hcell rfl)
    next hcell => exact hrow (f := id) (.skipped hcell hpair hc rfl)
  | loopClose =>
    obtain ⟨start, hstart⟩ := LoopTable.exists_openOf hbuild htok rfl
    have hpair := LoopTable.encloses_of_closeOf hbuild
      ((LoopTable.openOf_eq_some_iff hbuild).mp hstart)
    obtain ⟨o, ho, -⟩ := Option.map_eq_some_iff.mp hpair.opening
    simp only [hstart, posAt_of_getElem? htokens ho]
    split
    next hcell => exact hrow (f := id) (.repeated hcell hpair ho rfl)
    next hcell => exact hrow (f := id) (.left hcell rfl)

theorem step_of_traced (hp : ofTokens tokens = .ok p) (hw : w.traced = true)
    (hrow : w.rowRefusal s = none) (hexec : p.executes w s = some tok) :
    ∃ r after, p.step w s = .next after ∧ s.Adds [r] after ∧ r.Reports tokens s after := by
  obtain ⟨r, after, hnext, hadds, hreports⟩ := exec_of_traced hp hw hexec
  refine ⟨r, after, ?_, hadds, hreports⟩
  rw [step_of_executes hexec, Wiring.printRow_of_printed _ hrow, hnext]

end Program

/-- Rows that follow a run: each reports one instruction, after `k` instructions the table
has the first `k` of them, and where the rows end so does the run or its fuel. -/
structure Logs (tokens : List Token) (run : Nat → Run) (fuel : Nat) (rows : List TraceRow) :
    Prop where
  row : ∀ {k : Nat} {r : TraceRow}, rows[k]? = some r →
    r.Reports tokens (run k).state (run (k + 1)).state
  running : ∀ {k : Nat}, k ≤ rows.length → (run k).outcome = .running
  adds : ∀ {k : Nat}, k ≤ rows.length → (run 0).state.Adds (rows.take k) (run k).state
  ends : (run fuel).state = (run rows.length).state
  stopped : rows.length < fuel → (run fuel).outcome ≠ .running

theorem Logs.empty {run : Nat → Run} {fuel : Nat} (hstart : (run 0).outcome = .running)
    (hends : (run fuel).state = (run 0).state)
    (hstopped : 0 < fuel → (run fuel).outcome ≠ .running) : Logs tokens run fuel [] where
  row h := by simp at h
  running := by
    intro k hk
    rwa [Nat.le_zero.mp hk]
  adds := by
    intro k hk
    rw [Nat.le_zero.mp hk]
    exact .none _
  ends := hends
  stopped := hstopped

theorem Program.exists_logs (hp : ofTokens tokens = .ok p) (hw : w.traced = true)
    (hout : w.stdout = .accepting) (fuel : Nat) (s : State) :
    ∃ rows, Logs tokens (fun k => p.runFor w k s) fuel rows := by
  induction fuel generalizing s with
  | zero => exact ⟨[], .empty rfl rfl (by simp)⟩
  | succ fuel ih =>
    cases hexec : p.executes w s with
    | none =>
      obtain ⟨outcome, hstop, -⟩ := step_of_idle hexec
      refine ⟨[], .empty rfl ?_ ?_⟩
      · simp only [runFor_succ_of_stop hstop]
        rfl
      · intro _
        simp only [runFor_succ_of_stop hstop]
        rintro rfl
        exact step_ne_stop_running p w s s hstop
    | some tok =>
      obtain ⟨r, after, hnext, hadds, hreports⟩ := step_of_traced hp hw (w.rowRefusal_of_accepting s hout) hexec
      obtain ⟨rows, hrows⟩ := ih after
      have hlater := runFor_succ_of_next hnext
      refine ⟨r :: rows, ?_, ?_, ?_, ?_, ?_⟩
      · rintro (_ | k) r' hr'
        · cases hr'
          simp only [hlater]
          exact hreports
        · simp only [hlater]
          exact hrows.row hr'
      · rintro (_ | k) hk
        · rfl
        · simp only [hlater]
          exact hrows.running (Nat.le_of_succ_le_succ hk)
      · rintro (_ | k) hk
        · exact .none s
        · simp only [hlater]
          exact hadds.cons (hrows.adds (Nat.le_of_succ_le_succ hk))
      · simp only [List.length_cons, hlater]
        exact hrows.ends
      · intro hlt
        simp only [hlater]
        exact hrows.stopped (Nat.lt_of_succ_lt_succ hlt)

namespace Wiring

end Wiring
end TapeLang
