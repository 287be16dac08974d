import TapeLang.Proofs.Composition
import TapeLang.Proofs.Printing
import TapeLang.Proofs.UnreadInput

/-! A program that echoes its input. It prints what it reads until a read finds nothing,
or a zero byte, since either of them ends its loop. -/
namespace TapeLang

def Cell.ahead (bytes : Bytes) : Cell := bytes.head?.elim endOfInput ofByte

def Cell.ending (bytes : Bytes) : Cell := if 0 ∈ bytes then 0 else endOfInput

theorem Cell.toInt_ending (bytes : Bytes) :
    (ending bytes).toInt = if 0 ∈ bytes then 0 else -1 := by
  unfold ending
  split <;> rfl

def beforeZero (bytes : Bytes) : Bytes := bytes.takeWhile (· ≠ 0)

theorem Cell.ofByte_pos {b : UInt8} (h : b ≠ 0) : 0 < ofByte b := by
  have hne : b.toNat ≠ 0 := fun hzero => h (UInt8.toNat_inj.mp hzero)
  rw [pos_iff, toInt_ofByte]
  omega

theorem Cell.toNat_toChar_ofByte (b : UInt8) : (ofByte b).toChar.toNat = b.toNat := by
  have hlt := b.toNat_lt
  have hshows := (ofByte b).shows_toChar
  rw [Shows, toInt_ofByte, if_pos (by omega)] at hshows
  omega

theorem Effects.readInto_holding {e : Effects} {source : Source} {bytes : Bytes}
    (h : e.input = source.holding bytes) (pos : Nat) :
    e.readInto pos = (.completed, { e with
      input := source.holding bytes.tail, reads := e.reads + 1,
      tape := e.tape.write (Cell.ahead bytes) }) := by
  unfold readInto
  rw [h]
  cases bytes with
  | nil => cases source <;> rfl
  | cons b rest => cases source <;> rfl

theorem Effects.write_accepting {w : Wiring} (hout : w.output = .accepting) (e : Effects)
    (pos : Nat) : e.write w pos = (.completed,
      { e with writes := e.writes.push (w.mode.encode e.tape.read.toChar) }) := by
  simp only [write, hout, Output.refusal_accepting]

theorem Tape.write_read (t : Tape) : t.write t.read = t := modify_eq_self rfl

theorem Tape.write_write (t : Tape) (a b : Cell) : (t.write a).write b = t.write b :=
  modify_modify _ _ t

/-- What is left of these effects when the program has echoed `bytes`, the first of
which had been read before. -/
def Effects.echoing (e : Effects) (w : Wiring) (source : Source) (bytes : Bytes) : Effects where
  tape := e.tape.write (Cell.ending bytes)
  input := source.holding (bytes.drop ((beforeZero bytes).length + 1))
  ticks := e.ticks + 3 * (beforeZero bytes).length + 1
  reads := e.reads + (beforeZero bytes).length
  writes := e.writes ++
    ((beforeZero bytes).map fun b => w.mode.encode (Cell.ofByte b).toChar).toArray

theorem Effects.echoing_of_last {e : Effects} {w : Wiring} {source : Source} {bytes : Bytes}
    (hnone : beforeZero bytes = []) (hinput : e.input = source.holding bytes.tail)
    (hread : e.tape.read = Cell.ending bytes) : e.echoing w source bytes = e.tick := by
  simp [echoing, hnone, ← hread, Tape.write_read, ← hinput, tick]

theorem Effects.echoing_of_cons {e : Effects} {w : Wiring} {source : Source} {b : UInt8}
    {rest : Bytes} (h : b ≠ 0) (hread : e.tape.read = Cell.ofByte b) :
    Effects.echoing
      { tape := e.tape.write (Cell.ahead rest), input := source.holding rest.tail,
        ticks := e.ticks + 3, reads := e.reads + 1,
        writes := e.writes.push (w.mode.encode e.tape.read.toChar) } w source rest =
      e.echoing w source (b :: rest) := by
  have hbefore : beforeZero (b :: rest) = b :: beforeZero rest := by simp [beforeZero, h]
  have hending : Cell.ending (b :: rest) = Cell.ending rest := by
    simp [Cell.ending, Ne.symm h]
  simp only [echoing, hbefore, hending, hread, Tape.write_write, List.length_cons,
    List.drop_succ_cons, Effects.mk.injEq, true_and]
  refine ⟨by omega, by omega, ?_⟩
  simp

namespace Block

variable {w : Wiring} {source : Source}

def echoLoop : Block := loop 1 (leaf .output 2 (leaf .input 3 done)) 4 done

def echo : Block := leaf .input 0 echoLoop

theorem yields_echoLoop (hout : w.output = .accepting) (bytes : Bytes) (e : Effects)
    (hinput : e.input = source.holding bytes.tail) (hread : e.tape.read = Cell.ahead bytes) :
    echoLoop.Yields w e .completed (e.echoing w source bytes) := by
  induction bytes generalizing e with
  | nil =>
    rw [Effects.echoing_of_last rfl hinput hread]
    refine .loopSkip ?_ (.done _)
    rw [hread]
    decide
  | cons b rest ih =>
    by_cases hzero : b = 0
    · subst hzero
      have hlast : e.tape.read = 0 := hread
      have hending : Cell.ending (0 :: rest) = 0 := if_pos List.mem_cons_self
      rw [Effects.echoing_of_last rfl hinput (hlast.trans hending.symm)]
      refine .loopSkip ?_ (.done _)
      rw [hlast]
      decide
    · have hbyte : e.tape.read = Cell.ofByte b := hread
      have hpos : 0 < e.tape.read := hbyte ▸ Cell.ofByte_pos hzero
      let printed : Effects :=
        { e.tick.tick with writes := e.writes.push (w.mode.encode e.tape.read.toChar) }
      have hreads := @Effects.readInto_holding printed.tick source rest hinput 3
      rw [← Effects.echoing_of_cons hzero hbyte]
      refine .loopAgain hpos (.leafNext (Effects.write_accepting hout _ 2)
        (.leafNext hreads (.done _))) (ih _ ?_ ?_)
      · rfl
      · exact Tape.read_modify _ _

theorem yields_echo (hout : w.output = .accepting) (bytes : Bytes) (tape : Tape) (input : Input) :
    echo.Yields w { tape, input := source.holding bytes } .completed
      (Effects.echoing { tape, input, ticks := 1, reads := 1 } w source bytes) := by
  let e : Effects := { tape, input := source.holding bytes }
  let first : Effects :=
    { tape := tape.write (Cell.ahead bytes), input := source.holding bytes.tail,
      ticks := 1, reads := 1 }
  have hreads := @Effects.readInto_holding e.tick source bytes rfl 0
  have hloop := yields_echoLoop hout bytes first rfl (Tape.read_modify _ _)
  have hsame : first.echoing w source bytes =
      Effects.echoing { tape, input, ticks := 1, reads := 1 } w source bytes := by
    simp only [Effects.echoing, first, Tape.write_write]
  rw [← hsame]
  exact .leafNext hreads hloop

end Block

/-- Whatever the input, the tape and the cursor, the program comes to its end. It prints
every byte ahead of the first zero byte as the character with that code, one call
each, and has then made one read more, which found the zero byte or the end of the
input and left it in the current cell. The bytes behind that are not read, and the rest
of the tape is as it was. -/
theorem Wiring.echo_prints_up_to_zero {w : Wiring} (hw : w.Direct) (hmode : w.mode = .raw)
    (hout : w.output = .accepting) (source : Source) (bytes : Bytes) (tape : Tape) :
    ∃ n, ∀ fuel ≥ n, ∃ s,
      w.run fuel (tokenize ",[.,]") tape (source.holding bytes) = ⟨.halted, s⟩ ∧
      s.writes.size = (beforeZero bytes).length ∧
      (∀ (k : Nat) (b : UInt8), (beforeZero bytes)[k]? = some b →
        ∃ c : Char, c.toNat = b.toNat ∧ s.writes[k]? = some (String.utf8EncodeChar c)) ∧
      s.reads = (beforeZero bytes).length + 1 ∧
      s.ticks = 3 * (beforeZero bytes).length + 2 ∧
      s.tape.read.toInt = (if 0 ∈ bytes then 0 else -1) ∧
      s.tape.cursor = tape.cursor ∧ s.tape.length = tape.length ∧
      (∀ i, i ≠ tape.cursor → s.tape.cells[i]? = tape.cells[i]?) ∧
      s.input = source.holding (bytes.drop ((beforeZero bytes).length + 1)) := by
  have hyields := @Block.yields_echo w source hout bytes tape (source.holding bytes)
  obtain ⟨n, hn⟩ := exists_run_of_yields hw hyields
  refine ⟨n, ?_⟩
  intro fuel hfuel
  obtain ⟨ip, hrun⟩ := hn fuel hfuel
  have htokens : tokenize ",[.,]" = Block.echo.tokens := by decide
  rw [htokens, hrun]
  refine ⟨_, rfl, ?_, ?_, ?_, ?_, ?_, rfl, Tape.length_modify _ _, ?_, rfl⟩
  · simp [Effects.stateAt, Effects.echoing]
  · intro k b hb
    refine ⟨(Cell.ofByte b).toChar, Cell.toNat_toChar_ofByte b, ?_⟩
    simp [Effects.stateAt, Effects.echoing, hb, hmode, OutputMode.encode]
  · simp only [Effects.stateAt, Effects.echoing, Nat.add_comm]
  · simp only [Effects.stateAt, Effects.echoing]
    omega
  · have hread : (tape.write (Cell.ending bytes)).read = Cell.ending bytes := Tape.read_modify _ _
    simp only [Effects.stateAt, Effects.echoing, hread, Cell.toInt_ending]
  · intro i hi
    exact tape.getElem?_modify_of_ne _ hi

theorem Wiring.echo_prints_up_to_zero_accented :
    let w : Wiring := { mode := .raw, collected := true }
    let bytes : Bytes := [233, 0, 66]
    w.Direct ∧ w.mode = .raw ∧ w.output = .accepting ∧ beforeZero bytes = [233] ∧
    ∃ fuel s, w.run fuel (tokenize ",[.,]") (.blank 1) (Source.queue.holding bytes) =
        ⟨.halted, s⟩ ∧
      s.writes.size = 1 ∧ s.writes[0]? = some [195, 169] ∧ s.reads = 2 ∧ s.ticks = 5 ∧
      s.tape.read.toInt = 0 ∧ s.input = Source.queue.holding [66] := by
  intro w bytes
  have hw : w.Direct := ⟨rfl, rfl⟩
  have hbefore : beforeZero bytes = [233] := by decide
  obtain ⟨n, hn⟩ := echo_prints_up_to_zero hw rfl rfl .queue bytes (.blank 1)
  obtain ⟨s, hrun, hsize, hcall, hreads, hticks, hread, -, -, -, hrest⟩ := hn n (Nat.le_refl n)
  rw [hbefore] at hsize hreads hticks hrest
  obtain ⟨c, hc, hwrite⟩ := hcall 0 233 (by rw [hbefore]; rfl)
  have hletter : c = 'é' := Char.toNat_inj.mp hc
  subst hletter
  exact ⟨hw, rfl, rfl, hbefore, n, s, hrun, hsize, hwrite, hreads, hticks, hread, hrest⟩

end TapeLang
