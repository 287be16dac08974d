import TapeLang.Execution
import TapeLang.Proofs.Bounds
import TapeLang.Proofs.Consumption

/-! Where a fault lies. A token stands where its character does in the text. The
matcher blames a bracket it was given and the machine an input or output
instruction it has come to, so every fault with a position names a token. -/
namespace TapeLang

theorem mem_tokenize_iff {text : String} {tok : Token} :
    tok ∈ tokenize text ↔ text.toList[tok.pos]? = some tok.op.toChar := by
  unfold tokenize tokensFrom
  rw [List.mem_filterMap]
  constructor
  · rintro ⟨⟨c, i⟩, hmem, htok⟩
    rw [List.mk_mem_zipIdx_iff_getElem?] at hmem
    obtain ⟨op, hop, rfl⟩ := Option.map_eq_some_iff.mp htok
    rw [hmem, Instruction.toChar_of_ofChar? hop]
  · intro hchar
    refine ⟨(tok.op.toChar, tok.pos), List.mk_mem_zipIdx_iff_getElem?.mpr hchar, ?_⟩
    simp [Token.ofIndexed, Instruction.ofChar?_toChar]

def Bracket.instruction : Bracket → Instruction
  | opening => .loopOpen
  | closing => .loopClose

namespace LoopTable

theorem mem_of_matchFrom {tokens : List Token} {i : Nat} {pending : List (Nat × Token)}
    {partner : Array (Option Nat)} {kind : Bracket} {pos : Nat}
    (hpending : ∀ entry ∈ pending, entry.2.op = .loopOpen)
    (h : matchFrom i pending partner tokens = .error ⟨kind, pos⟩) :
    (∃ j, (j, ⟨kind.instruction, pos⟩) ∈ pending) ∨ ⟨kind.instruction, pos⟩ ∈ tokens := by
  induction tokens generalizing i pending partner with
  | nil =>
    cases pending with
    | nil => cases h
    | cons entry outer =>
      cases h
      have hop : entry.2.op = Bracket.opening.instruction := hpending entry List.mem_cons_self
      exact .inl ⟨entry.1, by rw [← hop]; exact List.mem_cons_self⟩
  | cons tok rest ih =>
    cases tok using Token.byRole with
    | plain op tokPos =>
      rw [matchFrom_plain] at h
      exact (ih hpending h).imp_right (List.mem_cons_of_mem _)
    | opening tokPos =>
      rcases ih (List.forall_mem_cons.mpr ⟨rfl, hpending⟩) h with ⟨j, hmem⟩ | hmem
      · rcases List.mem_cons.mp hmem with heq | houter
        · rw [(Prod.mk.inj heq).2]
          exact .inr List.mem_cons_self
        · exact .inl ⟨j, houter⟩
      · exact .inr (List.mem_cons_of_mem _ hmem)
    | closing tokPos =>
      cases pending with
      | nil =>
        cases h
        exact .inr List.mem_cons_self
      | cons entry outer =>
        rcases ih (List.forall_mem_cons.mp hpending).2 h with ⟨j, hmem⟩ | hmem
        · exact .inl ⟨j, List.mem_cons_of_mem _ hmem⟩
        · exact .inr (List.mem_cons_of_mem _ hmem)

theorem mem_of_build {tokens : List Token} {kind : Bracket} {pos : Nat}
    (h : build tokens = .error ⟨kind, pos⟩) : ⟨kind.instruction, pos⟩ ∈ tokens := by
  rcases mem_of_matchFrom (by simp) h with ⟨j, hmem⟩ | hmem
  · cases hmem
  · exact hmem

end LoopTable

theorem Input.eq_failing {input : Input} {reason : String}
    (h : input.read.1 = .failed reason ∨ input.read.2 = .standard (.failing reason)) :
    input = .standard (.failing reason) := by
  cases input with
  | standard source =>
    cases source with
    | failing reason' =>
      rcases h with h | h <;> cases h <;> rfl
    | bytes rest =>
      cases rest <;> rcases h with h | h <;> cases h
  | queue q =>
    obtain ⟨bytes, closed⟩ := q
    cases bytes <;> cases closed <;> rcases h with h | h <;> cases h

namespace Program

variable {p : Program} {w : Wiring} {s t : State}

/-- A source that cannot be read was like that from the start. -/
theorem Reaches.failing {reason : String} (h : p.Reaches w s t)
    (ht : t.input = .standard (.failing reason)) : s.input = .standard (.failing reason) := by
  induction h with
  | refl => exact ht
  | @tail t u _ hnext ih =>
    apply ih
    have hstep : (p.step w t).state.input = .standard (.failing reason) := by
      rw [hnext]
      exact ht
    rcases input_step p w t with ⟨hread, -⟩ | ⟨hsame, -⟩
    · exact Input.eq_failing (.inr (hread.symm.trans hstep))
    · exact hsame.symm.trans hstep

end Program

namespace Wiring

variable {w : Wiring} {fuel : Nat} {tokens : List Token} {tape : Tape} {input : Input} {pos : Nat}

theorem mem_of_unmatched {kind : Bracket}
    (h : (w.run fuel tokens tape input).outcome = .fault (.unmatched ⟨kind, pos⟩)) :
    ⟨kind.instruction, pos⟩ ∈ tokens := by
  apply LoopTable.mem_of_build
  cases hbuild : LoopTable.build tokens with
  | error bracket =>
    simp only [run, Program.ofTokens, hbuild, Except.map] at h
    cases h
    rfl
  | ok table =>
    have hbalanced := LoopTable.exists_build_iff_balanced.mp ⟨table, hbuild⟩
    exact absurd h (w.run_ne_unmatched tape input hbalanced fuel _)

theorem mem_of_io {reason : String}
    (h : (w.run fuel tokens tape input).outcome = .fault (.io pos reason)) :
    ((∃ calls, w.output.refusal calls = some reason) ∧ ⟨.output, pos⟩ ∈ tokens) ∨
      (input = .standard (.failing reason) ∧ ⟨.input, pos⟩ ∈ tokens) := by
  cases hp : Program.ofTokens tokens with
  | error bracket =>
    simp only [run, hp] at h
    cases h
  | ok p =>
    simp only [run, hp] at h
    split at h
    · cases h
    rcases p.reaches_or_ends w fuel (State.initial w tape input) with ⟨hrunning, -⟩ | ⟨s, hs, hstop⟩
    · rw [hrunning] at h
      cases h
    rw [h] at hstop
    obtain ⟨tok, htok, hlimit | hblames⟩ := Program.fault_of_step hstop
    · rcases Wiring.eq_of_interrupt hlimit with hf | ⟨limit, hf⟩ <;> cases hf
    have hmem : tok ∈ tokens := by
      rw [(Program.eq_of_ofTokens hp).1, List.getElem?_toArray] at htok
      exact List.mem_of_getElem? htok
    cases hblames with
    | write hop hfail => exact .inl ⟨⟨_, hfail⟩, hop ▸ hmem⟩
    | read hop hfail => exact .inr ⟨hs.failing (Input.eq_failing (.inl hfail)), hop ▸ hmem⟩

end Wiring
end TapeLang
