import TapeLang.Proofs.Lockstep
import TapeLang.Proofs.Positions
import TapeLang.Proofs.Rehearsal

/-! Comments and positions have no part in a run. A program does what its
instructions alone do, and a fault that names a token by its index there names
it by its position here. -/
namespace TapeLang

namespace Token

def sequenceFrom (start : Nat) (ops : List Instruction) : List Token :=
  (ops.zipIdx start).map fun entry => ⟨entry.1, entry.2⟩

def posIn (tokens : List Token) (i : Nat) : Nat := (tokens[i]?.map Token.pos).getD 0

@[simp] theorem sequenceFrom_cons (start : Nat) (op : Instruction) (ops : List Instruction) :
    sequenceFrom start (op :: ops) = ⟨op, start⟩ :: sequenceFrom (start + 1) ops := by
  simp [sequenceFrom, List.zipIdx_cons]

@[simp] theorem length_sequenceFrom (start : Nat) (ops : List Instruction) :
    (sequenceFrom start ops).length = ops.length := by
  simp [sequenceFrom]

theorem getElem?_sequenceFrom (start : Nat) (ops : List Instruction) (i : Nat) :
    (sequenceFrom start ops)[i]? = ops[i]?.map (⟨·, start + i⟩) := by
  simp [sequenceFrom, List.getElem?_zipIdx, Function.comp_def]

@[simp] theorem map_op_sequenceFrom (start : Nat) (ops : List Instruction) :
    (sequenceFrom start ops).map Token.op = ops := by
  simp [sequenceFrom, Function.comp_def]

theorem posIn_of_getElem? {tokens : List Token} {i : Nat} {tok : Token}
    (h : tokens[i]? = some tok) : posIn tokens i = tok.pos := by
  simp [posIn, h]

end Token

def Fault.pos? : Fault → Option Nat
  | .unmatched bracket => some bracket.pos
  | .io pos _ => some pos
  | .stepLimit _ => none
  | .cancelled => none

def UnmatchedBracket.relocate (place : Nat → Nat) (bracket : UnmatchedBracket) : UnmatchedBracket :=
  ⟨bracket.kind, place bracket.pos⟩

def Fault.relocate (place : Nat → Nat) : Fault → Fault
  | .unmatched bracket => .unmatched (bracket.relocate place)
  | .io pos reason => .io (place pos) reason
  | .stepLimit limit => .stepLimit limit
  | .cancelled => .cancelled

def Outcome.pos? : Outcome → Option Nat
  | .fault f => f.pos?
  | _ => none

def Outcome.relocate (place : Nat → Nat) : Outcome → Outcome
  | .fault f => .fault (f.relocate place)
  | outcome => outcome

theorem Outcome.relocate_eq {place place' : Nat → Nat} {outcome : Outcome}
    (h : ∀ i, outcome.pos? = some i → place i = place' i) :
    outcome.relocate place = outcome.relocate place' := by
  cases outcome with
  | fault f =>
    cases f with
    | unmatched bracket =>
      simp only [relocate, Fault.relocate, UnmatchedBracket.relocate, h bracket.pos rfl]
    | io pos reason => simp only [relocate, Fault.relocate, h pos rfl]
    | stepLimit limit => rfl
    | cancelled => rfl
  | halted => rfl
  | crashed reason => rfl
  | waiting => rfl
  | running => rfl

namespace LoopTable

theorem matchFrom_relocate {place : Nat → Nat} {tokens : List Token} {i : Nat}
    {pending : List (Nat × Token)} (partner : Array (Option Nat))
    (hpending : ∀ entry ∈ pending, place entry.1 = entry.2.pos)
    (htokens : ∀ k tok, tokens[k]? = some tok → place (i + k) = tok.pos) :
    matchFrom i pending partner tokens =
      (matchFrom i (pending.map fun entry => (entry.1, ⟨entry.2.op, entry.1⟩)) partner
        (Token.sequenceFrom i (tokens.map Token.op))).mapError
          (UnmatchedBracket.relocate place) := by
  induction tokens generalizing i pending partner with
  | nil =>
    cases pending with
    | nil => rfl
    | cons entry outer =>
      have hplace := hpending entry List.mem_cons_self
      exact congrArg (fun pos => Except.error (UnmatchedBracket.mk .opening pos)) hplace.symm
  | cons tok rest ih =>
    have hhead : place i = tok.pos := htokens 0 tok rfl
    have hrest : ∀ k tok, rest[k]? = some tok → place (i + 1 + k) = tok.pos := by
      intro k tok' htok'
      rw [Nat.add_assoc, Nat.add_comm 1 k]
      exact htokens (k + 1) tok' htok'
    rw [List.map_cons, Token.sequenceFrom_cons]
    cases tok using Token.byRole with
    | plain op pos =>
      rw [matchFrom_plain, matchFrom_plain]
      exact ih partner hpending hrest
    | opening pos => exact ih partner (List.forall_mem_cons.mpr ⟨hhead, hpending⟩) hrest
    | closing pos =>
      cases pending with
      | nil =>
        exact congrArg (fun pos => Except.error (UnmatchedBracket.mk .closing pos)) hhead.symm
      | cons entry outer =>
        exact ih (link partner entry.1 i) (List.forall_mem_cons.mp hpending).2 hrest

theorem build_relocate (tokens : List Token) :
    build tokens = (build (Token.sequenceFrom 0 (tokens.map Token.op))).mapError
      (UnmatchedBracket.relocate (Token.posIn tokens)) := by
  unfold build
  rw [Token.length_sequenceFrom, List.length_map]
  apply matchFrom_relocate
  · simp
  · intro k tok htok
    rw [Nat.zero_add]
    exact Token.posIn_of_getElem? htok

end LoopTable

section Untraced

variable {w : Wiring} (huntraced : w.traced = false) {p q : Program} {place : Nat → Nat}

include huntraced

theorem Program.exec_relocate (hloops : p.loops = q.loops) {op : Instruction} {pos index : Nat}
    (hplace : place index = pos) (s : State) :
    p.exec w ⟨op, pos⟩ s = (q.exec w ⟨op, index⟩ s).map (Outcome.relocate place) id := by
  subst hplace
  unfold exec
  simp only [State.log_of_untraced huntraced, hloops]
  cases op with
  | increment => rfl
  | decrement => rfl
  | moveForward => rfl
  | moveBackward => rfl
  | output =>
    simp only [Wiring.print, huntraced]
    cases w.output.refusal s.writes.size <;> rfl
  | input =>
    simp only [Wiring.readByte, huntraced]
    rcases s.input.read with ⟨answer, rest⟩
    cases answer <;> rfl
  | loopOpen =>
    cases q.loops.closeOf s.ip with
    | none => rfl
    | some close =>
      simp only []
      split <;> rfl
  | loopClose =>
    cases q.loops.openOf s.ip with
    | none => rfl
    | some start =>
      simp only []
      split <;> rfl

theorem Program.step_relocate (hloops : p.loops = q.loops)
    (htokens : ∀ i, q.tokens[i]? = p.tokens[i]?.map fun tok => Token.mk tok.op i)
    (hplace : ∀ i tok, p.tokens[i]? = some tok → place i = tok.pos) (s : State) :
    p.step w s = (q.step w s).map (Outcome.relocate place) id := by
  unfold step
  rw [htokens]
  cases htok : p.tokens[s.ip]? with
  | none => rfl
  | some tok =>
    cases hset : w.interrupt s with
    | some f =>
      rcases Wiring.eq_of_interrupt hset with rfl | ⟨limit, rfl⟩ <;> rfl
    | none =>
      simp only [Wiring.printRow_of_untraced s _ huntraced]
      exact exec_relocate huntraced hloops (hplace s.ip tok htok) _

/-- A run of tokens is the run of their instructions alone, with the index a fault
names there looked up among the tokens. -/
theorem Wiring.run_relocate (fuel : Nat) (tokens : List Token) (tape : Tape) (input : Input) :
    w.run fuel tokens tape input =
      (w.run fuel (Token.sequenceFrom 0 (tokens.map Token.op)) tape input).map
        (Outcome.relocate (Token.posIn tokens)) id := by
  have hbuild := LoopTable.build_relocate tokens
  cases hplain : LoopTable.build (Token.sequenceFrom 0 (tokens.map Token.op)) with
  | error bracket =>
    rw [hplain] at hbuild
    simp only [run, Program.ofTokens, hbuild, hplain]
    rfl
  | ok loops =>
    rw [hplain] at hbuild
    have hp : Program.ofTokens tokens = .ok ⟨tokens.toArray, loops⟩ := by
      rw [Program.ofTokens, hbuild]
      rfl
    have hq : Program.ofTokens (Token.sequenceFrom 0 (tokens.map Token.op)) =
        .ok ⟨(Token.sequenceFrom 0 (tokens.map Token.op)).toArray, loops⟩ := by
      rw [Program.ofTokens, hplain]
      rfl
    rw [run_of_untraced huntraced hp, run_of_untraced huntraced hq]
    refine Program.runFor_map (Outcome.relocate (Token.posIn tokens)) id rfl (fun s => ?_) fuel
      (State.initial w tape input)
    refine Program.step_relocate huntraced ?_ ?_ ?_ s
    · rfl
    · intro i
      simp [Token.getElem?_sequenceFrom, Function.comp_def]
    · intro i tok htok
      exact Token.posIn_of_getElem? (by simpa using htok)

end Untraced

/-- Two runs that differ in the positions of a fault at most: both faults name the
token at one index, each in its own list. -/
structure Run.AgreesUpToPositions (a b : List Token) (r r' : Run) : Prop where
  state : r.state = r'.state
  outcome : ∃ told : Outcome, (∀ i, told.pos? = some i → i < a.length ∧ i < b.length) ∧
    r.outcome = told.relocate (Token.posIn a) ∧ r'.outcome = told.relocate (Token.posIn b)

namespace Wiring

variable {w : Wiring} {fuel : Nat} {tokens : List Token} {tape : Tape} {input : Input}

theorem exists_mem_of_pos? {pos : Nat}
    (h : (w.run fuel tokens tape input).outcome.pos? = some pos) :
    ∃ tok ∈ tokens, tok.pos = pos := by
  cases houtcome : (w.run fuel tokens tape input).outcome with
  | fault f =>
    rw [houtcome] at h
    cases f with
    | unmatched bracket =>
      cases h
      exact ⟨_, mem_of_unmatched houtcome, rfl⟩
    | io pos' reason =>
      cases h
      rcases mem_of_io houtcome with ⟨-, hmem⟩ | ⟨-, hmem⟩
      · exact ⟨_, hmem, rfl⟩
      · exact ⟨_, hmem, rfl⟩
    | stepLimit limit => cases h
    | cancelled => cases h
  | halted => rw [houtcome] at h; cases h
  | crashed reason => rw [houtcome] at h; cases h
  | waiting => rw [houtcome] at h; cases h
  | running => rw [houtcome] at h; cases h

theorem lt_of_pos?_sequence {ops : List Instruction} {i : Nat}
    (h : (w.run fuel (Token.sequenceFrom 0 ops) tape input).outcome.pos? = some i) :
    i < ops.length := by
  obtain ⟨tok, hmem, rfl⟩ := exists_mem_of_pos? h
  obtain ⟨j, hj⟩ := List.mem_iff_getElem?.mp hmem
  rw [Token.getElem?_sequenceFrom] at hj
  obtain ⟨op, hop, rfl⟩ := Option.map_eq_some_iff.mp hj
  rw [Nat.zero_add]
  exact (List.getElem?_eq_some_iff.mp hop).1

theorem run_agreesUpToPositions (huntraced : w.traced = false) {a b : List Token}
    (h : a.map Token.op = b.map Token.op) :
    (w.run fuel a tape input).AgreesUpToPositions a b (w.run fuel b tape input) := by
  rw [run_relocate huntraced fuel a, run_relocate huntraced fuel b, ← h]
  refine ⟨rfl, _, ?_, rfl, rfl⟩
  intro i hi
  have hlt := lt_of_pos?_sequence hi
  have hlength : b.length = a.length := by simpa using (congrArg List.length h).symm
  rw [List.length_map] at hlt
  exact ⟨hlt, hlength ▸ hlt⟩

end Wiring

def Instruction.isWrittenBy (c : Char) : Bool := (ofChar? c).isSome

section Text

variable (start : Nat) (text : List Char)

theorem tokensFrom_filter (from' : Nat) : tokensFrom start (text.filter Instruction.isWrittenBy) =
    Token.sequenceFrom start ((tokensFrom from' text).map Token.op) := by
  induction text generalizing start from' with
  | nil => rfl
  | cons c text ih =>
    rw [tokensFrom_cons from', List.filter_cons]
    cases hop : Instruction.ofChar? c with
    | none => simpa [Instruction.isWrittenBy, hop] using ih start (from' + 1)
    | some op =>
      simpa [Instruction.isWrittenBy, hop, tokensFrom_cons] using ih (start + 1) (from' + 1)

theorem map_toChar_tokensFrom : (tokensFrom start text).map (fun tok => tok.op.toChar) =
    text.filter Instruction.isWrittenBy := by
  induction text generalizing start with
  | nil => rfl
  | cons c text ih =>
    rw [tokensFrom_cons, List.filter_cons]
    cases hop : Instruction.ofChar? c with
    | none => simpa [Instruction.isWrittenBy, hop] using ih (start + 1)
    | some op =>
      simpa [Instruction.isWrittenBy, hop, Instruction.toChar_of_ofChar? hop] using ih (start + 1)

theorem le_pos_of_mem_tokensFrom {tok : Token} (h : tok ∈ tokensFrom start text) :
    start ≤ tok.pos := by
  induction text generalizing start with
  | nil => cases h
  | cons c text ih =>
    rw [tokensFrom_cons, List.mem_append] at h
    rcases h with h | h
    · obtain ⟨op, -, rfl⟩ := Option.map_eq_some_iff.mp (Option.mem_toList.mp h)
      exact Nat.le_refl start
    · exact Nat.le_of_succ_le (ih (start + 1) h)

theorem pairwise_pos_tokensFrom : (tokensFrom start text).Pairwise fun a b => a.pos < b.pos := by
  induction text generalizing start with
  | nil => exact List.Pairwise.nil
  | cons c text ih =>
    rw [tokensFrom_cons]
    cases Instruction.ofChar? c with
    | none => exact ih (start + 1)
    | some op =>
      refine List.Pairwise.cons ?_ (ih (start + 1))
      intro tok htok
      exact le_pos_of_mem_tokensFrom (start + 1) text htok

theorem countP_before {k : Nat} {tok : Token} (h : (tokensFrom start text)[k]? = some tok) :
    (text.take (tok.pos - start)).countP Instruction.isWrittenBy = k := by
  induction text generalizing start k with
  | nil => cases h
  | cons c text ih =>
    rw [tokensFrom_cons] at h
    cases hop : Instruction.ofChar? c with
    | none =>
      rw [hop] at h
      have hle := le_pos_of_mem_tokensFrom (start + 1) text (List.mem_of_getElem? h)
      rw [show tok.pos - start = tok.pos - (start + 1) + 1 by omega, List.take_succ_cons,
        List.countP_cons_of_neg (by simp [Instruction.isWrittenBy, hop])]
      exact ih (start + 1) h
    | some op =>
      rw [hop] at h
      cases k with
      | zero =>
        cases h
        simp
      | succ k =>
        have hle := le_pos_of_mem_tokensFrom (start + 1) text (List.mem_of_getElem? h)
        rw [show tok.pos - start = tok.pos - (start + 1) + 1 by omega, List.take_succ_cons,
          List.countP_cons_of_pos (by simp [Instruction.isWrittenBy, hop]), ih (start + 1) h]

end Text

theorem tokenize_codeOnly (text : String) :
    tokenize (codeOnly text) = Token.sequenceFrom 0 ((tokenize text).map Token.op) := by
  unfold tokenize codeOnly
  rw [String.toList_ofList]
  exact tokensFrom_filter 0 text.toList 0

/-- Tokens that agree run alike, wherever they stand. A text runs as its instruction
characters alone do: these are its tokens in order, each at the index of its
character and none left out, and a fault at index `k` of the bare instructions is
the fault at the character with `k` instruction characters before it. -/
theorem Wiring.run_blind_to_comments (w : Wiring) (huntraced : w.traced = false) (fuel : Nat)
    (tape : Tape) (input : Input) :
    (∀ a b : List Token, Token.agreeAll a b = true →
      (w.run fuel a tape input).AgreesUpToPositions a b (w.run fuel b tape input)) ∧
    ∀ text : String,
      (codeOnly text).toList = (tokenize text).map (fun tok => tok.op.toChar) ∧
      ((tokenize text).Pairwise fun a b => a.pos < b.pos) ∧
      (∀ tok, tok ∈ tokenize text ↔ text.toList[tok.pos]? = some tok.op.toChar) ∧
      (w.run fuel (tokenize text) tape input).AgreesUpToPositions (tokenize text)
        (tokenize (codeOnly text)) (w.run fuel (tokenize (codeOnly text)) tape input) ∧
      ∀ k, (w.run fuel (tokenize (codeOnly text)) tape input).outcome.pos? = some k →
        ∃ tok, (tokenize text)[k]? = some tok ∧
          (text.toList.take tok.pos).countP Instruction.isWrittenBy = k ∧
          (w.run fuel (tokenize text) tape input).outcome =
            (w.run fuel (tokenize (codeOnly text)) tape input).outcome.relocate
              fun _ => tok.pos := by
  constructor
  · intro a b hagree
    exact run_agreesUpToPositions huntraced (Token.agreeAll_iff.mp hagree)
  intro text
  refine ⟨?_, pairwise_pos_tokensFrom 0 text.toList, fun tok => mem_tokenize_iff, ?_, ?_⟩
  · rw [codeOnly, String.toList_ofList]
    exact (map_toChar_tokensFrom 0 text.toList).symm
  · apply run_agreesUpToPositions huntraced
    rw [tokenize_codeOnly, Token.map_op_sequenceFrom]
  · intro k hk
    rw [tokenize_codeOnly] at hk ⊢
    have hlt := lt_of_pos?_sequence hk
    rw [List.length_map] at hlt
    have htok : (tokenize text)[k]? = some (tokenize text)[k] := List.getElem?_eq_getElem hlt
    refine ⟨_, htok, countP_before 0 text.toList htok, ?_⟩
    rw [run_relocate huntraced fuel (tokenize text)]
    apply Outcome.relocate_eq
    intro i hi
    cases hk.symm.trans hi
    exact Token.posIn_of_getElem? htok

theorem Wiring.run_blind_to_comments_refused_write :
    let w : Wiring := { stdout := .failing "full" }
    let run tokens := w.run 9 tokens (.blank 1) (.standard (.bytes []))
    Token.agreeAll [⟨.increment, 0⟩, ⟨.output, 7⟩] (tokenize "é+ x.") = true ∧
    (run [⟨.increment, 0⟩, ⟨.output, 7⟩]).state = (run (tokenize "é+ x.")).state ∧
    (run (tokenize (codeOnly "é+ x."))).outcome = .fault (.io 1 "full") ∧
    (run (tokenize "é+ x.")).outcome = .fault (.io 4 "full") := by
  intro w run
  obtain ⟨hlists, htexts⟩ := run_blind_to_comments w rfl 9 (.blank 1) (.standard (.bytes []))
  have hagree : Token.agreeAll [⟨.increment, 0⟩, ⟨.output, 7⟩] (tokenize "é+ x.") = true := by
    decide +kernel
  have hbare : (run (tokenize (codeOnly "é+ x."))).outcome = .fault (.io 1 "full") := by
    decide +kernel
  refine ⟨hagree, (hlists _ _ hagree).state, hbare, ?_⟩
  obtain ⟨-, -, -, -, hplaces⟩ := htexts "é+ x."
  obtain ⟨tok, htok, -, houtcome⟩ := hplaces 1 (congrArg Outcome.pos? hbare)
  have hsecond : (tokenize "é+ x.")[1]? = some ⟨.output, 4⟩ := by decide +kernel
  cases hsecond.symm.trans htok
  exact houtcome.trans (congrArg (Outcome.relocate fun _ => 4) hbare)

end TapeLang
