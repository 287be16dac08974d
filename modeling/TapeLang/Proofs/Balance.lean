import TapeLang.LoopTable

/-! Balanced programs. A grammar says which token lists are balanced; their depth,
the number of loops left open, starts and ends at zero and is never below it. -/
namespace TapeLang

inductive Plain where
  | increment
  | decrement
  | moveForward
  | moveBackward
  | output
  | input
deriving DecidableEq, Repr

def Plain.instruction : Plain → Instruction
  | increment => .increment
  | decrement => .decrement
  | moveForward => .moveForward
  | moveBackward => .moveBackward
  | output => .output
  | input => .input

/-- What an instruction is to the loops around it. -/
inductive Role where
  | plain (op : Plain)
  | bracket (kind : Bracket)
deriving DecidableEq, Repr

def Instruction.role : Instruction → Role
  | increment => .plain .increment
  | decrement => .plain .decrement
  | moveForward => .plain .moveForward
  | moveBackward => .plain .moveBackward
  | loopOpen => .bracket .opening
  | loopClose => .bracket .closing
  | output => .plain .output
  | input => .plain .input

@[simp] theorem Plain.role_instruction (op : Plain) : op.instruction.role = .plain op := by
  cases op <;> rfl

@[simp] theorem Plain.instruction_ne_loopOpen (op : Plain) : op.instruction ≠ .loopOpen := by
  cases op <;> decide

@[simp] theorem Plain.instruction_ne_loopClose (op : Plain) : op.instruction ≠ .loopClose := by
  cases op <;> decide

theorem Plain.exists_instruction {op : Instruction} (hopen : op ≠ .loopOpen)
    (hclose : op ≠ .loopClose) : ∃ plain : Plain, plain.instruction = op := by
  cases op with
  | loopOpen => exact absurd rfl hopen
  | loopClose => exact absurd rfl hclose
  | increment => exact ⟨.increment, rfl⟩
  | decrement => exact ⟨.decrement, rfl⟩
  | moveForward => exact ⟨.moveForward, rfl⟩
  | moveBackward => exact ⟨.moveBackward, rfl⟩
  | output => exact ⟨.output, rfl⟩
  | input => exact ⟨.input, rfl⟩

@[elab_as_elim]
theorem Token.byRole {motive : Token → Prop}
    (plain : ∀ (op : Plain) (pos : Nat), motive ⟨op.instruction, pos⟩)
    (opening : ∀ pos : Nat, motive ⟨.loopOpen, pos⟩)
    (closing : ∀ pos : Nat, motive ⟨.loopClose, pos⟩) (t : Token) : motive t := by
  obtain ⟨op, pos⟩ := t
  by_cases hopen : op = .loopOpen
  · exact hopen ▸ opening pos
  by_cases hclose : op = .loopClose
  · exact hclose ▸ closing pos
  obtain ⟨op, rfl⟩ := Plain.exists_instruction hopen hclose
  exact plain op pos

/-- The grammar of balanced programs. -/
inductive Balanced : List Token → Prop where
  | nil : Balanced []
  | plain {t : Token} {rest : List Token} (hopen : t.op ≠ .loopOpen) (hclose : t.op ≠ .loopClose)
      (hrest : Balanced rest) : Balanced (t :: rest)
  | loop {o c : Token} {body rest : List Token} (hopen : o.op = .loopOpen)
      (hclose : c.op = .loopClose) (hbody : Balanced body) (hrest : Balanced rest) :
      Balanced (o :: (body ++ c :: rest))

def Token.rise (t : Token) : Int :=
  match t.op with
  | .loopOpen => 1
  | .loopClose => -1
  | _ => 0

def depth : List Token → Int
  | [] => 0
  | t :: rest => t.rise + depth rest

@[simp] theorem Token.rise_plain (op : Plain) (pos : Nat) :
    Token.rise ⟨op.instruction, pos⟩ = 0 := by
  cases op <;> rfl

theorem Token.rise_of_open {t : Token} (h : t.op = .loopOpen) : t.rise = 1 := by
  simp [rise, h]

theorem Token.rise_of_close {t : Token} (h : t.op = .loopClose) : t.rise = -1 := by
  simp [rise, h]

@[simp] theorem depth_nil : depth [] = 0 := rfl

@[simp] theorem depth_cons (t : Token) (rest : List Token) :
    depth (t :: rest) = t.rise + depth rest := rfl

@[simp] theorem depth_append (left right : List Token) :
    depth (left ++ right) = depth left + depth right := by
  induction left with
  | nil => simp
  | cons t left ih =>
    rw [List.cons_append, depth_cons, depth_cons, ih]
    omega

theorem depth_take_succ {tokens : List Token} {i : Nat} {t : Token} (h : tokens[i]? = some t) :
    depth (tokens.take (i + 1)) = depth (tokens.take i) + t.rise := by
  rw [List.take_add_one, h]
  simp

theorem Balanced.depth_eq_zero {tokens : List Token} (h : Balanced tokens) : depth tokens = 0 := by
  induction h with
  | nil => rfl
  | @plain t rest hopen hclose _ ih =>
    cases t using Token.byRole with
    | plain op pos => simp [ih]
    | opening pos => exact absurd rfl hopen
    | closing pos => exact absurd rfl hclose
  | loop hopen hclose _ _ ihbody ihrest =>
    simp only [depth_cons, depth_append, Token.rise_of_open hopen, Token.rise_of_close hclose,
      ihbody, ihrest]
    omega

theorem Balanced.depth_take_nonneg {tokens : List Token} (h : Balanced tokens) (n : Nat) :
    0 ≤ depth (tokens.take n) := by
  induction h generalizing n with
  | nil => simp
  | @plain t rest hopen hclose _ ih =>
    cases n with
    | zero => simp
    | succ n =>
      cases t using Token.byRole with
      | plain op pos => simpa using ih n
      | opening pos => exact absurd rfl hopen
      | closing pos => exact absurd rfl hclose
  | @loop o c body rest hopen hclose hbody _ ihbody ihrest =>
    cases n with
    | zero => simp
    | succ n =>
      rw [List.take_succ_cons, depth_cons, List.take_append, depth_append,
        Token.rise_of_open hopen]
      have hprefix := ihbody n
      cases hm : n - body.length with
      | zero => simp; omega
      | succ m =>
        have hwhole : body.take n = body := List.take_of_length_le (by omega)
        have htail := ihrest m
        rw [List.take_succ_cons, depth_cons, Token.rise_of_close hclose, hwhole,
          hbody.depth_eq_zero]
        omega

end TapeLang
