import TapeLang.Instruction

/-! Program texts as tokens. A token remembers where its character stood, so
that errors can point at it; comparing tokens ignores that place. -/
namespace TapeLang

/-- An instruction and the index of its character in the text, counted in
characters. -/
structure Token where
  op : Instruction
  pos : Nat
deriving DecidableEq, Repr, Inhabited

/-- Two tokens agree when their instructions do, wherever they stand. -/
def Token.agrees (a b : Token) : Bool := a.op == b.op

def Token.agreeAll (a b : List Token) : Bool := a.isEqv b Token.agrees

theorem Token.agreeAll_iff {a b : List Token} :
    agreeAll a b = true ↔ a.map Token.op = b.map Token.op := by
  unfold agreeAll
  induction a generalizing b with
  | nil => cases b <;> simp [List.isEqv]
  | cons t rest ih => cases b <;> simp [List.isEqv, agrees, ih]

def Token.ofIndexed (entry : Char × Nat) : Option Token :=
  (Instruction.ofChar? entry.1).map (⟨·, entry.2⟩)

def tokensFrom (start : Nat) (text : List Char) : List Token :=
  (text.zipIdx start).filterMap Token.ofIndexed

def tokenize (text : String) : List Token := tokensFrom 0 text.toList

def codeOnly (text : String) : String :=
  String.ofList (text.toList.filter fun c => (Instruction.ofChar? c).isSome)

@[simp] theorem tokensFrom_nil (start : Nat) : tokensFrom start [] = [] := rfl

theorem tokensFrom_cons (start : Nat) (c : Char) (text : List Char) :
    tokensFrom start (c :: text) =
      ((Instruction.ofChar? c).map (⟨·, start⟩)).toList ++ tokensFrom (start + 1) text := by
  unfold tokensFrom
  rw [List.zipIdx_cons, List.filterMap_cons]
  cases h : Instruction.ofChar? c <;> simp [Token.ofIndexed, h]

end TapeLang
