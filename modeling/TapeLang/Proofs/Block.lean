import TapeLang.Proofs.Balance

/-! Programs as trees. Reading a tree off a token list succeeds exactly on the
balanced ones and undoes writing the tree down, so a tree is a balanced list
with its nesting made explicit. -/
namespace TapeLang

/-- A program as a tree. A loop holds its body, and every part what follows it. -/
inductive Block where
  | done
  | leaf (op : Plain) (pos : Nat) (rest : Block)
  | loop (openPos : Nat) (body : Block) (closePos : Nat) (rest : Block)
deriving DecidableEq, Repr

namespace Block

def tokens : Block → List Token
  | done => []
  | leaf op pos rest => ⟨op.instruction, pos⟩ :: rest.tokens
  | loop openPos body closePos rest =>
    ⟨.loopOpen, openPos⟩ :: (body.tokens ++ ⟨.loopClose, closePos⟩ :: rest.tokens)

def size (b : Block) : Nat := b.tokens.length

@[simp] theorem size_done : size done = 0 := rfl

@[simp] theorem size_leaf (op : Plain) (pos : Nat) (rest : Block) :
    (leaf op pos rest).size = rest.size + 1 := rfl

@[simp] theorem size_loop (openPos closePos : Nat) (body rest : Block) :
    (loop openPos body closePos rest).size = body.size + rest.size + 2 := by
  simp only [size, tokens, List.length_cons, List.length_append]
  omega

def append : Block → Block → Block
  | done, after => after
  | leaf op pos rest, after => leaf op pos (rest.append after)
  | loop openPos body closePos rest, after => loop openPos body closePos (rest.append after)

@[simp] theorem tokens_append (b after : Block) :
    (b.append after).tokens = b.tokens ++ after.tokens := by
  induction b with
  | done => rfl
  | leaf op pos rest ih => simp [append, tokens, ih]
  | loop openPos body closePos rest _ ih => simp [append, tokens, ih]

@[simp] theorem append_done (b : Block) : b.append done = b := by
  induction b with
  | done => rfl
  | leaf op pos rest ih => rw [append, ih]
  | loop openPos body closePos rest _ ih => rw [append, ih]

theorem balanced_tokens (b : Block) : Balanced b.tokens := by
  induction b with
  | done => exact .nil
  | leaf op pos rest ih =>
    exact .plain op.instruction_ne_loopOpen op.instruction_ne_loopClose ih
  | loop openPos body closePos rest ihbody ihrest => exact .loop rfl rfl ihbody ihrest

def prepend (t : Token) (b : Block) (later : List (Nat × Block)) :
    Option (Block × List (Nat × Block)) :=
  match t.op.role, later with
  | .plain op, _ => some (leaf op t.pos b, later)
  | .bracket .closing, _ => some (done, (t.pos, b) :: later)
  | .bracket .opening, (closePos, after) :: later => some (loop t.pos b closePos after, later)
  | .bracket .opening, [] => none

/-- Read from the last token to the first. The result is the tree up to the
first closing bracket without a partner, and for each such bracket its
position and the tree after it. -/
def parseFrom : List Token → Option (Block × List (Nat × Block))
  | [] => some (done, [])
  | t :: rest => (parseFrom rest).bind fun parsed => prepend t parsed.1 parsed.2

def parse (tokens : List Token) : Option Block :=
  (parseFrom tokens).bind fun parsed => if parsed.2 = [] then some parsed.1 else none

/-- The tokens after a tree whose closing brackets are still to be opened. -/
def laterTokens (later : List (Nat × Block)) : List Token :=
  later.flatMap fun entry => ⟨.loopClose, entry.1⟩ :: entry.2.tokens

theorem tokens_of_prepend {t : Token} {b b' : Block} {later later' : List (Nat × Block)}
    (h : prepend t b later = some (b', later')) :
    b'.tokens ++ laterTokens later' = t :: (b.tokens ++ laterTokens later) := by
  cases t using Token.byRole with
  | plain op pos =>
    simp only [prepend, Plain.role_instruction] at h
    cases h
    rfl
  | opening pos =>
    cases later with
    | nil => cases h
    | cons entry later =>
      cases h
      simp [tokens, laterTokens]
  | closing pos =>
    cases h
    simp [tokens, laterTokens]

theorem tokens_of_parseFrom {input : List Token} {b : Block} {later : List (Nat × Block)}
    (h : parseFrom input = some (b, later)) : b.tokens ++ laterTokens later = input := by
  induction input generalizing b later with
  | nil =>
    cases h
    rfl
  | cons t rest ih =>
    obtain ⟨⟨b₀, later₀⟩, hrest, hprepend⟩ := Option.bind_eq_some_iff.mp h
    rw [tokens_of_prepend hprepend, ih hrest]

theorem parseFrom_tokens_append {rest : List Token} {after : Block} {later : List (Nat × Block)}
    (h : parseFrom rest = some (after, later)) (b : Block) :
    parseFrom (b.tokens ++ rest) = some (b.append after, later) := by
  induction b generalizing rest after later with
  | done => exact h
  | leaf op pos next ih =>
    simp [tokens, append, parseFrom, ih h, prepend]
  | loop openPos body closePos next ihbody ihnext =>
    have hclose : parseFrom (⟨.loopClose, closePos⟩ :: (next.tokens ++ rest)) =
        some (done, (closePos, next.append after) :: later) := by
      rw [parseFrom, ihnext h]
      rfl
    simp only [tokens, append, List.cons_append, List.append_assoc]
    rw [parseFrom, ihbody hclose, append_done]
    rfl

theorem parse_eq_some_iff {input : List Token} {b : Block} :
    parse input = some b ↔ b.tokens = input := by
  constructor
  · intro h
    obtain ⟨⟨b', later⟩, hfrom, hend⟩ := Option.bind_eq_some_iff.mp h
    split at hend
    next hnil =>
      cases hend
      have := tokens_of_parseFrom hfrom
      simpa [show later = [] from hnil, laterTokens] using this
    next => cases hend
  · intro h
    have hnil : parseFrom [] = some (done, []) := rfl
    have hfrom := parseFrom_tokens_append hnil b
    rw [List.append_nil, append_done, h] at hfrom
    simp [parse, hfrom]

end Block

theorem Balanced.exists_block {tokens : List Token} (h : Balanced tokens) :
    ∃ b : Block, b.tokens = tokens := by
  induction h with
  | nil => exact ⟨.done, rfl⟩
  | @plain t rest hopen hclose _ ih =>
    obtain ⟨b, rfl⟩ := ih
    obtain ⟨op, hop⟩ := Plain.exists_instruction hopen hclose
    exact ⟨.leaf op t.pos b, by rw [Block.tokens, hop]⟩
  | @loop o c body rest hopen hclose _ _ ihbody ihrest =>
    obtain ⟨body, rfl⟩ := ihbody
    obtain ⟨rest, rfl⟩ := ihrest
    exact ⟨.loop o.pos body c.pos rest, by rw [Block.tokens, ← hopen, ← hclose]⟩

theorem balanced_iff_isSome_parse {tokens : List Token} :
    Balanced tokens ↔ (Block.parse tokens).isSome := by
  rw [Option.isSome_iff_exists]
  constructor
  · intro h
    obtain ⟨b, hb⟩ := h.exists_block
    exact ⟨b, Block.parse_eq_some_iff.mpr hb⟩
  · rintro ⟨b, hb⟩
    rw [← Block.parse_eq_some_iff.mp hb]
    exact b.balanced_tokens

instance (tokens : List Token) : Decidable (Balanced tokens) :=
  decidable_of_iff' _ balanced_iff_isSome_parse

end TapeLang
