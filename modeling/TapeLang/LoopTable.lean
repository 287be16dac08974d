import TapeLang.Token

/-! Bracket matching. A table gives every bracket of a balanced program the
index of its partner; an unbalanced program has one bracket to blame. -/
namespace TapeLang

inductive Bracket where
  | opening
  | closing
deriving DecidableEq, Repr

def Bracket.toChar : Bracket → Char
  | .opening => '['
  | .closing => ']'

structure UnmatchedBracket where
  kind : Bracket
  pos : Nat
deriving DecidableEq, Repr

/-- For each token index the index of the matching bracket, if it is one. -/
structure LoopTable where
  partner : Array (Option Nat)
deriving DecidableEq, Repr

namespace LoopTable

def link (partner : Array (Option Nat)) (i j : Nat) : Array (Option Nat) :=
  (partner.setIfInBounds i (some j)).setIfInBounds j (some i)

/-- Walk the tokens from index `i` on. The pending opening brackets are kept
innermost first: a closing bracket takes the head, and at the end the head is
the one to blame. -/
def matchFrom (i : Nat) (pending : List (Nat × Token)) (partner : Array (Option Nat)) :
    List Token → Except UnmatchedBracket LoopTable
  | [] =>
    match pending with
    | [] => .ok ⟨partner⟩
    | (_, t) :: _ => .error ⟨.opening, t.pos⟩
  | t :: rest =>
    match t.op with
    | .loopOpen => matchFrom (i + 1) ((i, t) :: pending) partner rest
    | .loopClose =>
      match pending with
      | [] => .error ⟨.closing, t.pos⟩
      | (j, _) :: outer => matchFrom (i + 1) outer (link partner j i) rest
    | _ => matchFrom (i + 1) pending partner rest

def build (tokens : List Token) : Except UnmatchedBracket LoopTable :=
  matchFrom 0 [] (Array.replicate tokens.length none) tokens

def closeOf (table : LoopTable) (i : Nat) : Option Nat :=
  (table.partner[i]?).join.filter (i < ·)

def openOf (table : LoopTable) (i : Nat) : Option Nat :=
  (table.partner[i]?).join.filter (· < i)

def body (table : LoopTable) (i : Nat) : Option (Nat × Nat) :=
  (table.closeOf i).map (i + 1, ·)

end LoopTable
end TapeLang
