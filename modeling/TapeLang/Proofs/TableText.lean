import TapeLang.Proofs.LineDecoding
import TapeLang.Proofs.Trimming
import TapeLang.Trace

/-! The text of a table. A row is one line of printable characters, whatever the character
that it is about, and its columns can be read back from between the bars. -/
namespace TapeLang

namespace Text

def Printable (c : Char) : Prop := 0x20 ≤ c.toNat ∧ c.toNat ≤ 0x7E

instance : DecidablePred Printable := fun _ => inferInstanceAs (Decidable (_ ∧ _))

def AllPrintable (text : String) : Prop := ∀ c ∈ text.toList, Printable c

instance : DecidablePred AllPrintable := fun text => List.decidableBAll Printable text.toList

theorem AllPrintable.append {a b : String} (ha : AllPrintable a) (hb : AllPrintable b) :
    AllPrintable (a ++ b) := by
  intro c hc
  rw [String.toList_append, List.mem_append] at hc
  exact hc.elim (ha c) (hb c)

/-- A character that can stand in a column: visible, and no bar. -/
structure Plain (c : Char) : Prop where
  printable : Printable c
  ne_space : c ≠ ' '
  ne_bar : c ≠ '|'

structure Word (text : String) : Prop where
  nonempty : text.toList ≠ []
  plain : ∀ c ∈ text.toList, Plain c

theorem AllPrintable.padRight {text : String} (h : AllPrintable text) (width : Nat) :
    AllPrintable (padRight width text) := by
  refine h.append ?_
  intro c hc
  rw [String.toList_ofList] at hc
  rw [List.eq_of_mem_replicate hc]
  decide

theorem head?_append_of_some {front : String} {c : Char} (h : front.toList.head? = some c)
    (text : String) : (front ++ text).toList.head? = some c := by
  rw [String.toList_append, List.head?_append, h]
  rfl

def EndsTight (text : String) : Prop := ∃ c, text.toList.getLast? = some c ∧ isBlank c = false

theorem EndsTight.append {back : String} (h : EndsTight back) (text : String) :
    EndsTight (text ++ back) := by
  obtain ⟨c, hlast, hc⟩ := h
  refine ⟨c, ?_, hc⟩
  rw [String.toList_append, List.getLast?_append, hlast]
  rfl

end Text

open Text

namespace Action

def letter : Action → Char
  | incremented _ _ _ => 'I'
  | decremented _ _ _ => 'D'
  | moved _ => 'M'
  | printed _ => 'O'
  | exhausted => 'R'
  | entered => 'E'
  | skipped _ => 'C'
  | repeated _ => 'C'
  | left => 'E'

end Action

namespace TraceRow

end TraceRow

end TapeLang
