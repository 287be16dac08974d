import Mathlib.Data.Nat.Digits.Defs
import TapeLang.Text.Numeral

/-! What a numeral is. The digits are read from the left into a number that must not grow
too large on the way; that is as good as looking at the value of all of them, since a
number never gets smaller by reading on. -/
namespace TapeLang.Text.Numeral

def AllDigits (text : List Char) : Prop := ∀ c ∈ text, c.isDigit = true

def value (digits : List Char) : Nat :=
  Nat.ofDigits 10 (digits.reverse.map fun c => c.toNat - '0'.toNat)

def unsigned : List Char → List Char
  | '+' :: rest => rest
  | text => text

/-- A number below the bound, written in digits behind an optional plus sign. -/
structure Spells (text : List Char) (n : Nat) : Prop where
  nonempty : unsigned text ≠ []
  digits : AllDigits (unsigned text)
  value_eq : value (unsigned text) = n
  small : n < bound

/-- The digits that a text begins with, or some of them, reach the bound. -/
def Overflows (text : List Char) : Prop :=
  ∃ digits rest, unsigned text = digits ++ rest ∧ AllDigits digits ∧ bound ≤ value digits

def valueFrom (n : Nat) (digits : List Char) : Nat :=
  digits.foldl (fun n c => 10 * n + (c.toNat - '0'.toNat)) n

theorem value_eq_valueFrom (digits : List Char) : value digits = valueFrom 0 digits := by
  rw [value, Nat.ofDigits_eq_foldr, List.map_reverse, List.foldr_reverse, List.foldl_map, valueFrom]
  simp only [Nat.cast_id, Nat.add_comm]

theorem valueFrom_cons (n : Nat) (c : Char) (digits : List Char) :
    valueFrom n (c :: digits) = valueFrom (10 * n + (c.toNat - '0'.toNat)) digits := by
  simp only [valueFrom, List.foldl_cons]

theorem le_valueFrom (n : Nat) (digits : List Char) : n ≤ valueFrom n digits := by
  induction digits generalizing n with
  | nil => exact Nat.le_refl n
  | cons c digits ih =>
    have hrest := ih (10 * n + (c.toNat - '0'.toNat))
    rw [valueFrom_cons]
    omega

theorem allDigits_cons {c : Char} {text : List Char} :
    AllDigits (c :: text) ↔ c.isDigit = true ∧ AllDigits text := List.forall_mem_cons

theorem digit?_eq_some {c : Char} {d : Nat} (h : digit? c = some d) :
    c.isDigit = true ∧ d = c.toNat - '0'.toNat := by
  unfold digit? at h
  split at h
  next hdigit => exact ⟨hdigit, (Option.some.inj h).symm⟩
  · cases h

theorem digit?_eq_none {c : Char} (h : digit? c = none) : c.isDigit = false := by
  unfold digit? at h
  split at h
  · cases h
  next hdigit => simpa using hdigit

theorem readDigits_eq_ok_iff {n m : Nat} {text : List Char} (h : n < bound) :
    readDigits n text = .ok m ↔ AllDigits text ∧ valueFrom n text = m ∧ m < bound := by
  fun_induction readDigits n text with
  | case1 n =>
    constructor
    · intro hread
      cases hread
      exact ⟨by simp [AllDigits], rfl, h⟩
    · rintro ⟨-, rfl, -⟩
      rfl
  | case2 n c rest hnone => simp [allDigits_cons, digit?_eq_none hnone]
  | case3 n c rest d hsome hsmall ih =>
    obtain ⟨hdigit, rfl⟩ := digit?_eq_some hsome
    rw [ih hsmall, allDigits_cons, valueFrom_cons]
    simp [hdigit]
  | case4 n c rest d hsome hlarge =>
    obtain ⟨hdigit, rfl⟩ := digit?_eq_some hsome
    constructor
    · intro hread
      cases hread
    · rintro ⟨-, hvalue, hsmall⟩
      have hle := le_valueFrom (10 * n + (c.toNat - '0'.toNat)) rest
      rw [valueFrom_cons] at hvalue
      omega

def Grows (n : Nat) (text : List Char) : Prop :=
  ∃ digits rest, text = digits ++ rest ∧ AllDigits digits ∧ bound ≤ valueFrom n digits

theorem Grows.of_le {n : Nat} (h : bound ≤ n) (text : List Char) : Grows n text :=
  ⟨[], text, rfl, by simp [AllDigits], h⟩

theorem not_grows_nil {n : Nat} (h : n < bound) : ¬ Grows n [] := by
  rintro ⟨digits, rest, hempty, -, hlarge⟩
  obtain ⟨rfl, -⟩ := List.append_eq_nil_iff.mp hempty.symm
  exact Nat.not_le.mpr h hlarge

theorem grows_cons {n : Nat} (h : n < bound) {c : Char} {text : List Char} :
    Grows n (c :: text) ↔ c.isDigit = true ∧ Grows (10 * n + (c.toNat - '0'.toNat)) text := by
  constructor
  · rintro ⟨digits, rest, hsplit, hdigits, hlarge⟩
    cases digits with
    | nil => exact absurd hlarge (Nat.not_le.mpr h)
    | cons d digits =>
      obtain ⟨rfl, htext⟩ := List.cons.inj hsplit
      obtain ⟨hdigit, hmore⟩ := allDigits_cons.mp hdigits
      exact ⟨hdigit, digits, rest, htext, hmore, valueFrom_cons .. ▸ hlarge⟩
  · rintro ⟨hdigit, digits, rest, rfl, hdigits, hlarge⟩
    exact ⟨c :: digits, rest, rfl, allDigits_cons.mpr ⟨hdigit, hdigits⟩, valueFrom_cons .. ▸ hlarge⟩

theorem readDigits_eq_tooLarge_iff {n : Nat} {text : List Char} (h : n < bound) :
    readDigits n text = .error .tooLarge ↔ Grows n text := by
  fun_induction readDigits n text with
  | case1 n => simp [not_grows_nil h]
  | case2 n c rest hnone => simp [grows_cons h, digit?_eq_none hnone]
  | case3 n c rest d hsome hsmall ih =>
    obtain ⟨hdigit, rfl⟩ := digit?_eq_some hsome
    rw [ih hsmall, grows_cons h]
    simp [hdigit]
  | case4 n c rest d hsome hlarge =>
    obtain ⟨hdigit, rfl⟩ := digit?_eq_some hsome
    have hgrows := Grows.of_le (Nat.le_of_not_lt hlarge) rest
    exact iff_of_true rfl ((grows_cons h).mpr ⟨hdigit, hgrows⟩)

theorem readDigits_ne_empty (n : Nat) (text : List Char) : readDigits n text ≠ .error .empty := by
  fun_induction readDigits n text with
  | case1 => simp
  | case2 => simp
  | case3 _ _ _ _ _ _ ih => exact ih
  | case4 => simp

theorem bound_pos : 0 < bound := by decide

theorem parseChars_cases (text : List Char) :
    (unsigned text ≠ [] ∧ parseChars text = readDigits 0 (unsigned text)) ∨
      (text = [] ∧ parseChars text = .error .empty) ∨
      (text = ['+'] ∧ parseChars text = .error .invalidDigit) := by
  fun_cases parseChars text with
  | case1 => exact .inr (.inl ⟨rfl, rfl⟩)
  | case2 => exact .inr (.inr ⟨rfl, rfl⟩)
  | case3 rest hrest => exact .inl ⟨by simpa [unsigned] using hrest, rfl⟩
  | case4 text hempty hplus hsigned =>
    have hsame : unsigned text = text := by
      unfold unsigned
      split
      · exact absurd rfl (hsigned _)
      · rfl
    rw [hsame]
    exact .inl ⟨by simpa using hempty, rfl⟩

theorem overflows_iff_grows {text : List Char} : Overflows text ↔ Grows 0 (unsigned text) := by
  simp only [Overflows, Grows, value_eq_valueFrom]

theorem parseChars_eq_ok_iff {text : List Char} {n : Nat} :
    parseChars text = .ok n ↔ Spells text n := by
  rcases parseChars_cases text with ⟨hne, hread⟩ | ⟨rfl, hread⟩ | ⟨rfl, hread⟩
  · rw [hread, readDigits_eq_ok_iff bound_pos, ← value_eq_valueFrom]
    constructor
    · rintro ⟨hdigits, hvalue, hsmall⟩
      exact ⟨hne, hdigits, hvalue, hsmall⟩
    · rintro ⟨-, hdigits, hvalue, hsmall⟩
      exact ⟨hdigits, hvalue, hsmall⟩
  · exact iff_of_false (by simp [hread]) fun h => h.nonempty rfl
  · exact iff_of_false (by simp [hread]) fun h => h.nonempty rfl

/-- It is too large exactly when its first digits reach the bound, whatever follows them. -/
theorem parseChars_eq_tooLarge_iff {text : List Char} :
    parseChars text = .error .tooLarge ↔ Overflows text := by
  rw [overflows_iff_grows]
  rcases parseChars_cases text with ⟨-, hread⟩ | ⟨rfl, hread⟩ | ⟨rfl, hread⟩
  · rw [hread, readDigits_eq_tooLarge_iff bound_pos]
  · exact iff_of_false (by simp [hread]) (not_grows_nil bound_pos)
  · exact iff_of_false (by simp [hread]) (not_grows_nil bound_pos)

theorem parseChars_ne_empty {text : List Char} (h : text ≠ []) :
    parseChars text ≠ .error .empty := by
  rcases parseChars_cases text with ⟨-, hread⟩ | ⟨hempty, -⟩ | ⟨-, hread⟩
  · rw [hread]
    exact readDigits_ne_empty 0 _
  · exact absurd hempty h
  · simp [hread]

inductive Faults (text : List Char) : NumeralError → Prop where
  | tooLarge (h : Overflows text) : Faults text .tooLarge
  | invalidDigit (h : ¬ Overflows text) : Faults text .invalidDigit

theorem faults_of_parseChars {text : List Char} (hne : text ≠ []) {e : NumeralError}
    (h : parseChars text = .error e) : Faults text e := by
  cases e with
  | empty => exact absurd h (parseChars_ne_empty hne)
  | invalidDigit =>
    refine .invalidDigit ?_
    rw [← parseChars_eq_tooLarge_iff, h]
    simp
  | tooLarge => exact .tooLarge (parseChars_eq_tooLarge_iff.mp h)

end TapeLang.Text.Numeral
