import TapeLang.Proofs.Caret

/-! The window of a report at every position, also past the end of the text and so far
out that the sum for the window's end wraps round. -/
namespace TapeLang.Diagnostic

/-- The characters with an index from `low` on and below `high`, in whole numbers. -/
def between (low high : Int) (text : List Char) : List Char :=
  text.zipIdx.filterMap fun (c, k) => if low ≤ k ∧ k < high then some c else none

structure TwoLines (text : String) (first second : List Char) : Prop where
  text_eq : text = String.ofList (first ++ ['\n'] ++ second ++ ['\n'])
  first_unbroken : '\n' ∉ first
  second_unbroken : '\n' ∉ second

theorem filterMap_zipIdx_eq_take_drop (low high n : Nat) (text : List Char) :
    ((text.zipIdx n).filterMap fun (c, k) =>
      if (low : Int) ≤ k ∧ (k : Int) < high then some c else none) =
      (text.drop (low - n)).take (high - n - (low - n)) := by
  induction text generalizing n with
  | nil => simp
  | cons c text ih =>
    rw [List.zipIdx_cons, List.filterMap_cons, ih]
    by_cases hbefore : n < low
    · have hdrop : low - n = low - (n + 1) + 1 := by omega
      have htake : high - n - (low - (n + 1) + 1) = high - (n + 1) - (low - (n + 1)) := by omega
      have hout : ¬((low : Int) ≤ n ∧ (n : Int) < high) := by omega
      simp only [hout, hdrop, htake, List.drop_succ_cons, if_false]
    have hlow : low - n = 0 := by omega
    have hlow' : low - (n + 1) = 0 := by omega
    by_cases hinside : n < high
    · have htake : high - n = high - (n + 1) + 1 := by omega
      have hin : (low : Int) ≤ n ∧ (n : Int) < high := by omega
      simp only [hin, hlow, hlow', htake, and_self, if_true, List.drop_zero, Nat.sub_zero,
        List.take_succ_cons]
    · have htake : high - n = 0 := by omega
      have htake' : high - (n + 1) = 0 := by omega
      have hout : ¬((low : Int) ≤ n ∧ (n : Int) < high) := by omega
      simp only [hout, htake, htake', if_false, Nat.zero_sub, List.take_zero]

theorem between_eq_take_drop (low high : Nat) (text : List Char) :
    between low high text = (text.drop low).take (high - low) :=
  filterMap_zipIdx_eq_take_drop low high 0 text

/-- The sum for the end wraps only where the window begins behind the text, and then the
window is empty with the true sum too. -/
theorem windowEnd_sub_windowStart {pos total : Nat} (hfits : total < wordSize / 2) :
    windowEnd pos total - windowStart pos = min (pos + 33) total - (pos - 32) := by
  by_cases hword : pos + 33 < wordSize
  · rw [windowEnd, windowStart, windowChars, Nat.mod_eq_of_lt hword]
  · have hbehind : total ≤ pos - 32 := by
      simp only [wordSize, UInt64.size] at *
      omega
    have hwrapped : windowEnd pos total ≤ windowStart pos :=
      Nat.le_trans (Nat.min_le_right _ _) hbehind
    have htrue : min (pos + 33) total ≤ pos - 32 := Nat.le_trans (Nat.min_le_right _ _) hbehind
    rw [Nat.sub_eq_zero_of_le hwrapped, Nat.sub_eq_zero_of_le htrue]

theorem window_eq_between {code : List Char} (pos : Nat) (hfits : code.length < wordSize / 2) :
    window code pos =
      (between (max ((pos : Int) - 32) 0) (min (pos + 33) code.length) code).map flatten := by
  have hlow : max ((pos : Int) - 32) 0 = ((pos - 32 : Nat) : Int) := by omega
  have hhigh : min ((pos : Int) + 33) code.length = ((min (pos + 33) code.length : Nat) : Int) := by
    omega
  rw [hlow, hhigh, between_eq_take_drop, window, windowEnd_sub_windowStart hfits]
  rfl

theorem newline_notMem_spaces (n : Nat) : '\n' ∉ spaces n := by
  simp [spaces]

theorem caret_offset (pos : Nat) : pos - windowStart pos = min pos 32 := by
  unfold windowStart windowChars
  omega

theorem context_twoLines (code : String) (pos : Nat) :
    TwoLines (context code pos) (spaces 2 ++ window code.toList pos)
      (spaces 2 ++ spaces (min pos 32) ++ ['^']) where
  text_eq := by simp [context, caret_offset]
  first_unbroken := by simp [newline_notMem_spaces, newline_notMem_window]
  second_unbroken := by simp [newline_notMem_spaces]

theorem windowEnd_toNat (pos : UInt64) (total : Nat) :
    windowEnd pos.toNat total = min (pos + 32 + 1).toNat total := by
  simp [windowEnd, windowChars, wordSize, UInt64.size, UInt64.toNat_add]

/-- Whatever the position, what is shown of a text that fits in memory is two lines. Behind
two spaces stand the characters from 32 before the position to 32 past it, as far as the
text has them, with line ends turned into spaces; the caret stands behind two spaces and
one for each place before the position, 32 at most. The bounds are whole numbers, and the
sum of words for the upper one, which may wrap, takes as many characters. -/
theorem context_shows_window (code : String) (pos : UInt64) (hfits : code.length < wordSize / 2) :
    TwoLines (context code pos.toNat)
      (spaces 2 ++ (between (max ((pos.toNat : Int) - 32) 0)
        (min ((pos.toNat : Int) + 33) code.length) code.toList).map
          fun c => if c = '\n' ∨ c = '\r' then ' ' else c)
      (spaces 2 ++ spaces (min pos.toNat 32) ++ ['^']) ∧
    windowEnd pos.toNat code.length = min (pos + 32 + 1).toNat code.length ∧
    windowEnd pos.toNat code.length - windowStart pos.toNat =
      min (pos.toNat + 33) code.length - (pos.toNat - 32) := by
  refine ⟨?_, windowEnd_toNat pos code.length, windowEnd_sub_windowStart hfits⟩
  have hwindow := window_eq_between pos.toNat (String.length_toList ▸ hfits)
  rw [String.length_toList] at hwindow
  have hlines := context_twoLines code pos.toNat
  rw [hwindow] at hlines
  exact hlines

theorem context_shows_window_at_the_last_word :
    "é\n+".length < wordSize / 2 ∧ (18446744073709551615 + 32 + 1 : UInt64) = 32 ∧
    TwoLines (context "é\n+" 18446744073709551615) (spaces 2) (spaces 34 ++ ['^']) ∧
    TwoLines (context "é\n+" 2) [' ', ' ', 'é', ' ', '+'] (spaces 4 ++ ['^']) := by
  have hfits : "é\n+".length < wordSize / 2 := by decide +kernel
  obtain ⟨hlast, -⟩ := context_shows_window "é\n+" 18446744073709551615 hfits
  obtain ⟨hinside, -⟩ := context_shows_window "é\n+" 2 hfits
  refine ⟨hfits, by decide, ?_, ?_⟩
  · exact hlast
  · exact hinside

end TapeLang.Diagnostic
