import TapeLang.Text.Blank

/-! White space at the ends of a text. Trimming takes off all of it and nothing else, so
that what it leaves is its own trimmed form. -/
namespace TapeLang.Text

variable {p : Char → Bool} {text left right : List Char}

/-- No white space at either end. -/
structure Tight (text : List Char) : Prop where
  head : ∀ c ∈ text.head?, isBlank c = false
  last : ∀ c ∈ text.getLast?, isBlank c = false

theorem dropWhile_of_head (h : ∀ c ∈ text.head?, p c = false) : text.dropWhile p = text := by
  cases text with
  | nil => rfl
  | cons c rest => exact List.dropWhile_cons_of_neg (by simp [h c rfl])

theorem head_of_dropWhile {c : Char} (h : c ∈ (text.dropWhile p).head?) : p c = false := by
  have hnot := List.head?_dropWhile_not p text
  rw [Option.mem_def] at h
  rwa [h] at hnot

theorem exists_dropRightWhile_append (p : Char → Bool) (text : List Char) :
    ∃ cut, text = dropRightWhile p text ++ cut := by
  obtain ⟨front, hfront⟩ := List.dropWhile_suffix (l := text.reverse) p
  refine ⟨front.reverse, ?_⟩
  rw [dropRightWhile, ← List.reverse_append, hfront, List.reverse_reverse]

theorem tight_trimChars (text : List Char) : Tight (trimChars text) where
  head := by
    intro c hc
    obtain ⟨cut, hcut⟩ := exists_dropRightWhile_append isBlank (text.dropWhile isBlank)
    have hstart : c ∈ (text.dropWhile isBlank).head? := by
      rw [hcut, List.head?_append, show (dropRightWhile _ _).head? = some c from hc]
      rfl
    exact head_of_dropWhile hstart
  last := by
    intro c hc
    rw [trimChars, dropRightWhile, List.getLast?_reverse] at hc
    exact head_of_dropWhile hc

theorem trimChars_of_tight (h : Tight text) (hleft : ∀ c ∈ left, isBlank c = true)
    (hright : ∀ c ∈ right, isBlank c = true) : trimChars (left ++ text ++ right) = text := by
  have hright' : ∀ c ∈ right.reverse, isBlank c = true := by simpa using hright
  rw [trimChars, List.append_assoc, List.dropWhile_append_of_pos hleft]
  cases text with
  | nil =>
    have hnothing : right.dropWhile isBlank = [] := by
      have hall : (right ++ []).dropWhile isBlank = [] := List.dropWhile_append_of_pos hright
      rwa [List.append_nil] at hall
    rw [List.nil_append, hnothing]
    rfl
  | cons c rest =>
    have hlast : ∀ d ∈ (c :: rest).reverse.head?, isBlank d = false := by
      rw [List.head?_reverse]
      exact h.last
    rw [dropWhile_of_head (by simpa using h.head), dropRightWhile, List.reverse_append,
      List.dropWhile_append_of_pos hright', dropWhile_of_head hlast, List.reverse_reverse]

theorem trim_trim (text : String) : trim (trim text) = trim text := by
  have hsame := @trimChars_of_tight _ [] [] (tight_trimChars text.toList) (by simp) (by simp)
  rw [List.nil_append, List.append_nil] at hsame
  rw [trim, trim, String.toList_ofList, hsame]

end TapeLang.Text
