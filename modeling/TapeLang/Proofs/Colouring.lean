import Mathlib.Data.List.SplitBy
import TapeLang.Highlight

/-! The spans of a highlighted line. They hold all of its characters, each in the style it
is shown in, and no two neighbours could be one span. A line has no other such spans. -/
namespace TapeLang

variable {line : String} {spans : List Span} {span : Span} {style : Style} {c : Char}
  {scan : Scan}

/-- How a character is shown. An instruction is bold and in the colour of its kind, and all
else is a comment. -/
inductive Style.Suits : Style → Char → Prop where
  | instruction (op : Instruction) : Suits ⟨op.colour, true⟩ op.toChar
  | comment {c : Char} (hc : ∀ op : Instruction, c ≠ op.toChar) : Suits .comment c

theorem Style.suits_iff : style.Suits c ↔ style = .ofChar c := by
  constructor
  · intro h
    unfold ofChar
    cases h with
    | instruction op => rw [Instruction.ofChar?_toChar]
    | comment hc =>
      have hnone : Instruction.ofChar? c = none :=
        Option.eq_none_iff_forall_ne_some.mpr fun op hop =>
          hc op (Instruction.ofChar?_eq_some_iff.mp hop)
      rw [hnone]
  · rintro rfl
    unfold ofChar
    cases h : Instruction.ofChar? c with
    | some op =>
      obtain rfl := Instruction.ofChar?_eq_some_iff.mp h
      exact .instruction op
    | none =>
      refine .comment fun op hop => ?_
      rw [Instruction.ofChar?_eq_some_iff.mpr hop] at h
      cases h

structure Span.Sound (span : Span) : Prop where
  filled : span.text ≠ ""
  suited : ∀ c ∈ span.text.toList, span.style.Suits c

/-- A line in spans: nothing is lost, every character is in its style, and no span can be
joined to the next. -/
structure Groups (line : String) (spans : List Span) : Prop where
  sound : ∀ span ∈ spans, span.Sound
  joined : String.join (spans.map Span.text) = line
  maximal : spans.IsChain fun a b => a.style ≠ b.style

namespace Span

theorem Sound.toList_ne_nil (h : span.Sound) : span.text.toList ≠ [] :=
  mt String.toList_eq_nil_iff.mp h.filled

theorem Sound.style_eq (h : span.Sound) (hc : c ∈ span.text.toList) : span.style = .ofChar c :=
  Style.suits_iff.mp (h.suited c hc)

theorem sound_start (c : Char) : (start c).Sound := by
  constructor
  · simp [start]
  · intro d hd
    obtain rfl : d = c := by simpa [start] using hd
    exact Style.suits_iff.mpr rfl

theorem Sound.extend (h : span.Sound) (hstyle : span.style = .ofChar c) :
    (span.extend c).Sound := by
  constructor
  · simp [Span.extend]
  · intro d hd
    have hd : d ∈ span.text.toList ∨ d = c := by simpa [Span.extend] using hd
    obtain hd | rfl := hd
    · exact h.suited d hd
    · exact Style.suits_iff.mpr hstyle

end Span

namespace Groups

theorem nil : Groups "" [] := ⟨by simp, rfl, .nil⟩

theorem append (h : Groups line spans) (hspan : span.Sound)
    (hlast : ∀ last ∈ spans.getLast?, last.style ≠ span.style) :
    Groups (line ++ span.text) (spans ++ [span]) := by
  refine ⟨?_, ?_, ?_⟩
  · intro other hother
    obtain hother | hother := List.mem_append.mp hother
    · exact h.sound other hother
    · exact List.mem_singleton.mp hother ▸ hspan
  · rw [← h.joined, ← String.toList_inj]
    simp [String.toList_join]
  · refine List.isChain_append.mpr ⟨h.maximal, .singleton span, ?_⟩
    simpa using hlast

theorem extend (h : Groups line (spans ++ [span])) (hstyle : span.style = .ofChar c) :
    Groups (line.push c) (spans ++ [span.extend c]) := by
  obtain ⟨hsound, hjoined, hmaximal⟩ := h
  obtain ⟨hchain, -, hlast⟩ := List.isChain_append.mp hmaximal
  refine ⟨?_, ?_, ?_⟩
  · intro other hother
    obtain hother | hother := List.mem_append.mp hother
    · exact hsound other (List.mem_append_left _ hother)
    · obtain rfl := List.mem_singleton.mp hother
      exact (hsound span (by simp)).extend hstyle
  · rw [← hjoined, ← String.toList_inj]
    simp [String.toList_join, Span.extend]
  · exact List.isChain_append.mpr ⟨hchain, .singleton _, by simpa [Span.extend] using hlast⟩

end Groups

namespace Scan

/-- A scan and the part of the line it has read. Before the first character, and only then,
no run is open. -/
structure Holds (scan : Scan) (line : String) : Prop where
  groups : Groups line scan.flush.toList
  idle : scan.run = none → scan.spans = #[]

theorem holds_empty : (⟨#[], none⟩ : Scan).Holds "" := ⟨.nil, fun _ => rfl⟩

theorem holds_start (h : scan.Holds line) (hrun : ∀ run ∈ scan.run, run.style ≠ .ofChar c) :
    (⟨scan.flush, some (.start c)⟩ : Scan).Holds (line.push c) := by
  refine ⟨?_, nofun⟩
  have hlast : ∀ last ∈ scan.flush.toList.getLast?, last.style ≠ (Span.start c).style := by
    cases hopen : scan.run with
    | some run => simpa [flush, hopen, Span.start] using hrun run hopen
    | none => simp [flush, hopen, h.idle hopen]
  have hgroups := h.groups.append (Span.sound_start c) hlast
  rw [Span.start, String.append_singleton] at hgroups
  rwa [flush, Array.toList_push]

theorem step_holds (h : scan.Holds line) (c : Char) : (scan.step c).Holds (line.push c) := by
  unfold step
  split
  case h_1 run hopen =>
    split
    case isTrue hstyle =>
      refine ⟨?_, nofun⟩
      have hgroups := h.groups
      rw [flush, hopen, Array.toList_push] at hgroups
      rw [flush, Array.toList_push]
      exact hgroups.extend hstyle
    case isFalse hstyle =>
      apply holds_start h
      rintro _ hrun
      obtain rfl := Option.some.inj (hopen.symm.trans hrun)
      exact hstyle
  case h_2 hopen =>
    apply holds_start h
    simp [hopen]

theorem foldl_step_holds (h : scan.Holds line) (chars : List Char) :
    (chars.foldl step scan).Holds (line ++ String.ofList chars) := by
  induction chars generalizing scan line with
  | nil => simpa using h
  | cons c chars ih =>
    have hline : line ++ String.ofList (c :: chars) = line.push c ++ String.ofList chars := by
      simp [← String.toList_inj]
    rw [hline]
    exact ih (step_holds h c)

end Scan

theorem groups_highlight (line : String) (cursor : Nat) : Groups line (highlight line cursor) := by
  have h := (Scan.foldl_step_holds Scan.holds_empty line.toList).groups
  rwa [String.empty_append, String.ofList_toList] at h

def Style.alike (a b : Char) : Bool := ofChar a == ofChar b

namespace Span

def ofChars : List Char → Option Span
  | [] => none
  | c :: rest => some ⟨.ofChar c, String.ofList (c :: rest)⟩

/-- The longest runs of characters that are alike, each as the span it makes. -/
def grouping (line : String) : List Span := (line.toList.splitBy Style.alike).filterMap ofChars

theorem Sound.isChain (h : span.Sound) : span.text.toList.IsChain fun a b => Style.alike a b := by
  apply List.Pairwise.isChain
  apply List.pairwise_of_forall_mem_list
  intro a ha b hb
  rw [Style.alike, beq_iff_eq, ← h.style_eq ha, h.style_eq hb]

theorem Sound.ofChars_eq (h : span.Sound) : ofChars span.text.toList = some span := by
  cases hchars : span.text.toList with
  | nil => exact absurd hchars h.toList_ne_nil
  | cons c rest =>
    have hstyle := h.style_eq (c := c) (by simp [hchars])
    rw [ofChars, ← hchars, String.ofList_toList, ← hstyle]

theorem Sound.not_alike {a b : Span} (ha : a.Sound) (hb : b.Sound) (hne : a.style ≠ b.style) :
    ∃ (ha : a.text.toList ≠ []) (hb : b.text.toList ≠ []),
      Style.alike (a.text.toList.getLast ha) (b.text.toList.head hb) = false := by
  refine ⟨ha.toList_ne_nil, hb.toList_ne_nil, ?_⟩
  rw [ha.style_eq (List.getLast_mem ha.toList_ne_nil),
    hb.style_eq (List.head_mem hb.toList_ne_nil)] at hne
  exact beq_eq_false_iff_ne.mpr hne

end Span

theorem Groups.splitBy_eq (h : Groups line spans) :
    line.toList.splitBy Style.alike = spans.map (·.text.toList) := by
  rw [List.splitBy_eq_iff, List.forall_mem_map, List.isChain_map]
  refine ⟨?_, ?_, ?_, ?_⟩
  · rw [← h.joined, String.toList_join, List.flatMap_map]
    rfl
  · intro hnil
    obtain ⟨span, hspan, hempty⟩ := List.mem_map.mp hnil
    exact (h.sound span hspan).toList_ne_nil hempty
  · intro span hspan
    exact (h.sound span hspan).isChain
  · exact h.maximal.imp_of_mem_imp fun a b ha hb => (h.sound a ha).not_alike (h.sound b hb)

theorem Groups.eq_grouping (h : Groups line spans) : spans = Span.grouping line := by
  rw [Span.grouping, h.splitBy_eq, List.filterMap_map]
  refine List.filterMap_some.symm.trans (List.filterMap_congr fun span hspan => ?_)
  exact (h.sound span hspan).ofChars_eq.symm

theorem highlight_eq_grouping (line : String) (cursor : Nat) :
    highlight line cursor = Span.grouping line :=
  (groups_highlight line cursor).eq_grouping

/-- A line has one list of spans that loses nothing, colours every character and joins what
can be joined, and that list is shown wherever the cursor stands. -/
theorem highlight_is_the_grouping (line : String) (cursor : Nat) :
    (∀ spans : List Span, Groups line spans ↔ spans = highlight line cursor) ∧
      ∀ other : Nat, highlight line other = highlight line cursor := by
  constructor
  · intro spans
    constructor
    · intro h
      rw [highlight_eq_grouping]
      exact h.eq_grouping
    · rintro rfl
      exact groups_highlight line cursor
  · intro other
    rw [highlight_eq_grouping, highlight_eq_grouping]

example : (highlight "++-x y[]" 3).map Span.text = ["++", "-", "x y", "[]"] := by decide

end TapeLang
