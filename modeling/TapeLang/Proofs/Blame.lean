import Mathlib.Data.Nat.Find
import TapeLang.Proofs.Matching

/-! The bracket to blame for an unbalanced program. If some loop is closed that was
never opened, it is the first bracket that does so. Otherwise closing brackets are
missing, and it is the innermost bracket that waits for one. -/
namespace TapeLang

def Overcloses (tokens : List Token) : Prop :=
  tokens.countP (·.op == .loopOpen) < tokens.countP (·.op == .loopClose)

instance (tokens : List Token) : Decidable (Overcloses tokens) :=
  inferInstanceAs (Decidable (_ < _))

theorem depth_eq_counts (tokens : List Token) :
    depth tokens =
      tokens.countP (·.op == .loopOpen) - tokens.countP (·.op == .loopClose) := by
  induction tokens with
  | nil => rfl
  | cons t rest ih =>
    cases t using Token.byRole with
    | plain op pos => simp [ih]
    | opening pos =>
      simp only [depth_cons, Token.rise, List.countP_cons, ih]
      simp
      omega
    | closing pos =>
      simp only [depth_cons, Token.rise, List.countP_cons, ih]
      simp
      omega

theorem overcloses_iff {tokens : List Token} : Overcloses tokens ↔ depth tokens < 0 := by
  rw [depth_eq_counts, Overcloses]
  omega

theorem not_overcloses_iff {tokens : List Token} : ¬ Overcloses tokens ↔ 0 ≤ depth tokens := by
  rw [overcloses_iff, Int.not_lt]

theorem Block.exists_of_parseFrom_eq_none {input : List Token} (h : parseFrom input = none) :
    ∃ (front : List Token) (pos : Nat) (b : Block),
      input = front ++ ⟨.loopOpen, pos⟩ :: b.tokens := by
  induction input with
  | nil => cases h
  | cons t rest ih =>
    cases hrest : parseFrom rest with
    | none =>
      obtain ⟨front, pos, b, rfl⟩ := ih hrest
      exact ⟨t :: front, pos, b, rfl⟩
    | some parsed =>
      obtain ⟨b, later⟩ := parsed
      simp only [parseFrom, hrest, Option.bind_some] at h
      cases t using Token.byRole with
      | plain op pos => simp [prepend] at h
      | closing pos => cases h
      | opening pos =>
        cases later with
        | cons entry later => cases h
        | nil =>
          have htokens := tokens_of_parseFrom hrest
          rw [laterTokens, List.flatMap_nil, List.append_nil] at htokens
          exact ⟨[], pos, b, by rw [htokens]; rfl⟩

theorem balanced_cases (tokens : List Token) :
    Balanced tokens ∨
    (∃ (front : List Token) (c : Token) (rest : List Token),
      tokens = front ++ c :: rest ∧ c.op = .loopClose ∧ Balanced front) ∨
    ∃ (front : List Token) (o : Token) (inner : List Token),
      tokens = front ++ o :: inner ∧ o.op = .loopOpen ∧ Balanced inner := by
  cases hparse : Block.parseFrom tokens with
  | none =>
    obtain ⟨front, pos, b, heq⟩ := Block.exists_of_parseFrom_eq_none hparse
    exact .inr (.inr ⟨front, _, b.tokens, heq, rfl, b.balanced_tokens⟩)
  | some parsed =>
    obtain ⟨b, later⟩ := parsed
    have htokens := Block.tokens_of_parseFrom hparse
    cases later with
    | nil =>
      rw [Block.laterTokens, List.flatMap_nil, List.append_nil] at htokens
      exact .inl (htokens ▸ b.balanced_tokens)
    | cons entry later =>
      rw [Block.laterTokens, List.flatMap_cons, List.cons_append] at htokens
      exact .inr (.inl ⟨b.tokens, _, _, htokens.symm, rfl, b.balanced_tokens⟩)

theorem overcloses_of_close {front rest : List Token} {c : Token} (hclose : c.op = .loopClose)
    (hfront : Balanced front) :
    Overcloses ((front ++ c :: rest).take (front.length + 1)) := by
  rw [overcloses_iff, List.take_length_add_append, depth_append, hfront.depth_eq_zero,
    List.take_succ_cons, List.take_zero, depth_cons, Token.rise_of_close hclose, depth_nil]
  decide

/-- The shortest prefix that overcloses ends with the token at `n`. -/
structure FirstOvercloses (tokens : List Token) (n : Nat) : Prop where
  overcloses : Overcloses (tokens.take (n + 1))
  first : ∀ m ≤ n, ¬ Overcloses (tokens.take m)

/-- The bracket at `i` opens a loop, and all loops behind it are whole. -/
structure LeftOpen (tokens : List Token) (i : Nat) : Prop where
  opening : tokens[i]?.map Token.op = some .loopOpen
  behind : Balanced (tokens.drop (i + 1))

theorem exists_leftOpen {tokens : List Token} (hunbalanced : ¬ Balanced tokens)
    (h : ∀ n, ¬ Overcloses (tokens.take n)) : ∃ i, LeftOpen tokens i := by
  rcases balanced_cases tokens with hbalanced | ⟨front, c, rest, rfl, hclose, hfront⟩ |
    ⟨front, o, inner, rfl, hopen, hinner⟩
  · exact absurd hbalanced hunbalanced
  · exact absurd (overcloses_of_close hclose hfront) (h _)
  · refine ⟨front.length, by simp [hopen], ?_⟩
    rw [List.drop_length_add_append]
    exact hinner

namespace LeftOpen

variable {tokens : List Token} {i j : Nat}

theorem depth_take_succ (h : LeftOpen tokens i) :
    depth (tokens.take (i + 1)) = depth (tokens.take i) + 1 := by
  obtain ⟨o, ho, hopen⟩ := Option.map_eq_some_iff.mp h.opening
  rw [TapeLang.depth_take_succ ho, Token.rise_of_open hopen]

theorem depth_eq (h : LeftOpen tokens i) : depth tokens = depth (tokens.take i) + 1 := by
  have hsplit : depth tokens = depth (tokens.take (i + 1)) + depth (tokens.drop (i + 1)) := by
    rw [← depth_append, List.take_append_drop]
  rw [hsplit, h.behind.depth_eq_zero, h.depth_take_succ, Int.add_zero]

theorem not_lt (hi : LeftOpen tokens i) (hj : LeftOpen tokens j) : ¬ i < j := by
  intro hlt
  have hbetween := hi.behind.depth_take_nonneg (j - (i + 1))
  have hsplit : tokens.take j =
      tokens.take (i + 1) ++ (tokens.drop (i + 1)).take (j - (i + 1)) := by
    rw [← List.take_add, Nat.add_sub_cancel' hlt]
  have hdepth := hi.depth_eq.symm.trans hj.depth_eq
  rw [hsplit, depth_append, hi.depth_take_succ] at hdepth
  omega

theorem unique (hi : LeftOpen tokens i) (hj : LeftOpen tokens j) : j = i :=
  Nat.le_antisymm (Nat.not_lt.mp (hi.not_lt hj)) (Nat.not_lt.mp (hj.not_lt hi))

end LeftOpen

/-- The balanced lists are those whose depth ends at zero and is never below it. -/
theorem balanced_iff_depth {tokens : List Token} :
    Balanced tokens ↔ depth tokens = 0 ∧ ∀ n, 0 ≤ depth (tokens.take n) := by
  constructor
  · intro h
    exact ⟨h.depth_eq_zero, h.depth_take_nonneg⟩
  · rintro ⟨hzero, hnonneg⟩
    apply Decidable.byContradiction
    intro hunbalanced
    obtain ⟨i, hi⟩ := exists_leftOpen hunbalanced fun n => not_overcloses_iff.mpr (hnonneg n)
    have hdepth := hi.depth_eq
    have hfront := hnonneg i
    omega

theorem exists_firstOvercloses {tokens : List Token} (h : ∃ n, Overcloses (tokens.take n)) :
    ∃ n, FirstOvercloses tokens n := by
  have hshort : Nat.find h ≠ 0 := by
    intro hzero
    have hnone := Nat.find_spec h
    rw [hzero, List.take_zero, overcloses_iff] at hnone
    exact absurd hnone (by decide)
  obtain ⟨n, hn⟩ : ∃ n, Nat.find h = n + 1 := Nat.exists_eq_succ_of_ne_zero hshort
  refine ⟨n, hn ▸ Nat.find_spec h, ?_⟩
  intro m hm
  exact Nat.find_min h (by omega)

theorem FirstOvercloses.exists_close {tokens : List Token} {n : Nat}
    (h : FirstOvercloses tokens n) :
    ∃ c, tokens[n]? = some c ∧ c.op = .loopClose ∧ Balanced (tokens.take n) := by
  have hbefore := not_overcloses_iff.mp (h.first n (Nat.le_refl n))
  have hafter := overcloses_iff.mp h.overcloses
  cases hc : tokens[n]? with
  | none =>
    rw [List.take_add_one, hc, Option.toList_none, List.append_nil] at hafter
    omega
  | some c =>
    rw [depth_take_succ hc] at hafter
    cases c using Token.byRole with
    | plain op pos =>
      rw [Token.rise_plain] at hafter
      omega
    | opening pos =>
      rw [Token.rise_of_open rfl] at hafter
      omega
    | closing pos =>
      rw [Token.rise_of_close rfl] at hafter
      refine ⟨_, rfl, rfl, balanced_iff_depth.mpr ⟨by omega, ?_⟩⟩
      intro m
      rw [List.take_take]
      exact not_overcloses_iff.mp (h.first _ (Nat.min_le_right m n))

theorem depth_replicate_close (k : Nat) : depth (List.replicate k ⟨.loopClose, 0⟩) = -k := by
  induction k with
  | zero => rfl
  | succ k ih =>
    rw [List.replicate_succ, depth_cons, ih, Token.rise_of_close rfl]
    omega

theorem exists_balanced_append {tokens : List Token} (h : ∀ n, ¬ Overcloses (tokens.take n)) :
    ∃ closings : List Token, (∀ c ∈ closings, c.op = .loopClose) ∧
      Balanced (tokens ++ closings) := by
  have hnonneg := fun n => not_overcloses_iff.mp (h n)
  obtain ⟨d, hd⟩ : ∃ d : Nat, depth tokens = d := by
    have hwhole := hnonneg tokens.length
    rw [List.take_length] at hwhole
    exact ⟨_, Int.eq_natAbs_of_nonneg hwhole⟩
  refine ⟨List.replicate d ⟨.loopClose, 0⟩, ?_, balanced_iff_depth.mpr ⟨?_, ?_⟩⟩
  · intro c hc
    rw [List.eq_of_mem_replicate hc]
  · rw [depth_append, hd, depth_replicate_close]
    omega
  · intro n
    rw [List.take_append, depth_append, List.take_replicate, depth_replicate_close]
    rcases Nat.le_total n tokens.length with hle | hge
    · have hprefix := hnonneg n
      omega
    · rw [List.take_of_length_le hge]
      omega

theorem not_overcloses_of_balanced_append {tokens more : List Token}
    (h : Balanced (tokens ++ more)) (n : Nat) : ¬ Overcloses (tokens.take n) := by
  have hprefix := h.depth_take_nonneg (min n tokens.length)
  rw [List.take_append_of_le_length (Nat.min_le_right _ _), ← List.take_take,
    List.take_length] at hprefix
  exact not_overcloses_iff.mpr hprefix

namespace LoopTable

theorem exists_matchFrom_append {front : List Token} {pending : List (Nat × Token)}
    (h : ∀ n, 0 ≤ pending.length + depth (front.take n)) (i : Nat)
    (partner : Array (Option Nat)) :
    ∃ pending' partner', ∀ rest, matchFrom i pending partner (front ++ rest) =
      matchFrom (i + front.length) pending' partner' rest := by
  induction front generalizing i pending partner with
  | nil => exact ⟨pending, partner, fun rest => rfl⟩
  | cons t front ih =>
    have hlength : i + (t :: front).length = i + 1 + front.length := by
      rw [List.length_cons]
      omega
    have hlater : ∀ n, 0 ≤ pending.length + (t.rise + depth (front.take n)) :=
      fun n => h (n + 1)
    rw [hlength]
    cases t using Token.byRole with
    | plain op pos =>
      simp only [List.cons_append, matchFrom_plain]
      apply ih
      simpa using hlater
    | opening pos =>
      let opened : List (Nat × Token) := (i, ⟨.loopOpen, pos⟩) :: pending
      have hopened : ∀ n, 0 ≤ opened.length + depth (front.take n) := by
        intro n
        have hn := hlater n
        rw [Token.rise_of_open rfl] at hn
        rw [List.length_cons]
        omega
      exact ih hopened (i + 1) partner
    | closing pos =>
      cases pending with
      | nil =>
        have hzero := hlater 0
        rw [List.take_zero, Token.rise_of_close rfl] at hzero
        exact absurd hzero (by decide)
      | cons entry outer =>
        have houter : ∀ n, 0 ≤ outer.length + depth (front.take n) := by
          intro n
          have hn := hlater n
          rw [Token.rise_of_close rfl, List.length_cons] at hn
          omega
        exact ih houter (i + 1) (link partner entry.1 i)

theorem eq_around {tokens : List Token} {i : Nat} {t : Token} (h : tokens[i]? = some t) :
    tokens = tokens.take i ++ t :: tokens.drop (i + 1) := by
  obtain ⟨hlt, rfl⟩ := List.getElem?_eq_some_iff.mp h
  rw [← List.drop_eq_getElem_cons hlt, List.take_append_drop]

theorem build_of_firstOvercloses {tokens : List Token} {n : Nat} (h : FirstOvercloses tokens n) :
    ∃ c, tokens[n]? = some c ∧ build tokens = .error ⟨.closing, c.pos⟩ := by
  obtain ⟨c, hc, hclose, hfront⟩ := h.exists_close
  obtain ⟨b, hb⟩ := hfront.exists_block
  refine ⟨c, hc, ?_⟩
  calc build tokens
    _ = matchFrom 0 [] (Array.replicate tokens.length none)
          (b.tokens ++ c :: tokens.drop (n + 1)) := by
      rw [hb, ← eq_around hc]
      rfl
    _ = .error ⟨.closing, c.pos⟩ := by
      rw [Block.matchFrom_tokens_append]
      simp only [matchFrom, hclose]

theorem build_of_leftOpen {tokens : List Token} {i : Nat} (h : LeftOpen tokens i)
    (hnone : ∀ n, ¬ Overcloses (tokens.take n)) :
    ∃ o, tokens[i]? = some o ∧ build tokens = .error ⟨.opening, o.pos⟩ := by
  obtain ⟨o, ho, hopen⟩ := Option.map_eq_some_iff.mp h.opening
  obtain ⟨b, hb⟩ := h.behind.exists_block
  let start : List (Nat × Token) := []
  have hfront : ∀ n, 0 ≤ start.length + depth ((tokens.take i).take n) := by
    intro n
    rw [List.take_take]
    simpa [start] using not_overcloses_iff.mp (hnone (min n i))
  obtain ⟨pending, partner, hwalk⟩ :=
    exists_matchFrom_append hfront 0 (Array.replicate tokens.length none)
  refine ⟨o, ho, ?_⟩
  calc build tokens
    _ = matchFrom 0 start (Array.replicate tokens.length none)
          (tokens.take i ++ o :: (b.tokens ++ [])) := by
      rw [hb, List.append_nil, ← eq_around ho]
      rfl
    _ = matchFrom (0 + (tokens.take i).length) pending partner (o :: (b.tokens ++ [])) := hwalk _
    _ = .error ⟨.opening, o.pos⟩ := by
      simp only [matchFrom, hopen, Block.matchFrom_tokens_append]

theorem blames_opening_iff {tokens : List Token} :
    (∃ pos, build tokens = .error ⟨.opening, pos⟩) ↔
      ¬ Balanced tokens ∧ ∀ n, ¬ Overcloses (tokens.take n) := by
  constructor
  · rintro ⟨pos, hbuild⟩
    constructor
    · intro hbalanced
      obtain ⟨table, htable⟩ := exists_build_iff_balanced.mpr hbalanced
      rw [hbuild] at htable
      cases htable
    · intro n hover
      obtain ⟨m, hm⟩ := exists_firstOvercloses ⟨n, hover⟩
      obtain ⟨c, -, hclosing⟩ := build_of_firstOvercloses hm
      rw [hbuild] at hclosing
      cases hclosing
  · rintro ⟨hunbalanced, hnone⟩
    obtain ⟨i, hi⟩ := exists_leftOpen hunbalanced hnone
    obtain ⟨o, -, hbuild⟩ := build_of_leftOpen hi hnone
    exact ⟨o.pos, hbuild⟩

theorem blames_closing_iff {tokens : List Token} :
    (∃ pos, build tokens = .error ⟨.closing, pos⟩) ↔ ∃ n, Overcloses (tokens.take n) := by
  constructor
  · rintro ⟨pos, hbuild⟩
    apply Classical.byContradiction
    intro hnone
    by_cases hbalanced : Balanced tokens
    · obtain ⟨table, htable⟩ := exists_build_iff_balanced.mpr hbalanced
      rw [hbuild] at htable
      cases htable
    · obtain ⟨pos', hopening⟩ := blames_opening_iff.mpr ⟨hbalanced, not_exists.mp hnone⟩
      rw [hbuild] at hopening
      cases hopening
  · intro hover
    obtain ⟨n, hn⟩ := exists_firstOvercloses hover
    obtain ⟨c, -, hbuild⟩ := build_of_firstOvercloses hn
    exact ⟨c.pos, hbuild⟩

/-- An unbalanced program is blamed for the last token of the shortest prefix that
closes more loops than it opens. If there is none, it is blamed for the one opening
bracket with whole loops only behind it. So a bracket is missing at the end exactly
when an opening one is blamed, and nothing that follows can help exactly when a
closing one is. -/
theorem build_blames_bracket (tokens : List Token) :
    ((∃ n, Overcloses (tokens.take n)) →
      ∃ n t, FirstOvercloses tokens n ∧ tokens[n]? = some t ∧
        build tokens = .error ⟨.closing, t.pos⟩) ∧
    (¬ Balanced tokens → (∀ n, ¬ Overcloses (tokens.take n)) →
      ∃ i t, LeftOpen tokens i ∧ (∀ j, LeftOpen tokens j → j = i) ∧ tokens[i]? = some t ∧
        build tokens = .error ⟨.opening, t.pos⟩) ∧
    ((∃ pos, build tokens = .error ⟨.opening, pos⟩) ↔
      ¬ Balanced tokens ∧ ∃ closings : List Token,
        (∀ c ∈ closings, c.op = .loopClose) ∧ Balanced (tokens ++ closings)) ∧
    ((∃ pos, build tokens = .error ⟨.closing, pos⟩) ↔
      ∀ more : List Token, ¬ Balanced (tokens ++ more)) := by
  refine ⟨?_, ?_, ?_, ?_⟩
  · intro hover
    obtain ⟨n, hn⟩ := exists_firstOvercloses hover
    obtain ⟨c, hc, hbuild⟩ := build_of_firstOvercloses hn
    exact ⟨n, c, hn, hc, hbuild⟩
  · intro hunbalanced hnone
    obtain ⟨i, hi⟩ := exists_leftOpen hunbalanced hnone
    obtain ⟨o, ho, hbuild⟩ := build_of_leftOpen hi hnone
    exact ⟨i, o, hi, fun j hj => hi.unique hj, ho, hbuild⟩
  · rw [blames_opening_iff]
    constructor
    · rintro ⟨hunbalanced, hnone⟩
      exact ⟨hunbalanced, exists_balanced_append hnone⟩
    · rintro ⟨hunbalanced, closings, -, hbalanced⟩
      exact ⟨hunbalanced, not_overcloses_of_balanced_append hbalanced⟩
  · rw [blames_closing_iff]
    constructor
    · rintro ⟨n, hover⟩ more hbalanced
      exact not_overcloses_of_balanced_append hbalanced n hover
    · intro hbeyond
      apply Classical.byContradiction
      intro hnone
      obtain ⟨closings, -, hbalanced⟩ := exists_balanced_append (not_exists.mp hnone)
      exact hbeyond closings hbalanced

theorem build_blames_bracket_among_loops :
    let beyond : List Token := [⟨.loopOpen, 0⟩, ⟨.loopClose, 2⟩, ⟨.loopClose, 3⟩, ⟨.loopOpen, 5⟩,
      ⟨.loopClose, 6⟩, ⟨.loopClose, 7⟩]
    let short : List Token := [⟨.loopOpen, 1⟩, ⟨.loopOpen, 2⟩, ⟨.loopClose, 3⟩, ⟨.loopOpen, 5⟩,
      ⟨.loopOpen, 8⟩, ⟨.loopClose, 9⟩]
    (∃ n, Overcloses (beyond.take n)) ∧ build beyond = .error ⟨.closing, 3⟩ ∧
    (∀ more, ¬ Balanced (beyond ++ more)) ∧
    ¬ Balanced short ∧ (∀ n, ¬ Overcloses (short.take n)) ∧ build short = .error ⟨.opening, 5⟩ := by
  intro beyond short
  have hover : ∃ n, Overcloses (beyond.take n) := ⟨3, by decide⟩
  have hclosed : Balanced (short ++ [⟨.loopClose, 0⟩, ⟨.loopClose, 0⟩]) := by decide
  have hnone : ∀ n, ¬ Overcloses (short.take n) := not_overcloses_of_balanced_append hclosed
  have hunbalanced : ¬ Balanced short := by decide
  obtain ⟨hfirst, -, -, hbeyond⟩ := build_blames_bracket beyond
  obtain ⟨-, hinner, -, -⟩ := build_blames_bracket short
  obtain ⟨n, c, hn, hc, hclosing⟩ := hfirst hover
  obtain ⟨i, o, -, hunique, ho, hopening⟩ := hinner hunbalanced hnone
  have hn3 : n < 3 := Nat.lt_of_not_le fun hle => hn.first 3 hle (by decide)
  have hn2 : ∀ n < 3, Overcloses (beyond.take (n + 1)) → n = 2 := by decide
  obtain rfl := hn2 n hn3 hn.overcloses
  obtain rfl := hunique 3 ⟨by decide, by decide⟩
  cases hc
  cases ho
  exact ⟨hover, hclosing, hbeyond.mp ⟨3, hclosing⟩, hunbalanced, hnone, hopening⟩

end LoopTable
end TapeLang
