import TapeLang.Proofs.Nesting

/-! The loop table of a balanced program. Walking over a tree leaves the pending
brackets as they were and links the two ends of each of its loops, so the
table pairs two brackets exactly when they enclose a balanced list. -/
namespace TapeLang

namespace LoopTable

theorem matchFrom_plain (i : Nat) (pending : List (Nat × Token)) (partner : Array (Option Nat))
    (op : Plain) (pos : Nat) (rest : List Token) :
    matchFrom i pending partner (⟨op.instruction, pos⟩ :: rest) =
      matchFrom (i + 1) pending partner rest := by
  cases op <;> rfl

@[simp] theorem size_link (partner : Array (Option Nat)) (i j : Nat) :
    (link partner i j).size = partner.size := by
  simp [link]

theorem join_getElem?_link {partner : Array (Option Nat)} {i j : Nat} (hi : i < partner.size)
    (hj : j < partner.size) (k : Nat) :
    (link partner i j)[k]?.join =
      if k = j then some i else if k = i then some j else partner[k]?.join := by
  unfold link
  rw [Array.getElem?_setIfInBounds, Array.getElem?_setIfInBounds]
  simp only [Array.size_setIfInBounds]
  by_cases hkj : k = j
  · simp [hkj, hj]
  · by_cases hki : k = i
    · subst hki
      simp [hkj, Ne.symm hkj, hi]
    · simp [hkj, hki, Ne.symm hkj, Ne.symm hki]

end LoopTable

namespace Block
open LoopTable

def linkFrom : Block → Nat → Array (Option Nat) → Array (Option Nat)
  | done, _, partner => partner
  | leaf _ _ rest, start, partner => rest.linkFrom (start + 1) partner
  | loop _ body _ rest, start, partner =>
    rest.linkFrom (start + body.size + 2)
      (link (body.linkFrom (start + 1) partner) start (start + body.size + 1))

/-- Walking over a tree keeps the pending brackets and makes its links. -/
theorem matchFrom_tokens_append (b : Block) (start : Nat) (pending : List (Nat × Token))
    (partner : Array (Option Nat)) (rest : List Token) :
    matchFrom start pending partner (b.tokens ++ rest) =
      matchFrom (start + b.size) pending (b.linkFrom start partner) rest := by
  induction b generalizing start pending partner rest with
  | done => rfl
  | leaf op pos next ih =>
    rw [tokens, List.cons_append, matchFrom_plain, ih, size_leaf, linkFrom]
    congr 1
    omega
  | loop openPos body closePos next ihbody ihnext =>
    rw [tokens, List.cons_append, List.append_assoc]
    change matchFrom (start + 1) ((start, ⟨.loopOpen, openPos⟩) :: pending) partner
      (body.tokens ++ ⟨.loopClose, closePos⟩ :: (next.tokens ++ rest)) = _
    have hclose : start + 1 + body.size = start + body.size + 1 := by omega
    have hend : start + body.size + 2 + next.size = start + (body.size + next.size + 2) := by omega
    rw [ihbody, hclose]
    change matchFrom (start + body.size + 2) pending
      (link (body.linkFrom (start + 1) partner) start (start + body.size + 1))
      (next.tokens ++ rest) = _
    rw [ihnext, size_loop, linkFrom, hend]

theorem build_tokens (b : Block) :
    build b.tokens = .ok ⟨b.linkFrom 0 (Array.replicate b.size none)⟩ := by
  have h := matchFrom_tokens_append b 0 [] (Array.replicate b.size none) []
  rw [List.append_nil] at h
  exact h

@[simp] theorem size_linkFrom (b : Block) (start : Nat) (partner : Array (Option Nat)) :
    (b.linkFrom start partner).size = partner.size := by
  induction b generalizing start partner with
  | done => rfl
  | leaf op pos rest ih => exact ih _ _
  | loop openPos body closePos rest ihbody ihrest => simp [linkFrom, ihbody, ihrest]

theorem join_getElem?_linkFrom {b : Block} {start : Nat} {partner : Array (Option Nat)}
    (hfit : start + b.size ≤ partner.size) (k : Nat) :
    (b.linkFrom start partner)[k]?.join = (b.partnerAt start k).or partner[k]?.join := by
  induction b generalizing start partner with
  | done => rfl
  | leaf op pos rest ih =>
    rw [size_leaf] at hfit
    exact ih (by omega)
  | loop openPos body closePos rest ihbody ihrest =>
    rw [size_loop] at hfit
    rw [linkFrom, ihrest (by simp only [size_link, size_linkFrom]; omega),
      join_getElem?_link (by simp only [size_linkFrom]; omega)
        (by simp only [size_linkFrom]; omega), ihbody (by omega)]
    rcases Nat.lt_or_ge (start + body.size + 1) k with hbehind | hupto
    · have hbody : body.partnerAt (start + 1) k = none := partnerAt_eq_none (.inr (by omega))
      rw [partnerAt_loop_rest _ _ _ _ hbehind, if_neg (by omega), if_neg (by omega), hbody,
        Option.none_or]
    have hrest : rest.partnerAt (start + body.size + 2) k = none :=
      partnerAt_eq_none (.inl (by omega))
    rw [hrest, Option.none_or]
    by_cases hclose : k = start + body.size + 1
    · rw [hclose, partnerAt_loop_close, if_pos rfl, Option.some_or]
    by_cases hopen : k = start
    · rw [hopen, partnerAt_loop_open, if_neg (by omega), if_pos rfl, Option.some_or]
    rw [if_neg hclose, if_neg hopen]
    rcases Nat.lt_or_ge k start with hbefore | hafter
    · rw [partnerAt_eq_none (.inl (by omega)), partnerAt_eq_none (.inl hbefore)]
    · rw [partnerAt_loop_body _ _ _ _ (by omega) (by omega)]

theorem parseFrom_of_matchFrom {input : List Token} {i : Nat} {pending : List (Nat × Token)}
    {partner : Array (Option Nat)} {table : LoopTable}
    (h : matchFrom i pending partner input = .ok table) :
    ∃ b later, parseFrom input = some (b, later) ∧ later.length = pending.length := by
  induction input generalizing i pending partner with
  | nil =>
    cases pending with
    | nil => exact ⟨done, [], rfl, rfl⟩
    | cons entry outer => cases h
  | cons t rest ih =>
    cases t using Token.byRole with
    | plain op pos =>
      rw [matchFrom_plain] at h
      obtain ⟨b, later, hrest, hlength⟩ := ih h
      exact ⟨leaf op pos b, later, by simp [parseFrom, hrest, prepend], hlength⟩
    | opening pos =>
      obtain ⟨b, later, hrest, hlength⟩ := ih h
      cases later with
      | nil => cases hlength
      | cons entry later =>
        refine ⟨loop pos b entry.1 entry.2, later, ?_, Nat.succ.inj hlength⟩
        rw [parseFrom, hrest]
        rfl
    | closing pos =>
      cases pending with
      | nil => cases h
      | cons entry outer =>
        obtain ⟨b, later, hrest, hlength⟩ := ih h
        refine ⟨done, (pos, b) :: later, ?_, congrArg Nat.succ hlength⟩
        rw [parseFrom, hrest]
        rfl

end Block

namespace LoopTable

theorem exists_block_of_build {tokens : List Token} {table : LoopTable}
    (h : build tokens = .ok table) : ∃ b : Block, b.tokens = tokens := by
  obtain ⟨b, later, hparse, hlength⟩ := Block.parseFrom_of_matchFrom h
  have hnil : later = [] := List.eq_nil_of_length_eq_zero hlength
  exact ⟨b, by simpa [hnil, Block.laterTokens] using Block.tokens_of_parseFrom hparse⟩

theorem exists_build_iff_balanced {tokens : List Token} :
    (∃ table, build tokens = .ok table) ↔ Balanced tokens := by
  constructor
  · rintro ⟨table, h⟩
    obtain ⟨b, rfl⟩ := exists_block_of_build h
    exact b.balanced_tokens
  · intro h
    obtain ⟨b, rfl⟩ := h.exists_block
    exact ⟨_, b.build_tokens⟩

theorem join_partner_of_build {b : Block} {table : LoopTable} (h : build b.tokens = .ok table)
    (k : Nat) : table.partner[k]?.join = b.partnerAt 0 k := by
  rw [Block.build_tokens] at h
  cases h
  have hblank : (Array.replicate b.size (none : Option Nat))[k]?.join = none := by
    rw [Array.getElem?_replicate]
    split <;> rfl
  rw [Block.join_getElem?_linkFrom (by simp), hblank, Option.or_none]

theorem closeOf_eq_some_iff_partnerAt {b : Block} {table : LoopTable}
    (h : build b.tokens = .ok table) {i j : Nat} :
    table.closeOf i = some j ↔ b.partnerAt 0 i = some j ∧ i < j := by
  rw [closeOf, join_partner_of_build h, Option.filter_eq_some_iff, decide_eq_true_iff]

theorem openOf_eq_some_iff_partnerAt {b : Block} {table : LoopTable}
    (h : build b.tokens = .ok table) {i j : Nat} :
    table.openOf j = some i ↔ b.partnerAt 0 j = some i ∧ i < j := by
  rw [openOf, join_partner_of_build h, Option.filter_eq_some_iff, decide_eq_true_iff]

variable {tokens : List Token} {table : LoopTable}

theorem openOf_eq_some_iff (h : build tokens = .ok table) {i j : Nat} :
    table.openOf j = some i ↔ table.closeOf i = some j := by
  obtain ⟨b, rfl⟩ := exists_block_of_build h
  rw [openOf_eq_some_iff_partnerAt h, closeOf_eq_some_iff_partnerAt h]
  constructor
  · rintro ⟨hpair, hlt⟩
    exact ⟨Block.partnerAt_symm hpair, hlt⟩
  · rintro ⟨hpair, hlt⟩
    exact ⟨Block.partnerAt_symm hpair, hlt⟩

theorem encloses_of_closeOf (h : build tokens = .ok table) {i j : Nat}
    (hclose : table.closeOf i = some j) : Encloses tokens i j := by
  obtain ⟨b, rfl⟩ := exists_block_of_build h
  obtain ⟨hpair, hlt⟩ := (closeOf_eq_some_iff_partnerAt h).mp hclose
  have hstart : b.partnerAt ([] : List Token).length i = some j := hpair
  simpa using Block.encloses_of_partnerAt [] hstart hlt

theorem exists_closeOf_or_openOf (h : build tokens = .ok table) {i : Nat} {t : Token}
    (ht : tokens[i]? = some t) (hbracket : t.op = .loopOpen ∨ t.op = .loopClose) :
    (∃ j, table.closeOf i = some j) ∨ ∃ j, table.openOf i = some j := by
  obtain ⟨b, rfl⟩ := exists_block_of_build h
  obtain ⟨j, hj⟩ := Block.exists_partnerAt 0 ht hbracket
  rw [Nat.zero_add] at hj
  rcases Nat.lt_or_gt_of_ne (Block.partnerAt_ne hj) with hlt | hgt
  · exact .inl ⟨j, (closeOf_eq_some_iff_partnerAt h).mpr ⟨hj, hlt⟩⟩
  · exact .inr ⟨j, (openOf_eq_some_iff_partnerAt h).mpr ⟨hj, hgt⟩⟩

theorem exists_closeOf (h : build tokens = .ok table) {i : Nat} {t : Token}
    (ht : tokens[i]? = some t) (hopen : t.op = .loopOpen) : ∃ j, table.closeOf i = some j := by
  rcases exists_closeOf_or_openOf h ht (.inl hopen) with hclose | ⟨j, hj⟩
  · exact hclose
  · have hkind := (encloses_of_closeOf h ((openOf_eq_some_iff h).mp hj)).closing
    simp [ht, hopen] at hkind

theorem exists_openOf (h : build tokens = .ok table) {i : Nat} {t : Token}
    (ht : tokens[i]? = some t) (hclose : t.op = .loopClose) : ∃ j, table.openOf i = some j := by
  rcases exists_closeOf_or_openOf h ht (.inr hclose) with ⟨j, hj⟩ | hopen
  · have hkind := (encloses_of_closeOf h hj).opening
    simp [ht, hclose] at hkind
  · exact hopen

theorem closeOf_eq_some_iff (h : build tokens = .ok table) {i j : Nat} :
    table.closeOf i = some j ↔ Encloses tokens i j := by
  constructor
  · exact encloses_of_closeOf h
  · intro hpair
    obtain ⟨t, ht, hopen⟩ := Option.map_eq_some_iff.mp hpair.opening
    obtain ⟨k, hk⟩ := exists_closeOf h ht hopen
    rw [hk, hpair.unique (encloses_of_closeOf h hk)]

theorem body_eq_some_iff {i first last : Nat} :
    table.body i = some (first, last) ↔ first = i + 1 ∧ table.closeOf i = some last := by
  rw [body, Option.map_eq_some_iff]
  constructor
  · rintro ⟨close, hclose, heq⟩
    cases heq
    exact ⟨rfl, hclose⟩
  · rintro ⟨rfl, hclose⟩
    exact ⟨last, hclose, rfl⟩

/-- Exactly the balanced programs have a table, and it is their nesting: two
brackets are partners when they enclose a balanced list, every bracket has a
partner, and of two loops one is inside the other or before it. -/
theorem build_is_nested_matching (tokens : List Token) :
    ((∃ table, build tokens = .ok table) ↔ Balanced tokens) ∧
    ∀ table, build tokens = .ok table →
      (∀ i j, table.closeOf i = some j ↔ Encloses tokens i j) ∧
      (∀ i j, table.openOf j = some i ↔ table.closeOf i = some j) ∧
      (∀ i first last, table.body i = some (first, last) ↔
        first = i + 1 ∧ table.closeOf i = some last) ∧
      (∀ i t, tokens[i]? = some t → t.op = .loopOpen → ∃ j, table.closeOf i = some j) ∧
      (∀ j t, tokens[j]? = some t → t.op = .loopClose → ∃ i, table.openOf j = some i) ∧
      (∀ i j k l, table.closeOf i = some j → table.closeOf k = some l → i < k →
        j < k ∨ l < j) := by
  refine ⟨exists_build_iff_balanced, ?_⟩
  intro table h
  refine ⟨fun i j => closeOf_eq_some_iff h, fun i j => openOf_eq_some_iff h,
    fun i first last => body_eq_some_iff, fun i t => exists_closeOf h, fun j t => exists_openOf h, ?_⟩
  intro i j k l hij hkl hik
  have houter := encloses_of_closeOf h hij
  have hinner := encloses_of_closeOf h hkl
  rcases Nat.lt_trichotomy k j with hlt | heq | hgt
  · exact .inr (houter.lt_of_lt hinner hik hlt)
  · have hkind := hinner.opening
    rw [heq, houter.closing] at hkind
    cases hkind
  · exact .inl hgt

theorem build_is_nested_matching_siblings :
    ∃ table, build [⟨.loopOpen, 0⟩, ⟨.loopOpen, 1⟩, ⟨.loopClose, 2⟩, ⟨.loopClose, 3⟩, ⟨.increment, 4⟩,
        ⟨.loopOpen, 5⟩, ⟨.loopClose, 6⟩] = .ok table ∧
      table.closeOf 0 = some 3 ∧ table.openOf 6 = some 5 ∧ table.body 1 = some (2, 2) ∧
      (3 < 5 ∨ 6 < 3) := by
  obtain ⟨hbalanced, hmatching⟩ := build_is_nested_matching
    [⟨.loopOpen, 0⟩, ⟨.loopOpen, 1⟩, ⟨.loopClose, 2⟩, ⟨.loopClose, 3⟩, ⟨.increment, 4⟩,
      ⟨.loopOpen, 5⟩, ⟨.loopClose, 6⟩]
  obtain ⟨table, htable⟩ := hbalanced.mpr (by decide)
  obtain ⟨hclose, hopen, hbody, -, -, hnested⟩ := hmatching table htable
  have houter := (hclose 0 3).mpr ⟨rfl, rfl, by decide, by decide⟩
  have hinner := (hclose 1 2).mpr ⟨rfl, rfl, by decide, by decide⟩
  have hsibling := (hclose 5 6).mpr ⟨rfl, rfl, by decide, by decide⟩
  exact ⟨table, htable, houter, (hopen 5 6).mpr hsibling, (hbody 1 2 2).mpr ⟨rfl, hinner⟩,
    hnested 0 3 5 6 houter hsibling (by decide)⟩

end LoopTable
end TapeLang
