import TapeLang.Proofs.Block

/-! Which brackets belong together. Two brackets enclose a balanced list; in a
tree they are the two ends of one loop. Both views pair every opening bracket
with one closing bracket, and the pairs never cross. -/
namespace TapeLang

/-- The brackets at the two indices enclose a balanced list. -/
structure Encloses (tokens : List Token) (i j : Nat) : Prop where
  opening : tokens[i]?.map Token.op = some .loopOpen
  closing : tokens[j]?.map Token.op = some .loopClose
  lt : i < j
  inner : Balanced ((tokens.take j).drop (i + 1))

theorem encloses_append {o c : Token} {body : List Token} (hopen : o.op = .loopOpen)
    (hclose : c.op = .loopClose) (hbody : Balanced body) (before after : List Token) :
    Encloses (before ++ o :: (body ++ c :: after)) before.length
      (before.length + body.length + 1) where
  opening := by simp [hopen]
  closing := by
    have hindex : before.length + body.length + 1 - before.length = body.length + 1 := by omega
    rw [List.getElem?_append_right (by omega), hindex]
    simp [hclose]
  lt := by omega
  inner := by
    have hindex : before.length + body.length + 1 - before.length = body.length + 1 := by omega
    have hover : before.length + 1 - before.length = 1 := by omega
    rw [List.take_append, List.take_of_length_le (show before.length ≤ _ by omega), hindex,
      List.take_succ_cons, List.take_append_of_le_length (Nat.le_refl _), List.take_length,
      List.drop_append, List.drop_of_length_le (show before.length ≤ _ by omega), hover]
    exact hbody

theorem Encloses.depth_take {tokens : List Token} {i j n : Nat} (h : Encloses tokens i j)
    (hin : i < n) (hnj : n ≤ j) :
    depth (tokens.take n) = depth (tokens.take i) + 1 +
      depth (((tokens.take j).drop (i + 1)).take (n - (i + 1))) := by
  obtain ⟨o, ho, hopen⟩ := Option.map_eq_some_iff.mp h.opening
  have hcut : ((tokens.take j).drop (i + 1)).take (n - (i + 1)) = (tokens.take n).drop (i + 1) := by
    rw [List.take_drop, List.take_take]
    congr 2
    omega
  have hsplit : tokens.take n = tokens.take (i + 1) ++ (tokens.take n).drop (i + 1) := by
    have := List.take_append_drop (i + 1) (tokens.take n)
    rw [List.take_take, Nat.min_eq_left hin] at this
    exact this.symm
  rw [hcut, hsplit, depth_append, depth_take_succ ho, Token.rise_of_open hopen, ← hsplit]

theorem Encloses.depth_lt {tokens : List Token} {i j n : Nat} (h : Encloses tokens i j)
    (hin : i < n) (hnj : n ≤ j) : depth (tokens.take i) < depth (tokens.take n) := by
  have hinner := h.inner.depth_take_nonneg (n - (i + 1))
  rw [h.depth_take hin hnj]
  omega

theorem Encloses.depth_after {tokens : List Token} {i j : Nat} (h : Encloses tokens i j) :
    depth (tokens.take (j + 1)) = depth (tokens.take i) := by
  obtain ⟨c, hc, hclose⟩ := Option.map_eq_some_iff.mp h.closing
  have hwhole : ((tokens.take j).drop (i + 1)).take (j - (i + 1)) =
      (tokens.take j).drop (i + 1) := by
    apply List.take_of_length_le
    simp only [List.length_drop, List.length_take]
    omega
  rw [depth_take_succ hc, Token.rise_of_close hclose, h.depth_take h.lt (Nat.le_refl j), hwhole,
    h.inner.depth_eq_zero]
  omega

theorem Encloses.unique {tokens : List Token} {i j k : Nat} (hj : Encloses tokens i j)
    (hk : Encloses tokens i k) : j = k := by
  have hij := hj.lt
  have hik := hk.lt
  have hjafter := hj.depth_after
  have hkafter := hk.depth_after
  rcases Nat.lt_trichotomy j k with hlt | heq | hgt
  · have := hk.depth_lt (show i < j + 1 by omega) hlt
    omega
  · exact heq
  · have := hj.depth_lt (show i < k + 1 by omega) hgt
    omega

theorem Encloses.lt_of_lt {tokens : List Token} {i j k l : Nat} (houter : Encloses tokens i j)
    (hinner : Encloses tokens k l) (hik : i < k) (hkj : k < j) : l < j := by
  apply Nat.lt_of_not_le
  intro hjl
  have hstart := houter.depth_lt hik (Nat.le_of_lt hkj)
  have hafter := houter.depth_after
  rcases Nat.eq_or_lt_of_le hjl with rfl | hlt
  · have := hinner.depth_after
    omega
  · have := hinner.depth_lt (show k < j + 1 by omega) hlt
    omega

namespace Block

def partnerAt : Block → Nat → Nat → Option Nat
  | done, _, _ => none
  | leaf _ _ rest, start, k => rest.partnerAt (start + 1) k
  | loop _ body _ rest, start, k =>
    if k = start then some (start + body.size + 1)
    else if k = start + body.size + 1 then some start
    else (body.partnerAt (start + 1) k).or (rest.partnerAt (start + body.size + 2) k)

theorem partnerAt_loop_cases {openPos closePos start k j : Nat} {body rest : Block}
    (h : (loop openPos body closePos rest).partnerAt start k = some j) :
    (k = start ∧ j = start + body.size + 1) ∨ (k = start + body.size + 1 ∧ j = start) ∨
      body.partnerAt (start + 1) k = some j ∨
      rest.partnerAt (start + body.size + 2) k = some j := by
  rw [partnerAt] at h
  split at h
  next hopen => exact .inl ⟨hopen, (Option.some.inj h).symm⟩
  next =>
    split at h
    next hclose => exact .inr (.inl ⟨hclose, (Option.some.inj h).symm⟩)
    next =>
      rcases Option.or_eq_some_iff.mp h with hbody | ⟨-, hrest⟩
      · exact .inr (.inr (.inl hbody))
      · exact .inr (.inr (.inr hrest))

theorem partnerAt_bounds {b : Block} {start k j : Nat} (h : b.partnerAt start k = some j) :
    start ≤ k ∧ k < start + b.size := by
  induction b generalizing start with
  | done => cases h
  | leaf op pos rest ih =>
    have := ih h
    rw [size_leaf]
    omega
  | loop openPos body closePos rest ihbody ihrest =>
    rw [size_loop]
    rcases partnerAt_loop_cases h with ⟨hk, -⟩ | ⟨hk, -⟩ | hbody | hrest
    · omega
    · omega
    · have := ihbody hbody
      omega
    · have := ihrest hrest
      omega

theorem partnerAt_eq_none {b : Block} {start k : Nat} (h : k < start ∨ start + b.size ≤ k) :
    b.partnerAt start k = none := by
  cases hk : b.partnerAt start k with
  | none => rfl
  | some j =>
    have := partnerAt_bounds hk
    omega

theorem partnerAt_loop_open (openPos closePos start : Nat) (body rest : Block) :
    (loop openPos body closePos rest).partnerAt start start = some (start + body.size + 1) := by
  rw [partnerAt, if_pos rfl]

theorem partnerAt_loop_close (openPos closePos start : Nat) (body rest : Block) :
    (loop openPos body closePos rest).partnerAt start (start + body.size + 1) = some start := by
  rw [partnerAt, if_neg (by omega), if_pos rfl]

theorem partnerAt_loop_body {start k : Nat} (openPos closePos : Nat) (body rest : Block)
    (hopen : start < k) (hclose : k < start + body.size + 1) :
    (loop openPos body closePos rest).partnerAt start k = body.partnerAt (start + 1) k := by
  have hrest : rest.partnerAt (start + body.size + 2) k = none :=
    partnerAt_eq_none (.inl (by omega))
  rw [partnerAt, if_neg (by omega), if_neg (by omega), hrest, Option.or_none]

theorem partnerAt_loop_rest {start k : Nat} (openPos closePos : Nat) (body rest : Block)
    (hclose : start + body.size + 1 < k) :
    (loop openPos body closePos rest).partnerAt start k =
      rest.partnerAt (start + body.size + 2) k := by
  have hbody : body.partnerAt (start + 1) k = none := partnerAt_eq_none (.inr (by omega))
  rw [partnerAt, if_neg (by omega), if_neg (by omega), hbody, Option.none_or]

theorem partnerAt_symm {b : Block} {start k j : Nat} (h : b.partnerAt start k = some j) :
    b.partnerAt start j = some k := by
  induction b generalizing start with
  | done => cases h
  | leaf op pos rest ih => exact ih h
  | loop openPos body closePos rest ihbody ihrest =>
    rcases partnerAt_loop_cases h with ⟨rfl, rfl⟩ | ⟨rfl, rfl⟩ | hbody | hrest
    · exact partnerAt_loop_close ..
    · exact partnerAt_loop_open ..
    · have hback := ihbody hbody
      have := partnerAt_bounds hback
      rw [partnerAt_loop_body _ _ _ _ (by omega) (by omega), hback]
    · have hback := ihrest hrest
      have := partnerAt_bounds hback
      rw [partnerAt_loop_rest _ _ _ _ (by omega), hback]

theorem partnerAt_ne {b : Block} {start k j : Nat} (h : b.partnerAt start k = some j) : k ≠ j := by
  induction b generalizing start with
  | done => cases h
  | leaf op pos rest ih => exact ih h
  | loop openPos body closePos rest ihbody ihrest =>
    rcases partnerAt_loop_cases h with ⟨rfl, rfl⟩ | ⟨rfl, rfl⟩ | hbody | hrest
    · omega
    · omega
    · exact ihbody hbody
    · exact ihrest hrest

theorem encloses_of_partnerAt {b : Block} {k j : Nat} {before : List Token} (after : List Token)
    (h : b.partnerAt before.length k = some j) (hlt : k < j) :
    Encloses (before ++ (b.tokens ++ after)) k j := by
  induction b generalizing before after with
  | done => cases h
  | leaf op pos rest ih =>
    let passed : List Token := before ++ [⟨op.instruction, pos⟩]
    have hpassed : passed.length = before.length + 1 := by simp [passed]
    rw [partnerAt, ← hpassed] at h
    simpa [tokens, passed] using ih after h
  | loop openPos body closePos rest ihbody ihrest =>
    rcases partnerAt_loop_cases h with ⟨rfl, rfl⟩ | ⟨rfl, rfl⟩ | hbody | hrest
    · simpa [tokens, size] using
        encloses_append rfl rfl body.balanced_tokens before (rest.tokens ++ after)
    · omega
    · let passed : List Token := before ++ [⟨.loopOpen, openPos⟩]
      have hpassed : passed.length = before.length + 1 := by simp [passed]
      rw [← hpassed] at hbody
      simpa [tokens, passed] using ihbody (⟨.loopClose, closePos⟩ :: (rest.tokens ++ after)) hbody
    · let passed : List Token :=
        before ++ ⟨.loopOpen, openPos⟩ :: (body.tokens ++ [⟨.loopClose, closePos⟩])
      have hpassed : passed.length = before.length + body.size + 2 := by
        simp only [passed, size, List.length_append, List.length_cons, List.length_nil]
        omega
      rw [← hpassed] at hrest
      simpa [tokens, passed] using ihrest after hrest

theorem exists_partnerAt {b : Block} {k : Nat} {t : Token} (start : Nat) (h : b.tokens[k]? = some t)
    (hbracket : t.op = .loopOpen ∨ t.op = .loopClose) :
    ∃ j, b.partnerAt start (start + k) = some j := by
  induction b generalizing start k with
  | done => cases h
  | leaf op pos rest ih =>
    cases k with
    | zero =>
      cases h
      simp at hbracket
    | succ k =>
      obtain ⟨j, hj⟩ := ih (start + 1) h
      exact ⟨j, by rw [partnerAt, ← hj]; congr 1; omega⟩
  | loop openPos body closePos rest ihbody ihrest =>
    cases k with
    | zero => exact ⟨_, partnerAt_loop_open ..⟩
    | succ k =>
      rw [tokens, List.getElem?_cons_succ] at h
      rcases Nat.lt_trichotomy k body.size with hlt | heq | hgt
      · rw [List.getElem?_append_left hlt] at h
        obtain ⟨j, hj⟩ := ihbody (start + 1) h
        rw [partnerAt_loop_body _ _ _ _ (by omega) (by omega)]
        exact ⟨j, by rw [← hj]; congr 1; omega⟩
      · exact ⟨_, by rw [heq, ← Nat.add_assoc]; exact partnerAt_loop_close ..⟩
      · obtain ⟨m, rfl⟩ := Nat.exists_eq_add_of_lt hgt
        have hindex : body.size + m + 1 - body.size = m + 1 := by omega
        rw [List.getElem?_append_right (Nat.le_of_lt hgt)] at h
        change (_ :: rest.tokens)[body.size + m + 1 - body.size]? = _ at h
        rw [hindex, List.getElem?_cons_succ] at h
        obtain ⟨j, hj⟩ := ihrest (start + body.size + 2) h
        rw [partnerAt_loop_rest _ _ _ _ (by omega)]
        exact ⟨j, by rw [← hj]; congr 1; omega⟩

end Block

end TapeLang
