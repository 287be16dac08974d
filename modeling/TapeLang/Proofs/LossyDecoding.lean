import Mathlib.Algebra.Group.Nat.Defs
import Mathlib.Data.List.Infix
import TapeLang.Text.Utf8

/-! What decoding makes of bytes that need not be UTF-8. `Utf8.Lossy` says it from the
encodings of characters alone: an encoded character is read as itself, and where none
begins, the longest beginning of one, or else a single byte, becomes a replacement
character. Every byte string has one such text, and the decoder finds it. -/
namespace TapeLang.Utf8

/-- Some character could still be made of these bytes. -/
def Begins (bytes : Bytes) : Prop := ∃ c, bytes <+: String.utf8EncodeChar c

/-- The text of any bytes. Where no character stands, as many bytes as could begin one, or a
single byte if it cannot, are read as a replacement character. -/
inductive Lossy : Bytes → List Char → Prop where
  | nil : Lossy [] []
  | char (c : Char) {rest : Bytes} {text : List Char} (h : Lossy rest text) :
      Lossy (String.utf8EncodeChar c ++ rest) (c :: text)
  | invalid {bad rest : Bytes} {text : List Char} (hne : bad ≠ [])
      (hno : ∀ c, ¬ String.utf8EncodeChar c <+: bad ++ rest)
      (hpart : Begins bad ∨ bad.length = 1)
      (hmax : ∀ longer, longer <+: bad ++ rest → Begins longer → longer.length ≤ bad.length)
      (h : Lossy rest text) : Lossy (bad ++ rest) (replacement :: text)

theorem utf8EncodeChar_append_inj {c d : Char} {more more' : Bytes}
    (h : String.utf8EncodeChar c ++ more = String.utf8EncodeChar d ++ more') :
    c = d ∧ more = more' := by
  have hdecode := congrArg (fun bytes => bytes.toByteArray.utf8DecodeChar? 0) h
  simp only [List.toByteArray_append, ByteArray.utf8DecodeChar?_utf8EncodeChar_append,
    Option.some.injEq] at hdecode
  subst hdecode
  exact ⟨rfl, List.append_cancel_left h⟩

theorem Lossy.eq_nil {text : List Char} (h : Lossy [] text) : text = [] := by
  generalize hbytes : ([] : Bytes) = bytes at h
  cases h with
  | nil => rfl
  | char c h => simp at hbytes
  | invalid hne => simp [hne] at hbytes

theorem length_le_of_parts {bad bad' rest rest' : Bytes} (heq : bad ++ rest = bad' ++ rest')
    (hpart : Begins bad ∨ bad.length = 1) (hne' : bad' ≠ [])
    (hmax' : ∀ longer, longer <+: bad' ++ rest' → Begins longer → longer.length ≤ bad'.length) :
    bad.length ≤ bad'.length := by
  rcases hpart with hbegins | hone
  · exact hmax' bad (heq ▸ List.prefix_append bad rest) hbegins
  · rw [hone]
    exact List.length_pos_iff.mpr hne'

theorem Lossy.unique {bytes : Bytes} {text text' : List Char} (h : Lossy bytes text)
    (h' : Lossy bytes text') : text = text' := by
  induction h generalizing text' with
  | nil => exact h'.eq_nil.symm
  | @char c rest text h ih =>
    generalize hbytes : String.utf8EncodeChar c ++ rest = bytes at h'
    cases h' with
    | nil => simp at hbytes
    | @char d _ _ h' =>
      obtain ⟨rfl, rfl⟩ := utf8EncodeChar_append_inj hbytes
      rw [ih h']
    | invalid _ hno => exact absurd ⟨rest, hbytes⟩ (hno c)
  | @invalid bad rest text hne hno hpart hmax h ih =>
    generalize hbytes : bad ++ rest = bytes at h'
    cases h' with
    | nil => simp [hne] at hbytes
    | @char d rest' _ h' => exact absurd ⟨rest', hbytes.symm⟩ (hno d)
    | @invalid bad' rest' _ hne' hno' hpart' hmax' h' =>
      have hlength := Nat.le_antisymm (length_le_of_parts hbytes hpart hne' hmax')
        (length_le_of_parts hbytes.symm hpart' hne hmax)
      obtain ⟨rfl, rfl⟩ := List.append_inj hbytes hlength
      rw [ih h']

def sextets : Nat → Nat → Bytes
  | 0, _ => []
  | k + 1, v => UInt8.ofNat (v / 64 ^ k % 64 + 0x80) :: sextets k v

/-- The bytes that finish a character from here, and the character. -/
inductive Pending.Awaits : Pending → Bytes → Char → Prop where
  | last {low high b : UInt8} {bits : Nat} (hlow : low ≤ b) (hhigh : b ≤ high) :
      Awaits ⟨low, high, 0, bits⟩ [b] (Char.ofNat (bits * 64 + (b.toNat - 0x80)))
  | more {low high b : UInt8} {k bits : Nat} {rest : Bytes} {c : Char} (hlow : low ≤ b)
      (hhigh : b ≤ high) (h : Awaits ⟨0x80, 0xBF, k, bits * 64 + (b.toNat - 0x80)⟩ rest c) :
      Awaits ⟨low, high, k + 1, bits⟩ (b :: rest) c

inductive Spells : Bytes → Char → Prop where
  | whole {b : UInt8} {c : Char} (h : lead b = .whole c) : Spells [b] c
  | begun {b : UInt8} {p : Pending} {rest : Bytes} {c : Char} (hlead : lead b = .begun p)
      (h : p.Awaits rest c) : Spells (b :: rest) c

theorem lead_whole {b : UInt8} {c : Char} (h : lead b = .whole c) :
    b.toNat < 0x80 ∧ c = Char.ofNat b.toNat := by
  revert h
  fun_cases lead b with
  | case1 n hn =>
    intro h
    cases h
    exact ⟨hn, rfl⟩
  | _ =>
    intro h
    cases h

theorem lead_begun {b : UInt8} {p : Pending} (h : lead b = .begun p) :
    (p.more = 0 ∧ b.toNat = 0xC0 + p.bits ∧ 2 ≤ p.bits ∧ p.bits < 0x20 ∧
      p.low.toNat = 0x80 ∧ p.high.toNat = 0xBF) ∨
    (p.more = 1 ∧ b.toNat = 0xE0 + p.bits ∧ p.bits < 0x10 ∧
      (p.bits = 0 ∧ p.low.toNat = 0xA0 ∨ p.bits ≠ 0 ∧ p.low.toNat = 0x80) ∧
      (p.bits = 0xD ∧ p.high.toNat = 0x9F ∨ p.bits ≠ 0xD ∧ p.high.toNat = 0xBF)) ∨
    (p.more = 2 ∧ b.toNat = 0xF0 + p.bits ∧ p.bits < 5 ∧
      (p.bits = 0 ∧ p.low.toNat = 0x90 ∨ p.bits ≠ 0 ∧ p.low.toNat = 0x80) ∧
      (p.bits = 4 ∧ p.high.toNat = 0x8F ∨ p.bits ≠ 4 ∧ p.high.toNat = 0xBF)) := by
  revert h
  fun_cases lead b with
  | case3 n =>
    intro h
    cases h
    refine .inl ⟨rfl, ?_, ?_, ?_, rfl, rfl⟩ <;> simp only <;> omega
  | case4 n =>
    intro h
    cases h
    refine .inr (.inl ⟨rfl, ?_, ?_, ?_, ?_⟩) <;> simp only [apply_ite UInt8.toNat] <;> grind
  | case5 n =>
    intro h
    cases h
    refine .inr (.inr ⟨rfl, ?_, ?_, ?_, ?_⟩) <;> simp only [apply_ite UInt8.toNat] <;> grind
  | _ =>
    intro h
    cases h

structure Pending.Sound (p : Pending) : Prop where
  least : 0x80 ≤ p.low.toNat
  le : p.low.toNat ≤ p.high.toNat
  greatest : p.high.toNat ≤ 0xBF

theorem sound_of_lead {b : UInt8} {p : Pending} (h : lead b = .begun p) : p.Sound := by
  have hkinds := lead_begun h
  constructor <;> omega

theorem Pending.sound_continue (more bits : Nat) : Pending.Sound ⟨0x80, 0xBF, more, bits⟩ :=
  ⟨Nat.le_refl 0x80, Nat.le_of_ble_eq_true rfl, Nat.le_refl 0xBF⟩

theorem toNat_sextet (n : Nat) : (UInt8.ofNat (n % 64 + 0x80)).toNat = n % 64 + 0x80 :=
  UInt8.toNat_ofNat_of_lt' (show n % 64 + 0x80 < 256 by omega)

theorem Pending.awaits_iff {p : Pending} (hp : p.Sound) {rest : Bytes} {c : Char} :
    p.Awaits rest c ↔ ∃ v, c = Char.ofNat v ∧ v / 64 ^ (p.more + 1) = p.bits ∧
      rest = sextets (p.more + 1) v ∧ p.low.toNat ≤ v / 64 ^ p.more % 64 + 0x80 ∧
      v / 64 ^ p.more % 64 + 0x80 ≤ p.high.toNat := by
  obtain ⟨low, high, more, bits⟩ := p
  obtain ⟨hleast, -, hgreatest⟩ := hp
  simp only at hleast hgreatest ⊢
  -- the number stays and its bits move, group by group, from the bytes to come to those gathered
  induction more generalizing low high bits rest with
  | zero =>
    simp only [Nat.pow_zero, Nat.div_one, Nat.zero_add, Nat.pow_one, sextets]
    constructor
    · intro h
      cases h with
      | @last _ _ b _ hlow hhigh =>
        rw [UInt8.le_iff_toNat_le] at hlow hhigh
        have hb : (bits * 64 + (b.toNat - 0x80)) % 64 + 0x80 = b.toNat := by omega
        refine ⟨_, rfl, by omega, ?_, by omega, by omega⟩
        rw [hb, UInt8.ofNat_toNat]
    · rintro ⟨v, rfl, rfl, rfl, hlow, hhigh⟩
      rw [← toNat_sextet, ← UInt8.le_iff_toNat_le] at hlow hhigh
      have hv : v / 64 * 64 + ((UInt8.ofNat (v % 64 + 0x80)).toNat - 0x80) = v := by
        rw [toNat_sextet]
        omega
      have hlast : Awaits ⟨low, high, 0, v / 64⟩ [_] _ := .last hlow hhigh
      rwa [hv] at hlast
  | succ more ih =>
    constructor
    · intro h
      cases h with
      | @more _ _ b _ _ rest _ hlow hhigh h =>
        obtain ⟨v, hc, hbits, hrest, -⟩ := (ih _ _ _ (by decide) (by decide)).mp h
        rw [UInt8.le_iff_toNat_le] at hlow hhigh
        have hb : v / 64 ^ (more + 1) % 64 + 0x80 = b.toNat := by omega
        refine ⟨v, hc, ?_, ?_, by omega, by omega⟩
        · rw [Nat.pow_succ, ← Nat.div_div_eq_div_mul, hbits]
          omega
        · rw [sextets, hb, UInt8.ofNat_toNat, hrest]
    · rintro ⟨v, hc, rfl, rfl, hlow, hhigh⟩
      rw [← toNat_sextet, ← UInt8.le_iff_toNat_le] at hlow hhigh
      have hsextet := Nat.le_of_lt_succ (Nat.mod_lt (v / 64 ^ more) (show 0 < 64 by decide))
      refine Awaits.more hlow hhigh ((ih _ _ _ (by decide) (by decide)).mpr ?_)
      refine ⟨v, hc, ?_, rfl, Nat.le_add_left .., Nat.add_le_add_right hsextet 0x80⟩
      rw [toNat_sextet, Nat.pow_succ _ (more + 1), ← Nat.div_div_eq_div_mul]
      omega

theorem toNat_ofNat {n : Nat} (h : n.isValidChar) : (Char.ofNat n).toNat = n := by
  rw [Char.ofNat, dif_pos h]
  rfl

theorem utf8EncodeChar_eq (c : Char) : String.utf8EncodeChar c =
    if c.toNat < 0x80 then [UInt8.ofNat c.toNat]
    else if c.toNat < 0x800 then UInt8.ofNat (0xC0 + c.toNat / 64) :: sextets 1 c.toNat
    else if c.toNat < 0x10000 then UInt8.ofNat (0xE0 + c.toNat / 64 ^ 2) :: sextets 2 c.toNat
    else UInt8.ofNat (0xF0 + c.toNat / 64 ^ 3) :: sextets 3 c.toNat := by
  have hvalid : c.toNat.isValidChar := c.valid
  have htwo : c.toNat < 0x800 → c.toNat / 64 % 32 + 192 = 0xC0 + c.toNat / 64 := by omega
  have hthree : c.toNat < 0x10000 → c.toNat / 4096 % 16 + 224 = 0xE0 + c.toNat / 4096 := by omega
  have hfour : c.toNat / 262144 % 8 + 240 = 0xF0 + c.toNat / 262144 := by omega
  rw [String.utf8EncodeChar.eq_1]
  simp only [Char.toNat_val, Nat.lt_succ_iff, sextets]
  split_ifs with h1 h2 h3
  · rfl
  · simp [htwo (by omega)]
  · simp [hthree (by omega)]
  · simp [hfour]

theorem exists_lead_begun {b : UInt8} (hleast : 0xC2 ≤ b.toNat) (hgreatest : b.toNat < 0xF5) :
    ∃ p, lead b = .begun p := by
  fun_cases lead b with
  | case3 | case4 | case5 => exact ⟨_, rfl⟩
  | _ => omega

theorem Spells.eq_utf8EncodeChar {bytes : Bytes} {c : Char} (h : Spells bytes c) :
    bytes = String.utf8EncodeChar c := by
  cases h with
  | @whole b _ hlead =>
    obtain ⟨hb, rfl⟩ := lead_whole hlead
    rw [utf8EncodeChar_eq, toNat_ofNat (by omega), if_pos hb, UInt8.ofNat_toNat]
  | @begun b p rest _ hlead h =>
    obtain ⟨v, rfl, hbits, rfl, hlow, hhigh⟩ := (Pending.awaits_iff (sound_of_lead hlead)).mp h
    rcases lead_begun hlead with ⟨hmore, hb, hrange⟩ | ⟨hmore, hb, hrange⟩ | ⟨hmore, hb, hrange⟩
    all_goals
      rw [hmore] at hbits hlow hhigh ⊢
      rw [utf8EncodeChar_eq, toNat_ofNat (by omega), if_neg (by omega)]
    · rw [if_pos (by omega), ← Nat.pow_one 64, hbits, ← hb, UInt8.ofNat_toNat]
    · rw [if_neg (by omega), if_pos (by omega), hbits, ← hb, UInt8.ofNat_toNat]
    · rw [if_neg (by omega), if_neg (by omega), hbits, ← hb, UInt8.ofNat_toNat]

theorem spells_of_lead {b : UInt8} {p : Pending} {c : Char} {k : Nat} (hlead : lead b = .begun p)
    (hmore : p.more = k) (hbits : c.toNat / 64 ^ (k + 1) = p.bits)
    (hlow : p.low.toNat ≤ c.toNat / 64 ^ k % 64 + 0x80)
    (hhigh : c.toNat / 64 ^ k % 64 + 0x80 ≤ p.high.toNat) :
    Spells (b :: sextets (k + 1) c.toNat) c := by
  subst hmore
  refine .begun hlead ((Pending.awaits_iff (sound_of_lead hlead)).mpr ?_)
  exact ⟨c.toNat, (Char.ofNat_toNat c).symm, hbits, rfl, hlow, hhigh⟩

theorem spells_utf8EncodeChar (c : Char) : Spells (String.utf8EncodeChar c) c := by
  have hvalid : c.toNat.isValidChar := c.valid
  rw [utf8EncodeChar_eq]
  split_ifs with hone htwo hthree
  · have hb := UInt8.toNat_ofNat_of_lt' (show c.toNat < 256 by omega)
    refine .whole ?_
    rw [lead, hb, if_pos hone, Char.ofNat_toNat]
  · have hb := UInt8.toNat_ofNat_of_lt' (show 0xC0 + c.toNat / 64 < 256 by omega)
    obtain ⟨p, hlead⟩ := exists_lead_begun (by rw [hb]; omega) (by rw [hb]; omega)
    have hp := lead_begun hlead
    exact spells_of_lead (k := 0) hlead (by omega) (by omega) (by omega) (by omega)
  · have hb := UInt8.toNat_ofNat_of_lt' (show 0xE0 + c.toNat / 64 ^ 2 < 256 by omega)
    obtain ⟨p, hlead⟩ := exists_lead_begun (by rw [hb]; omega) (by rw [hb]; omega)
    have hp := lead_begun hlead
    exact spells_of_lead (k := 1) hlead (by omega) (by omega) (by omega) (by omega)
  · have hb := UInt8.toNat_ofNat_of_lt' (show 0xF0 + c.toNat / 64 ^ 3 < 256 by omega)
    obtain ⟨p, hlead⟩ := exists_lead_begun (by rw [hb]; omega) (by rw [hb]; omega)
    have hp := lead_begun hlead
    exact spells_of_lead (k := 2) hlead (by omega) (by omega) (by omega) (by omega)

/-- The state of a decoder inside a character of which it has read these bytes. -/
structure Pending.After (p : Pending) (got : Bytes) : Prop where
  sound : p.Sound
  begun : got ≠ []
  awaits_iff : ∀ rest c, p.Awaits rest c ↔ got ++ rest = String.utf8EncodeChar c

theorem Pending.Awaits.bounds {p : Pending} {b : UInt8} {rest : Bytes} {c : Char}
    (h : p.Awaits (b :: rest) c) : p.low ≤ b ∧ b ≤ p.high := by
  cases h with
  | last hlow hhigh => exact ⟨hlow, hhigh⟩
  | more hlow hhigh => exact ⟨hlow, hhigh⟩

theorem Pending.Sound.exists_awaits {p : Pending} (hp : p.Sound) : ∃ rest c, p.Awaits rest c := by
  obtain ⟨low, high, more, bits⟩ := p
  have hle : low ≤ high := UInt8.le_iff_toNat_le.mpr hp.le
  clear hp
  induction more generalizing low high bits with
  | zero => exact ⟨[low], _, .last UInt8.le_rfl hle⟩
  | succ more ih =>
    obtain ⟨rest, c, h⟩ := ih 0x80 0xBF (bits * 64 + (low.toNat - 0x80)) (by decide)
    exact ⟨low :: rest, c, .more UInt8.le_rfl hle h⟩

theorem lead_of_eq_utf8EncodeChar {b : UInt8} {rest : Bytes} {c : Char}
    (h : b :: rest = String.utf8EncodeChar c) :
    (lead b = .whole c ∧ rest = []) ∨ ∃ p, lead b = .begun p ∧ p.Awaits rest c := by
  have hspells := spells_utf8EncodeChar c
  rw [← h] at hspells
  cases hspells with
  | whole hlead => exact .inl ⟨hlead, rfl⟩
  | begun hlead hp => exact .inr ⟨_, hlead, hp⟩

theorem after_of_lead {b : UInt8} {p : Pending} (h : lead b = .begun p) : p.After [b] where
  sound := sound_of_lead h
  begun := List.cons_ne_nil b []
  awaits_iff rest c := by
    constructor
    · intro hp
      exact (Spells.begun h hp).eq_utf8EncodeChar
    · intro hc
      rcases lead_of_eq_utf8EncodeChar hc with ⟨hlead, -⟩ | ⟨p', hlead, hp⟩
      · cases hlead.symm.trans h
      · cases hlead.symm.trans h
        exact hp

namespace Pending.After

variable {p : Pending} {got : Bytes}

theorem begins (h : p.After got) : Begins got := by
  obtain ⟨rest, c, hawaits⟩ := h.sound.exists_awaits
  exact ⟨c, rest, (h.awaits_iff rest c).mp hawaits⟩

theorem not_prefix (h : p.After got) (c : Char) : ¬ String.utf8EncodeChar c <+: got := by
  rintro ⟨more, hmore⟩
  obtain ⟨d, rest, hrest⟩ := h.begins
  rw [← hmore, List.append_assoc, ← List.append_nil (String.utf8EncodeChar d)] at hrest
  obtain ⟨rfl, hnil⟩ := utf8EncodeChar_append_inj hrest
  obtain ⟨rfl, rfl⟩ := List.append_eq_nil_iff.mp hnil
  have hawaits := (h.awaits_iff [] c).mpr (by rw [← hmore, List.append_nil, List.append_nil])
  cases hawaits

theorem next {low high b : UInt8} {more bits : Nat}
    (h : (⟨low, high, more + 1, bits⟩ : Pending).After got) (hlow : low ≤ b) (hhigh : b ≤ high) :
    (⟨0x80, 0xBF, more, bits * 64 + (b.toNat - 0x80)⟩ : Pending).After (got ++ [b]) where
  sound := sound_continue ..
  begun := List.concat_ne_nil b got
  awaits_iff rest c := by
    rw [List.append_assoc, List.singleton_append, ← h.awaits_iff]
    constructor
    · exact .more hlow hhigh
    · intro hawaits
      cases hawaits with
      | more _ _ hrest => exact hrest

theorem lossy_stop (h : p.After got) {rest : Bytes} {text : List Char}
    (hstop : ∀ b, rest.head? = some b → ¬ (p.low ≤ b ∧ b ≤ p.high)) (hrest : Lossy rest text) :
    Lossy (got ++ rest) (replacement :: text) := by
  have hmax : ∀ longer, longer <+: got ++ rest → Begins longer → longer.length ≤ got.length := by
    rintro longer hlonger ⟨c, more, hc⟩
    by_contra hlt
    obtain ⟨extra, rfl⟩ := List.prefix_of_prefix_length_le (List.prefix_append got rest) hlonger
      (Nat.le_of_not_le hlt)
    cases extra with
    | nil => simp at hlt
    | cons b extra =>
      obtain ⟨tail, rfl⟩ := (List.prefix_append_right_inj got).mp hlonger
      rw [List.append_assoc] at hc
      exact hstop b rfl ((h.awaits_iff _ c).mpr hc).bounds
  refine .invalid h.begun ?_ (.inl h.begins) hmax hrest
  intro c hc
  have hlength := hmax _ hc ⟨c, List.prefix_rfl⟩
  exact h.not_prefix c (List.prefix_of_prefix_length_le hc (List.prefix_append got rest) hlength)

end Pending.After

theorem lossy_of_lead_invalid {b : UInt8} {rest : Bytes} {text : List Char}
    (hlead : lead b = .invalid) (hrest : Lossy rest text) :
    Lossy (b :: rest) (replacement :: text) := by
  have hnone : ∀ front, front <+: b :: rest → Begins front → front = [] := by
    rintro (_ | ⟨_, front⟩) hfront ⟨c, more, hc⟩
    · rfl
    · obtain ⟨rfl, -⟩ := List.cons_prefix_cons.mp hfront
      rcases lead_of_eq_utf8EncodeChar hc with ⟨h, -⟩ | ⟨p, h, -⟩
      · cases h.symm.trans hlead
      · cases h.symm.trans hlead
  change Lossy ([b] ++ rest) (replacement :: text)
  refine .invalid (List.cons_ne_nil b []) ?_ (.inr rfl) ?_ hrest
  · intro c hc
    exact String.utf8EncodeChar_ne_nil (hnone _ hc ⟨c, List.prefix_rfl⟩)
  · intro longer hlonger hbegins
    rw [hnone longer hlonger hbegins]
    exact Nat.zero_le _

theorem decodeFrom_of_not_bounds {p : Pending} {b : UInt8} (h : ¬ (p.low ≤ b ∧ b ≤ p.high))
    (rest : Bytes) :
    decodeFrom (some p) (b :: rest) = replacement :: decodeFrom none (b :: rest) := by
  rw [decodeFrom, decodeFrom, step, step, continueAt, if_neg h]
  rfl

/-- The decoder finds the text of the bytes it reads, from the start of a character and from
inside one. -/
theorem lossy_decodeFrom (bytes : Bytes) : Lossy bytes (decodeFrom none bytes) ∧
    ∀ p got, p.After got → Lossy (got ++ bytes) (decodeFrom (some p) bytes) := by
  induction bytes with
  | nil => exact ⟨.nil, fun p got h => h.lossy_stop (by simp) .nil⟩
  | cons b rest ih =>
    obtain ⟨hfresh, hinside⟩ := ih
    have hstart : Lossy (b :: rest) (decodeFrom none (b :: rest)) := by
      rw [decodeFrom, step, startAt]
      cases hlead : lead b with
      | whole c =>
        have hc := Lossy.char c hfresh
        rwa [← (Spells.whole hlead).eq_utf8EncodeChar] at hc
      | begun p => exact hinside p [b] (after_of_lead hlead)
      | invalid => exact lossy_of_lead_invalid hlead hfresh
    refine ⟨hstart, fun p got h => ?_⟩
    by_cases hbounds : p.low ≤ b ∧ b ≤ p.high
    · rw [decodeFrom, step, continueAt, if_pos hbounds]
      obtain ⟨low, high, _ | more, bits⟩ := p
      · have hc := (h.awaits_iff [b] _).mp (.last hbounds.1 hbounds.2)
        have hchar := Lossy.char (Char.ofNat (bits * 64 + (b.toNat - 0x80))) hfresh
        rwa [← hc, List.append_assoc] at hchar
      · have hmore := hinside _ _ (h.next hbounds.1 hbounds.2)
        rwa [List.append_assoc] at hmore
    · rw [decodeFrom_of_not_bounds hbounds]
      exact h.lossy_stop (by rintro _ ⟨⟩; exact hbounds) hstart

theorem lossy_iff {bytes : Bytes} {text : List Char} :
    Lossy bytes text ↔ text = decodeChars bytes := by
  constructor
  · intro h
    exact h.unique (lossy_decodeFrom bytes).1
  · rintro rfl
    exact (lossy_decodeFrom bytes).1

end TapeLang.Utf8
