import TapeLang.Proofs.LineIndependence
import TapeLang.Proofs.LossyDecoding

/-! The lines of a queue and the text of its bytes. A line is cut from the bytes and then
decoded. A newline ends whatever character was begun before it, so the lines are those
of the text that all the bytes have together. -/
namespace TapeLang

namespace Utf8

variable {state : Option Pending} {bytes : Bytes} {text : List Char}

theorem sound_startAt {b : UInt8} {p : Pending} (h : (startAt b).2 = some p) : p.Sound := by
  unfold startAt at h
  split at h
  · cases h
  next hlead =>
    cases h
    exact sound_of_lead hlead
  · cases h

theorem sound_step (hstate : ∀ p ∈ state, p.Sound) {b : UInt8} {p : Pending}
    (h : (step state b).2 = some p) : p.Sound := by
  cases state with
  | none => exact sound_startAt h
  | some q =>
    rw [step, continueAt] at h
    split at h
    · split at h
      · cases h
      · cases h
        exact Pending.sound_continue ..
    · exact sound_startAt h

/-- A newline is read as one wherever it comes, and the next character starts behind it. -/
theorem decodeFrom_append_newline (hstate : ∀ p ∈ state, p.Sound) (line rest : Bytes) :
    decodeFrom state (line ++ 0x0A :: rest) =
      decodeFrom state line ++ '\n' :: decodeFrom none rest := by
  induction line generalizing state with
  | nil =>
    cases state with
    | none => rfl
    | some p =>
      have hbounds : ¬ (p.low ≤ 0x0A ∧ 0x0A ≤ p.high) := by
        rintro ⟨hlow, -⟩
        have hleast := (hstate p rfl).least
        have hle : p.low.toNat ≤ 0x0A := UInt8.le_iff_toNat_le.mp hlow
        omega
      exact decodeFrom_of_not_bounds hbounds rest
  | cons b line ih =>
    rw [List.cons_append, decodeFrom, decodeFrom, ih (fun p hp => sound_step hstate hp),
      List.append_assoc]

theorem decodeChars_append_newline (line rest : Bytes) :
    decodeChars (line ++ 0x0A :: rest) = decodeChars line ++ '\n' :: decodeChars rest :=
  decodeFrom_append_newline (by simp) line rest

theorem Lossy.newline_mem (h : Lossy bytes text) (hmem : '\n' ∈ text) : 0x0A ∈ bytes := by
  induction h with
  | nil => cases hmem
  | char c _ ih =>
    rcases List.mem_cons.mp hmem with rfl | hmem
    · exact List.mem_append_left _ List.mem_cons_self
    · exact List.mem_append_right _ (ih hmem)
  | invalid _ _ _ _ _ ih =>
    rcases List.mem_cons.mp hmem with heq | hmem
    · cases heq
    · exact List.mem_append_right _ (ih hmem)

theorem decodeChars_ne_nil (h : bytes ≠ []) : decodeChars bytes ≠ [] := by
  intro hnil
  have hlossy : Lossy bytes [] := lossy_iff.mpr hnil.symm
  cases hlossy
  exact h rfl

theorem newline_notMem_decodeChars (h : 0x0A ∉ bytes) : '\n' ∉ decodeChars bytes :=
  fun hmem => h ((lossy_iff.mpr rfl).newline_mem hmem)

end Utf8

namespace Text

/-- The text cut after every newline; what is left behind the last one, if anything, is a
piece too. -/
def pieces : List Char → List (List Char)
  | [] => []
  | c :: rest =>
    if c = '\n' then [c] :: pieces rest
    else
      match pieces rest with
      | [] => [[c]]
      | piece :: more => (c :: piece) :: more

theorem pieces_append_newline {text : List Char} (h : '\n' ∉ text) (rest : List Char) :
    pieces (text ++ '\n' :: rest) = (text ++ ['\n']) :: pieces rest := by
  induction text with
  | nil => rfl
  | cons c text ih =>
    obtain ⟨hc, htext⟩ := not_or.mp (mt List.mem_cons.mpr h)
    rw [List.cons_append, pieces, if_neg (Ne.symm hc), ih htext]
    rfl

theorem pieces_of_newline_notMem {text : List Char} (h : '\n' ∉ text) (hne : text ≠ []) :
    pieces text = [text] := by
  induction text with
  | nil => exact absurd rfl hne
  | cons c text ih =>
    obtain ⟨hc, htext⟩ := not_or.mp (mt List.mem_cons.mpr h)
    rw [pieces, if_neg (Ne.symm hc)]
    cases text with
    | nil => rfl
    | cons d text => rw [ih htext (List.cons_ne_nil d text)]

def withoutEnd (text : List Char) : String :=
  String.ofList (dropRightWhile (fun c => c == '\n' || c == '\r') text)

theorem withoutEnd_append_newline (text : List Char) :
    withoutEnd (text ++ ['\n']) = withoutEnd text := by
  simp [withoutEnd, dropRightWhile]

theorem mem_of_mem_withoutEnd {c : Char} {text : List Char} (h : c ∈ (withoutEnd text).toList) :
    c ∈ text := by
  rw [withoutEnd, String.toList_ofList] at h
  exact mem_of_mem_dropRightWhile h

end Text

theorem exists_of_cutLine {bytes line rest : Bytes} (h : cutLine bytes = some (line, rest)) :
    ∃ body, 0x0A ∉ body ∧ line = body ++ [0x0A] := by
  induction bytes generalizing line with
  | nil => cases h
  | cons b tail ih =>
    rw [cutLine] at h
    split at h
    next hb =>
      cases h
      exact ⟨[], by simp, by rw [hb]; rfl⟩
    next hb =>
      obtain ⟨cut, hcut, heq⟩ := Option.map_eq_some_iff.mp h
      cases heq
      obtain ⟨body, hbody, hline⟩ := ih hcut
      refine ⟨b :: body, ?_, by rw [hline]; rfl⟩
      simp only [List.mem_cons, not_or]
      exact ⟨Ne.symm hb, hbody⟩

namespace ByteQueue

variable {q rest : ByteQueue} {line : String}

theorem newline_of_ready (h : q.readLine = (.ready line, rest)) :
    (∃ body, 0x0A ∉ body ∧ q.bytes = body ++ 0x0A :: rest.bytes ∧
      line = decodeLine (body ++ [0x0A])) ∨
    (0x0A ∉ q.bytes ∧ q.bytes ≠ [] ∧ rest.bytes = [] ∧ line = decodeLine q.bytes) := by
  obtain ⟨hline, happend, hne, -⟩ := readLine_ready h
  cases hcut : cutLine q.bytes with
  | none =>
    have hraw : q.rawLine = q.bytes := by rw [rawLine, hcut]; rfl
    rw [hraw] at hline happend hne
    exact .inr ⟨newline_notMem_of_cutLine hcut, hne, List.append_right_eq_self.mp happend, hline⟩
  | some cut =>
    obtain ⟨raw, tail⟩ := cut
    obtain ⟨body, hbody, hend⟩ := exists_of_cutLine hcut
    have hraw : q.rawLine = body ++ [0x0A] := by rw [rawLine, hcut, ← hend]; rfl
    rw [hraw] at hline happend
    exact .inl ⟨body, hbody, by rw [← happend, List.append_assoc]; rfl, hline⟩

theorem pieces_of_ready (h : q.readLine = (.ready line, rest)) :
    ∃ piece, line = Text.withoutEnd piece ∧ Text.pieces (Utf8.decodeChars q.bytes) =
      piece :: Text.pieces (Utf8.decodeChars rest.bytes) := by
  rcases newline_of_ready h with ⟨body, hbody, hbytes, hline⟩ | ⟨hnone, hne, hrest, hline⟩
  · refine ⟨Utf8.decodeChars (body ++ [0x0A]), hline, ?_⟩
    rw [hbytes, Utf8.decodeChars_append_newline, Utf8.decodeChars_append_newline]
    exact Text.pieces_append_newline (Utf8.newline_notMem_decodeChars hbody) _
  · refine ⟨Utf8.decodeChars q.bytes, hline, ?_⟩
    rw [hrest]
    exact Text.pieces_of_newline_notMem (Utf8.newline_notMem_decodeChars hnone)
      (Utf8.decodeChars_ne_nil hne)

theorem newline_notMem_of_ready (h : q.readLine = (.ready line, rest)) : '\n' ∉ line.toList := by
  intro hmem
  rcases newline_of_ready h with ⟨body, hbody, -, hline⟩ | ⟨hnone, -, -, hline⟩
  · have hbare : line = Text.withoutEnd (Utf8.decodeChars body) := by
      rw [hline, ← Text.withoutEnd_append_newline]
      exact congrArg Text.withoutEnd (Utf8.decodeChars_append_newline body [])
    rw [hbare] at hmem
    exact Utf8.newline_notMem_decodeChars hbody (Text.mem_of_mem_withoutEnd hmem)
  · rw [hline] at hmem
    exact Utf8.newline_notMem_decodeChars hnone (Text.mem_of_mem_withoutEnd hmem)

theorem finished_of_not_ready (hclosed : q.closed = true)
    (h : ∀ line rest, q.readLine ≠ (.ready line, rest)) : q.readLine = (.finished, ⟨[], true⟩) := by
  cases hread : q.readLine with
  | mk poll after =>
    cases poll with
    | ready line => exact absurd hread (h line after)
    | finished =>
      obtain ⟨rfl, hempty⟩ := readLine_finished hread
      rw [← hempty, ← hclosed]
    | waiting => exact absurd hread (readLine_ne_waiting hclosed)

theorem readLines_eq_pieces (hclosed : q.closed = true) :
    q.readLines = (Text.pieces (Utf8.decodeChars q.bytes)).map Text.withoutEnd := by
  fun_induction readLines q with
  | case1 q line after h ih =>
    obtain ⟨piece, hline, hpieces⟩ := pieces_of_ready h
    rw [ih ((readLine_ready h).2.2.2.trans hclosed), hpieces, List.map_cons, ← hline]
  | case2 q hother =>
    have hfinished := finished_of_not_ready hclosed hother
    rw [(readLine_finished hfinished).2]
    rfl

theorem serve_lines (hclosed : q.closed = true) :
    q.serve (List.replicate (q.readLines.length + 1) .line) =
      some (q.readLines.map (fun line => .line (some line)) ++ [.line none], ⟨[], true⟩) := by
  fun_induction readLines q with
  | case1 q line after h ih =>
    have hanswer : q.answer .line = some (.line (some line), after) := by
      rw [answer, h]
      rfl
    rw [List.length_cons, List.replicate_succ, serve, hanswer]
    simp [ih ((readLine_ready h).2.2.2.trans hclosed)]
  | case2 q hother =>
    have hanswer : q.answer .line = some (.line none, ⟨[], true⟩) := by
      rw [answer, finished_of_not_ready hclosed hother]
      rfl
    simp [serve, hanswer]

/-- Lines read one by one from a closed queue are the pieces of the text that its bytes have
together, each without its end, and no line read from any queue has a newline in it. -/
theorem lines_eq_pieces_of_text (s : Bytes) :
    ∃ text, (∀ other, Utf8.Lossy s other ↔ other = text) ∧
      (⟨s, true⟩ : ByteQueue).readLines = (Text.pieces text).map Text.withoutEnd ∧
      (⟨s, true⟩ : ByteQueue).serve (List.replicate ((Text.pieces text).length + 1) .line) =
        some ((Text.pieces text).map (fun piece => .line (some (Text.withoutEnd piece))) ++
          [.line none], ⟨[], true⟩) ∧
      ∀ (q rest : ByteQueue) (line : String),
        q.readLine = (.ready line, rest) → '\n' ∉ line.toList := by
  have hlines : (⟨s, true⟩ : ByteQueue).readLines = _ := readLines_eq_pieces rfl
  have hserve := serve_lines (q := ⟨s, true⟩) rfl
  rw [hlines, List.length_map, List.map_map] at hserve
  exact ⟨Utf8.decodeChars s, fun _ => Utf8.lossy_iff, hlines, hserve,
    fun _ _ _ => newline_notMem_of_ready⟩

theorem lines_eq_pieces_of_text_cut_short :
    let s : Bytes := [0x61, 0xE2, 0x82, 0x0A, 0xC0, 0xAF, 0x0D, 0x0D, 0x0A, 0x0A, 0xF0, 0x9F]
    Utf8.Lossy s "a�\n��\r\r\n\n�".toList ∧
    (⟨s, true⟩ : ByteQueue).readLines = ["a�", "��", "", "�"] ∧
    (⟨s, false⟩ : ByteQueue).readLine = (.ready "a�", ⟨s.drop 4, false⟩) ∧
    '\n' ∉ "a�".toList := by
  intro s
  obtain ⟨text, htext, hlines, -, hnewline⟩ := lines_eq_pieces_of_text s
  have hlossy : Utf8.Lossy s "a�\n��\r\r\n\n�".toList := Utf8.lossy_iff.mpr (by decide)
  have hopen : (⟨s, false⟩ : ByteQueue).readLine = (.ready "a�", ⟨s.drop 4, false⟩) := by
    decide +kernel
  rw [← (htext _).mp hlossy] at hlines
  exact ⟨hlossy, hlines.trans (by decide +kernel), hopen, hnewline _ _ _ hopen⟩

end ByteQueue
end TapeLang
