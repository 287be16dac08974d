import TapeLang.Proofs.Consumption
import TapeLang.Session

/-! A session over a closed queue. Its lines and the programs on them take their
bytes from one queue, each from the front. Every line takes a byte at least, so
the session comes to an end, and the line it ended on says how. -/
namespace TapeLang

namespace ByteQueue

def rawLine (q : ByteQueue) : Bytes := ((cutLine q.bytes).map Prod.fst).getD q.bytes

theorem readLine_ready {q rest : ByteQueue} {line : String} (h : q.readLine = (.ready line, rest)) :
    line = decodeLine q.rawLine ∧ q.rawLine ++ rest.bytes = q.bytes ∧ q.rawLine ≠ [] ∧
      rest.closed = q.closed := by
  unfold readLine at h
  unfold rawLine
  split at h
  next raw tail hcut =>
    cases h
    rw [hcut]
    exact ⟨rfl, (append_of_cutLine hcut).1, (append_of_cutLine hcut).2, rfl⟩
  next hcut =>
    rw [hcut]
    split at h
    · split at h
      · cases h
      next hne =>
        cases h
        exact ⟨rfl, List.append_nil _, by simpa using hne, rfl⟩
    · cases h

theorem readLine_finished {q rest : ByteQueue} (h : q.readLine = (.finished, rest)) :
    rest = q ∧ q.bytes = [] := by
  unfold readLine at h
  split at h
  · cases h
  · split at h
    · split at h
      next hempty =>
        cases h
        exact ⟨rfl, List.isEmpty_iff.mp hempty⟩
      · cases h
    · cases h

theorem readLine_ne_waiting {q rest : ByteQueue} (hclosed : q.closed = true) :
    q.readLine ≠ (.waiting, rest) := by
  unfold readLine
  split
  · intro h
    cases h
  · rw [if_pos hclosed]
    split <;> intro h <;> cases h

end ByteQueue

def Wiring.takes (w : Wiring) (fuel : Nat) (tokens : List Token) (tape : Tape) (input : Input) :
    Bytes :=
  match Program.ofTokens tokens with
  | .error _ => []
  | .ok p => p.takesFor w fuel (State.initial w tape input)

namespace Wiring

variable {w : Wiring} (hw : w.traced = false) (fuel : Nat) (tokens : List Token) (tape : Tape)
  (input : Input)

include hw

theorem bytes_run : w.takes fuel tokens tape input ++
    (w.run fuel tokens tape input).state.input.toQueue.bytes = input.toQueue.bytes := by
  unfold takes run
  rw [headingRefusal_of_untraced hw]
  cases Program.ofTokens tokens with
  | error bracket => rfl
  | ok p => exact p.bytes_runFor w fuel (State.initial w tape input)

theorem closed_run :
    (w.run fuel tokens tape input).state.input.toQueue.closed = input.toQueue.closed := by
  unfold run
  rw [headingRefusal_of_untraced hw]
  cases Program.ofTokens tokens with
  | error bracket => rfl
  | ok p => exact p.closed_runFor w fuel (State.initial w tape input)

end Wiring

theorem Control.interrupt_ne_none_of_le {control : Control} {done : Progress} {m : Nat}
    (h : control.cancel.afterTicks = some m ∨ control.maxSteps = some m) (hm : m ≤ done.ticks) :
    control.interrupt done ≠ none := by
  unfold interrupt
  split
  · simp
  next hdown =>
    rcases h with hplan | hlimit
    · simp [CancelPlan.raised, hplan, hm] at hdown
    · simp [hlimit, hm]

namespace Settings

variable {settings : Settings} (hlimited : settings.isLimited = true) (clock : Clock)
  (stdout : Output)

include hlimited

theorem interrupt_wiring (traced : Bool) (u : State) :
    (settings.wiring clock stdout traced).interrupt u = Control.interrupt
      { maxSteps := settings.maxSteps, cancel := { afterTicks := settings.deadline clock } }
      u.progress := by
  simp [Wiring.interrupt, wiring, control, hlimited]

theorem exists_fuel_eq (traced : Bool) : ∃ m, settings.fuel clock = m + 1 ∧
    ∀ u : State, m ≤ u.ticks → (settings.wiring clock stdout traced).interrupt u ≠ none := by
  simp only [interrupt_wiring hlimited]
  unfold fuel
  cases hsteps : settings.maxSteps with
  | none =>
    cases htime : settings.deadline clock with
    | none =>
      simp only [deadline, Option.map_eq_none_iff] at htime
      simp [isLimited, hsteps, htime] at hlimited
    | some d => exact ⟨d, rfl, fun u hu => Control.interrupt_ne_none_of_le (.inl rfl) hu⟩
  | some n =>
    cases settings.deadline clock with
    | none => exact ⟨n, rfl, fun u hu => Control.interrupt_ne_none_of_le (.inr rfl) hu⟩
    | some d =>
      refine ⟨min n d, rfl, ?_⟩
      intro u hu
      rcases Nat.le_total n d with hle | hle
      · rw [Nat.min_eq_left hle] at hu
        exact Control.interrupt_ne_none_of_le (.inr rfl) hu
      · rw [Nat.min_eq_right hle] at hu
        exact Control.interrupt_ne_none_of_le (.inl rfl) hu

theorem outcome_of_limited (tokens : List Token) (tape : Tape) {input : Input}
    (hclosed : input.toQueue.closed = true) :
    ((settings.wiring clock stdout false).run (settings.fuel clock) tokens tape input).outcome =
        .halted ∨
      ∃ f, ((settings.wiring clock stdout false).run (settings.fuel clock) tokens tape
        input).outcome = .fault f := by
  obtain ⟨m, hfuel, hinterrupt⟩ := exists_fuel_eq hlimited clock stdout false
  unfold Wiring.run
  rw [Wiring.headingRefusal_of_untraced (w := settings.wiring clock stdout false) rfl, hfuel]
  cases Program.ofTokens tokens with
  | error bracket => exact .inr ⟨_, rfl⟩
  | ok p =>
    have hdone := Program.outcome_ne_running (p := p)
      (s := State.initial (settings.wiring clock stdout false) tape input) (k := m) hinterrupt
      (Nat.le_add_left m _)
    rcases Program.outcome_runFor_of_closed (p := p) (w := settings.wiring clock stdout false)
      (s := State.initial (settings.wiring clock stdout false) tape input)
      (fun u => Wiring.rowRefusal_of_untraced u rfl) hclosed (m + 1) with
      hrunning | hanswer
    · exact absurd hrunning hdone
    · exact hanswer

theorem verdict_of_limited (tokens : List Token) {input : Input}
    (hclosed : input.toQueue.closed = true) :
    (settings.execute clock stdout false tokens input).verdict = .ok ∨
      ∃ e, (settings.execute clock stdout false tokens input).verdict = .failed e := by
  unfold execute
  rcases outcome_of_limited hlimited clock stdout tokens .fresh hclosed with hhalted | ⟨f, hfault⟩
  · simp only [hhalted]
    exact .inl rfl
  · simp only [hfault]
    cases f <;> exact .inr ⟨_, rfl⟩

end Settings

namespace SessionSetup

variable (setup : SessionSetup) (line : String) (input : Input)

def verdict? : Option Verdict :=
  match LineAction.ofLine line with
  | .execute code =>
    some (setup.settings.execute setup.clock setup.stdout false (tokenize code) input).verdict
  | _ => none

def takes : Bytes :=
  match LineAction.ofLine line with
  | .execute code =>
    (setup.settings.wiring setup.clock setup.stdout false).takes
      (setup.settings.fuel setup.clock) (tokenize code) .fresh input
  | _ => []

theorem bytes_handle : setup.takes line input ++ (setup.handle line input).2.toQueue.bytes =
    input.toQueue.bytes := by
  unfold takes handle
  cases LineAction.ofLine line with
  | quit => rfl
  | skip => rfl
  | execute code => exact Wiring.bytes_run rfl _ _ _ _

theorem closed_handle : (setup.handle line input).2.toQueue.closed = input.toQueue.closed := by
  unfold handle
  cases LineAction.ofLine line with
  | quit => rfl
  | skip => rfl
  | execute code => exact Wiring.closed_run rfl _ _ _ _

theorem line_handle : (setup.handle line input).1.line = line := by
  unfold handle
  cases LineAction.ofLine line <;> rfl

end SessionSetup

/-- A program that cannot be run, cannot read or write, or went down with its worker. -/
def Verdict.EndsSession (v : Verdict) : Prop :=
  (∃ bracket, v = .failed (.fault (.unmatched bracket))) ∨
    (∃ pos reason, v = .failed (.fault (.io pos reason))) ∨ v = .failed .workerLost

theorem Flow.ofVerdict_ne_exit_zero (v : Verdict) : Flow.ofVerdict v ≠ .exit 0 := by
  intro h
  cases v with
  | failed e =>
    simp only [ofVerdict] at h
    split at h <;> cases h
  | ok => cases h
  | crashed reason => cases h
  | unanswered => cases h

theorem Flow.ofVerdict_eq_exit_one_iff {v : Verdict} :
    Flow.ofVerdict v = .exit 1 ↔ v.EndsSession := by
  unfold Verdict.EndsSession
  cases v with
  | ok => simp [ofVerdict]
  | crashed reason => simp [ofVerdict]
  | unanswered => simp [ofVerdict]
  | failed e =>
    cases e with
    | timeout ms => simp [ofVerdict, RunError.isFatal]
    | workerLost => simp [ofVerdict, RunError.isFatal]
    | fault f => cases f <;> simp [ofVerdict, RunError.isFatal]

namespace SessionSetup

variable {setup : SessionSetup} {line : String} {input : Input}

theorem flow_eq_exit_zero_iff : (setup.handle line input).1.flow = .exit 0 ↔ line = "q" := by
  unfold handle
  constructor
  · intro h
    cases haction : LineAction.ofLine line with
    | quit =>
      unfold LineAction.ofLine at haction
      split at haction
      · assumption
      · split at haction <;> cases haction
    | skip =>
      rw [haction] at h
      cases h
    | execute code =>
      rw [haction] at h
      exact absurd h (Flow.ofVerdict_ne_exit_zero _)
  · rintro rfl
    rfl

theorem flow_eq_exit_one_iff : (setup.handle line input).1.flow = .exit 1 ↔
    ∃ v, setup.verdict? line input = some v ∧ v.EndsSession := by
  unfold handle verdict?
  cases LineAction.ofLine line with
  | quit => simp
  | skip => simp
  | execute code => simp [Flow.ofVerdict_eq_exit_one_iff]

theorem flow_cases (setup : SessionSetup) (line : String) (input : Input) :
    (setup.handle line input).1.flow = .proceed ∨
    (setup.handle line input).1.flow = .exit 0 ∨ (setup.handle line input).1.flow = .exit 1 ∨
    ∃ v, (setup.handle line input).1.flow = .abandoned v := by
  unfold handle
  cases LineAction.ofLine line with
  | quit => exact .inr (.inl rfl)
  | skip => exact .inl rfl
  | execute code =>
    simp only []
    cases (setup.settings.execute setup.clock setup.stdout false (tokenize code) input).verdict with
    | ok => exact .inl rfl
    | crashed reason => exact .inr (.inr (.inr ⟨_, rfl⟩))
    | unanswered => exact .inr (.inr (.inr ⟨_, rfl⟩))
    | failed e => cases hfatal : e.isFatal <;> simp [Flow.ofVerdict, hfatal]

end SessionSetup

/-- One round of a session: the bytes of its line, those its program took, and
what came of them. -/
structure Turn where
  raw : Bytes
  taken : Bytes
  verdict : Option Verdict
  entry : Entry
deriving DecidableEq, Repr

def Turn.bytes (turn : Turn) : Bytes := turn.raw ++ turn.taken

namespace SessionSetup

variable {setup : SessionSetup} {q rest last : ByteQueue} {line : String} {turns : List Turn}

def turn (setup : SessionSetup) (q rest : ByteQueue) (line : String) : Turn where
  raw := q.rawLine
  taken := setup.takes line (.queue rest)
  verdict := setup.verdict? line (.queue rest)
  entry := (setup.handle line (.queue rest)).1

/-- The loop of a session, with no bound on its rounds: it is over when there are no
more lines or one says so. A line that does not come has no rule. -/
inductive Conducts : SessionSetup → ByteQueue → List Turn → ByteQueue → Prop where
  | finished {setup : SessionSetup} {q rest : ByteQueue} (hline : q.readLine = (.finished, rest)) :
      Conducts setup q [] rest
  | left {setup : SessionSetup} {q rest : ByteQueue} {line : String}
      (hline : q.readLine = (.ready line, rest))
      (hflow : (setup.handle line (.queue rest)).1.flow ≠ .proceed) :
      Conducts setup q [setup.turn q rest line] (setup.handle line (.queue rest)).2.toQueue
  | next {setup : SessionSetup} {q rest last : ByteQueue} {line : String} {turns : List Turn}
      (hline : q.readLine = (.ready line, rest))
      (hflow : (setup.handle line (.queue rest)).1.flow = .proceed)
      (hlater : Conducts (setup.past (setup.handle line (.queue rest)).1)
        (setup.handle line (.queue rest)).2.toQueue turns last) :
      Conducts setup q (setup.turn q rest line :: turns) last

/-- What a session shows on standard error: the prompt ahead of every line, and ahead of
the end where no line ended it. -/
def dialogue (prompt : String) : List Entry → String
  | [] => prompt
  | entry :: rest =>
    prompt ++ entry.stderr ++ if entry.flow = .proceed then dialogue prompt rest else ""

theorem dialogue_of_proceed {entry : Entry} (prompt : String) (h : entry.flow = .proceed)
    (rest : List Entry) :
    dialogue prompt (entry :: rest) = prompt ++ entry.stderr ++ dialogue prompt rest := by
  rw [dialogue, if_pos h]

theorem dialogue_of_stop {entry : Entry} (prompt : String) (h : entry.flow ≠ .proceed)
    (rest : List Entry) : dialogue prompt (entry :: rest) = prompt ++ entry.stderr := by
  rw [dialogue, if_neg h, String.append_empty]

theorem bytes_turn (setup : SessionSetup) (hline : q.readLine = (.ready line, rest)) :
    (setup.turn q rest line).bytes ++ (setup.handle line (.queue rest)).2.toQueue.bytes = q.bytes ∧
      (setup.turn q rest line).bytes ≠ [] := by
  obtain ⟨-, hraw, hne, -⟩ := ByteQueue.readLine_ready hline
  refine ⟨?_, List.append_ne_nil_of_left_ne_nil hne _⟩
  have htaken := setup.bytes_handle line (.queue rest)
  calc (setup.turn q rest line).bytes ++ (setup.handle line (.queue rest)).2.toQueue.bytes
      = q.rawLine ++ (setup.takes line (.queue rest) ++
          (setup.handle line (.queue rest)).2.toQueue.bytes) := List.append_assoc ..
    _ = q.rawLine ++ rest.bytes := by rw [htaken]; rfl
    _ = q.bytes := hraw

theorem closed_turn (hline : q.readLine = (.ready line, rest)) :
    (setup.handle line (.queue rest)).2.toQueue.closed = q.closed := by
  rw [setup.closed_handle]
  exact (ByteQueue.readLine_ready hline).2.2.2

theorem length_turn (setup : SessionSetup) (hline : q.readLine = (.ready line, rest)) :
    (setup.handle line (.queue rest)).2.toQueue.bytes.length < q.bytes.length := by
  obtain ⟨hbytes, hne⟩ := setup.bytes_turn hline
  have hpos := List.length_pos_iff.mpr hne
  rw [← hbytes, List.length_append]
  omega

theorem exists_conducts (setup : SessionSetup) (hclosed : q.closed = true) :
    ∃ turns last, setup.Conducts q turns last := by
  induction hlength : q.bytes.length using Nat.strongRecOn generalizing setup q with
  | ind n ih =>
    rcases hline : q.readLine with ⟨answer, rest⟩
    cases answer with
    | finished => exact ⟨[], rest, .finished hline⟩
    | waiting => exact absurd hline (ByteQueue.readLine_ne_waiting hclosed)
    | ready line =>
      by_cases hflow : (setup.handle line (.queue rest)).1.flow = .proceed
      · obtain ⟨turns, last, hlater⟩ := ih _ (hlength ▸ setup.length_turn hline)
          (setup.past (setup.handle line (.queue rest)).1) ((closed_turn hline).trans hclosed) rfl
        exact ⟨_, last, .next hline hflow hlater⟩
      · exact ⟨_, _, .left hline hflow⟩

theorem Conducts.bytes_eq (h : setup.Conducts q turns last) :
    turns.flatMap Turn.bytes ++ last.bytes = q.bytes := by
  induction h with
  | finished hline =>
    rw [(ByteQueue.readLine_finished hline).1]
    rfl
  | left hline hflow => simpa using (bytes_turn _ hline).1
  | next hline hflow _ ih =>
    rw [List.flatMap_cons, List.append_assoc, ih]
    exact (bytes_turn _ hline).1

theorem Conducts.length_le (h : setup.Conducts q turns last) :
    turns.length ≤ q.bytes.length := by
  induction h with
  | finished hline => exact Nat.zero_le _
  | @left setup q rest line hline hflow =>
    exact Nat.lt_of_le_of_lt (Nat.zero_le _) (setup.length_turn hline)
  | next hline hflow _ ih => exact Nat.lt_of_le_of_lt ih (length_turn _ hline)

theorem Conducts.rounds_eq (h : setup.Conducts q turns last) {n : Nat} (hn : turns.length < n) :
    setup.rounds n q =
      ⟨turns.map Turn.entry, dialogue setup.prompt (turns.map Turn.entry), last⟩ := by
  induction h generalizing n with
  | finished hline =>
    cases n with
    | zero => cases hn
    | succ n =>
      simp only [rounds, hline]
      rfl
  | @left setup q rest line hline hflow =>
    cases n with
    | zero => cases hn
    | succ n =>
      have hends : (setup.turn q rest line).entry.flow ≠ .proceed := hflow
      rw [List.map_cons, dialogue_of_stop _ hends]
      simp only [rounds, hline]
      rfl
  | @next setup q rest last line turns hline hflow _ ih =>
    cases n with
    | zero => cases hn
    | succ n =>
      have hgoes : (setup.turn q rest line).entry.flow = .proceed := hflow
      rw [List.map_cons, dialogue_of_proceed _ hgoes]
      simp only [rounds, hline, hflow, ih (Nat.lt_of_succ_lt_succ hn)]
      rfl

theorem Conducts.exists_of_mem (h : setup.Conducts q turns last) {turn : Turn}
    (hmem : turn ∈ turns) :
    ∃ (held : SessionSetup) (before rest : ByteQueue) (line : String),
      held.settings = setup.settings ∧ before.closed = q.closed ∧
      before.readLine = (.ready line, rest) ∧ held.turn before rest line = turn := by
  induction h with
  | finished hline => cases hmem
  | left hline hflow => exact ⟨_, _, _, _, rfl, rfl, hline, (List.mem_singleton.mp hmem).symm⟩
  | next hline hflow _ ih =>
    rcases List.mem_cons.mp hmem with rfl | hlater
    · exact ⟨_, _, _, _, rfl, rfl, hline, rfl⟩
    · obtain ⟨held, before, rest, line, hsettings, hclosed, hrest⟩ := ih hlater
      exact ⟨held, before, rest, line, hsettings, hclosed.trans (closed_turn hline), hrest⟩

end SessionSetup

/-- The last line a session handled ended it. -/
def EndsEarly (entries : List Entry) (status : Nat) : Prop :=
  entries.getLast?.map Entry.flow = some (.exit status)

theorem sessionFlow_of_endsEarly {entries : List Entry} {status : Nat}
    (h : EndsEarly entries status) : sessionFlow entries = .exit status := by
  obtain ⟨entry, hlast, hflow⟩ := Option.map_eq_some_iff.mp h
  simp [sessionFlow, hlast, hflow]

theorem sessionFlow_of_proceed {entries : List Entry}
    (h : ∀ entry ∈ entries, entry.flow = .proceed) :
    sessionFlow entries = .exit 0 := by
  cases hlast : entries.getLast? with
  | none => simp [sessionFlow, hlast]
  | some entry => simp [sessionFlow, hlast, h entry (List.mem_of_getLast? hlast)]

namespace SessionSetup

variable {setup : SessionSetup} {q rest last : ByteQueue} {line : String} {turns : List Turn}

theorem Conducts.endsEarly_iff (h : setup.Conducts q turns last) (status : Nat) :
    EndsEarly (turns.map Turn.entry) status ↔ ∃ turn ∈ turns, turn.entry.flow = .exit status := by
  unfold EndsEarly
  induction h with
  | finished hline => simp
  | left hline hflow => simp
  | @next setup q rest last line turns hline hflow _ ih =>
    have hgoes : (setup.turn q rest line).entry.flow ≠ .exit status := by
      intro hexit
      cases hflow.symm.trans hexit
    cases turns with
    | nil => simp [hgoes]
    | cons second later =>
      rw [List.map_cons, List.map_cons, List.getLast?_cons_cons, ← List.map_cons, ih]
      simp [hgoes]

theorem Conducts.ended (h : setup.Conducts q turns last) :
    (last.bytes = [] ∧ ∀ turn ∈ turns, turn.entry.flow = .proceed) ∨
      ∃ turn ∈ turns, turn.entry.flow ≠ .proceed := by
  induction h with
  | finished hline =>
    obtain ⟨rfl, hempty⟩ := ByteQueue.readLine_finished hline
    exact .inl ⟨hempty, by simp⟩
  | left hline hflow => exact .inr ⟨_, List.mem_singleton_self _, hflow⟩
  | next hline hflow _ ih =>
    rcases ih with ⟨hempty, hproceed⟩ | ⟨turn, hmem, hstops⟩
    · exact .inl ⟨hempty, List.forall_mem_cons.mpr ⟨hflow, hproceed⟩⟩
    · exact .inr ⟨turn, List.mem_cons_of_mem _ hmem, hstops⟩

/-- Every program on a line of the session came back with an answer. -/
def Answered (setup : SessionSetup) (q : ByteQueue) : Prop :=
  ∀ entry ∈ (setup.overQueue q).entries, ∀ v, entry.flow ≠ .abandoned v

theorem flow_ne_abandoned (hlimited : setup.settings.isLimited = true) {input : Input}
    (hclosed : input.toQueue.closed = true) (v : Verdict) :
    (setup.handle line input).1.flow ≠ .abandoned v := by
  intro habandoned
  unfold handle at habandoned
  cases haction : LineAction.ofLine line with
  | quit =>
    rw [haction] at habandoned
    cases habandoned
  | skip =>
    rw [haction] at habandoned
    cases habandoned
  | execute code =>
    simp only [haction] at habandoned
    rcases Settings.verdict_of_limited hlimited setup.clock setup.stdout (tokenize code)
      hclosed with hok | ⟨e, hfailed⟩
    · rw [hok] at habandoned
      cases habandoned
    · rw [hfailed] at habandoned
      cases hfatal : e.isFatal <;> simp [Flow.ofVerdict, hfatal] at habandoned

/-- A session over a closed queue that has come to its end. -/
structure Completes (setup : SessionSetup) (s : Bytes) (turns : List Turn) (last : ByteQueue) :
    Prop where
  loop : setup.Conducts ⟨s, true⟩ turns last
  transcript : setup.overQueue ⟨s, true⟩ =
    ⟨turns.map Turn.entry, dialogue setup.prompt (turns.map Turn.entry), last⟩
  calls : turns.length ≤ s.length
  bytes : turns.flatMap Turn.bytes ++ last.bytes = s
  lines : ∀ turn ∈ turns, turn.entry.line = decodeLine turn.raw
  quits : EndsEarly (turns.map Turn.entry) 0 ↔ ∃ turn ∈ turns, turn.entry.line = "q"
  fails : EndsEarly (turns.map Turn.entry) 1 ↔
    ∃ turn ∈ turns, ∃ v, turn.verdict = some v ∧ v.EndsSession
  status : ∀ code, EndsEarly (turns.map Turn.entry) code →
    sessionFlow (turns.map Turn.entry) = .exit code
  exhausts : ¬ EndsEarly (turns.map Turn.entry) 0 → ¬ EndsEarly (turns.map Turn.entry) 1 →
    last.bytes = [] ∧ sessionFlow (turns.map Turn.entry) = .exit 0

theorem Conducts.lines_eq (h : setup.Conducts q turns last) {turn : Turn} (hmem : turn ∈ turns) :
    turn.entry.line = decodeLine turn.raw := by
  obtain ⟨held, before, rest, line, -, -, hline, rfl⟩ := h.exists_of_mem hmem
  exact (held.line_handle line _).trans (ByteQueue.readLine_ready hline).1

theorem Conducts.quits_iff (h : setup.Conducts q turns last) :
    EndsEarly (turns.map Turn.entry) 0 ↔ ∃ turn ∈ turns, turn.entry.line = "q" := by
  rw [h.endsEarly_iff]
  apply exists_congr
  intro turn
  apply and_congr_right
  intro hmem
  obtain ⟨held, before, rest, line, -, -, -, rfl⟩ := h.exists_of_mem hmem
  rw [show (held.turn before rest line).entry.line = line from held.line_handle line _]
  exact flow_eq_exit_zero_iff

theorem Conducts.fails_iff (h : setup.Conducts q turns last) :
    EndsEarly (turns.map Turn.entry) 1 ↔
      ∃ turn ∈ turns, ∃ v, turn.verdict = some v ∧ v.EndsSession := by
  rw [h.endsEarly_iff]
  apply exists_congr
  intro turn
  apply and_congr_right
  intro hmem
  obtain ⟨held, before, rest, line, -, -, -, rfl⟩ := h.exists_of_mem hmem
  exact flow_eq_exit_one_iff

theorem Conducts.overQueue_eq (h : setup.Conducts q turns last) :
    setup.overQueue q =
      ⟨turns.map Turn.entry, dialogue setup.prompt (turns.map Turn.entry), last⟩ :=
  h.rounds_eq (Nat.lt_succ_of_le h.length_le)

theorem Conducts.exhausts (h : setup.Conducts q turns last) (hanswered : setup.Answered q)
    (hzero : ¬ EndsEarly (turns.map Turn.entry) 0) (hone : ¬ EndsEarly (turns.map Turn.entry) 1) :
    last.bytes = [] ∧ ∀ turn ∈ turns, turn.entry.flow = .proceed := by
  rcases h.ended with hended | ⟨turn, hmem, hstops⟩
  · exact hended
  rw [h.endsEarly_iff] at hzero hone
  obtain ⟨held, before, rest, line, -, -, -, rfl⟩ := h.exists_of_mem hmem
  rcases held.flow_cases line (.queue rest) with
    hproceed | hexit | hexit | ⟨v, habandoned⟩
  · exact absurd hproceed hstops
  · exact absurd ⟨_, hmem, hexit⟩ hzero
  · exact absurd ⟨_, hmem, hexit⟩ hone
  · unfold Answered at hanswered
    rw [h.overQueue_eq] at hanswered
    exact absurd habandoned (hanswered _ (List.mem_map_of_mem hmem) v)

/-- A session over a closed queue makes at most one round for a byte and ends. Its
lines and its programs take the bytes once and in order, all of them unless a
line ends the session early: a bare `q` with status 0, a program that is no
program, cannot read or write or goes down with status 1. Limits that stop a
program do not stop the session; with one in place every program comes back. -/
theorem session_completes (setup : SessionSetup) (s : Bytes) :
    (setup.settings.isLimited = true → setup.Answered ⟨s, true⟩) ∧
    (setup.Answered ⟨s, true⟩ → ∃ turns last, setup.Completes s turns last) := by
  obtain ⟨turns, last, hloop⟩ := setup.exists_conducts (q := ⟨s, true⟩) rfl
  constructor
  · intro hlimited entry hmem v
    rw [hloop.overQueue_eq] at hmem
    obtain ⟨turn, hturn, rfl⟩ := List.mem_map.mp hmem
    obtain ⟨held, before, rest, line, hsettings, hclosed, hline, rfl⟩ :=
      hloop.exists_of_mem hturn
    have hrest : (Input.queue rest).toQueue.closed = true :=
      (ByteQueue.readLine_ready hline).2.2.2.trans hclosed
    exact flow_ne_abandoned (hsettings ▸ hlimited) hrest v
  · intro hanswered
    refine ⟨turns, last, hloop, hloop.overQueue_eq, hloop.length_le, hloop.bytes_eq,
      fun turn => hloop.lines_eq, hloop.quits_iff, hloop.fails_iff,
      fun code => sessionFlow_of_endsEarly, ?_⟩
    intro hzero hone
    obtain ⟨hempty, hproceed⟩ := hloop.exhausts hanswered hzero hone
    exact ⟨hempty, sessionFlow_of_proceed (List.forall_mem_map.mpr hproceed)⟩

theorem session_completes_swallowed_byte :
    (({ settings := { maxSteps := some 9 }, clock := ⟨0, 1, 0⟩ } : SessionSetup).settings.isLimited =
      true) ∧
    ∃ turns last,
      Completes { settings := { maxSteps := some 9 }, clock := ⟨0, 1, 0⟩ }
        [44, 46, 10, 90, 113, 10, 43, 10] turns last ∧
      (∃ turn ∈ turns, turn.entry.line = "q") ∧ last.bytes = [43, 10] ∧
      sessionFlow (turns.map Turn.entry) = .exit 0 := by
  obtain ⟨hanswers, hcompletes⟩ := session_completes
    { settings := { maxSteps := some 9 }, clock := ⟨0, 1, 0⟩ } [44, 46, 10, 90, 113, 10, 43, 10]
  obtain ⟨turns, last, h⟩ := hcompletes (hanswers rfl)
  have hrun : overQueue { settings := { maxSteps := some 9 }, clock := ⟨0, 1, 0⟩ }
      ⟨[44, 46, 10, 90, 113, 10, 43, 10], true⟩ =
      ⟨[{ line := ",.", flow := .proceed, stdout := [90, 10], calls := 1 },
        { line := "q", flow := .exit 0 }], "", ⟨[43, 10], true⟩⟩ := by decide +kernel
  obtain ⟨hentries, -, hlast⟩ := Transcript.mk.inj (h.transcript.symm.trans hrun)
  have hearly : EndsEarly (turns.map Turn.entry) 0 := by
    rw [hentries]
    rfl
  exact ⟨rfl, turns, last, h, h.quits.mp hearly, congrArg ByteQueue.bytes hlast, h.status 0 hearly⟩

end SessionSetup
end TapeLang
