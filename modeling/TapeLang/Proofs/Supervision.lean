import TapeLang.Execution
import TapeLang.Proofs.Consumption

/-! A limited run and its three parties. The pump fills the queue, the worker runs
the program, and the caller waits for the worker's answer until its time is
up; then it raises the flag and waits for the worker to be gone. The steps of
the three fall in any order, but the flag is one value that all of them see,
and the lock of the queue keeps its holder's steps together. -/
namespace TapeLang

structure Job where
  settings : Settings
  stdout : Output
  traced : Bool
  tokens : List Token

def Job.wiring (job : Job) (flag : Bool) : Wiring where
  mode := job.settings.output
  stdout := job.stdout
  traced := job.traced
  control := some
    { maxSteps := job.settings.maxSteps
      cancel := { afterTicks := if flag then some 0 else none } }

/-- Where the worker stands in its program. -/
inductive Phase where
  | idle
  /-- The flag was down and the instruction is counted. -/
  | begun (t : Token)
  /-- The read of a byte holds the lock, and has yet to look at the flag. -/
  | locked (t : Token)
  /-- The read holds the lock and found the flag down. -/
  | checked (t : Token)
  /-- The read found nothing and has let go of the lock. -/
  | asleep (t : Token)
deriving DecidableEq, Repr

inductive Worker where
  | spawned
  | running (p : Program) (phase : Phase)
  | stopped (outcome : Outcome)
  /-- The answer is on its way, and the worker is still there. -/
  | answered (outcome : Outcome)
  | exited (outcome : Outcome)
deriving DecidableEq, Repr

namespace Worker

def holdsLock : Worker → Bool
  | running _ (.locked _) => true
  | running _ (.checked _) => true
  | _ => false

def answer? : Worker → Option Outcome
  | answered outcome => some outcome
  | exited outcome => some outcome
  | _ => none

end Worker

inductive Caller where
  | receiving
  | timedOut
  /-- The flag is up. -/
  | cancelled
  | joining
  /-- The caller is back with the worker's answer. -/
  | answered (outcome : Outcome)
  /-- The caller is back with a timeout. -/
  | expired
deriving DecidableEq, Repr

/-- The three parties and what they share: the flag, and the queue, which is the
input of the worker's machine. -/
structure Supervision where
  machine : State
  flag : Bool := false
  worker : Worker := .spawned
  caller : Caller := .receiving
deriving DecidableEq, Repr

namespace Supervision

def queue (x : Supervision) : ByteQueue := x.machine.input.toQueue

/-- Others fill the queue behind the worker's back. -/
def refill (x : Supervision) (q : ByteQueue) : Supervision :=
  { x with machine := { x.machine with input := .queue q } }

end Supervision

/-- A read that found the flag up: it leaves the mark of the end and takes nothing. -/
def State.giveUp (s : State) : State :=
  (s.take (.queue (s.input.toQueue.readByte true).2) Cell.endOfInput).goto (s.ip + 1)

inductive Event where
  | push (bytes : Bytes)
  | close
  /-- The worker begins an instruction. -/
  | start
  /-- The worker takes what is there to read, a byte or nothing. -/
  | take (bytes : Bytes)
  /-- The worker goes on in any other way. -/
  | work
  | call
deriving DecidableEq, Repr

inductive Party where
  | pump
  | worker
  | caller
deriving DecidableEq, Repr

namespace Event

def party : Event → Party
  | push _ => .pump
  | close => .pump
  | start => .worker
  | take _ => .worker
  | work => .worker
  | call => .caller

def pushed : Event → Bytes
  | push bytes => bytes
  | _ => []

def taken : Event → Bytes
  | take bytes => bytes
  | _ => []

theorem countP_singleton {e : Event} (h : e.party ≠ .pump) :
    [e].countP (·.party ≠ .pump) = 1 := by
  simp [h]

end Event

namespace Job

def begin (job : Job) : Worker :=
  match Program.ofTokens job.tokens, (job.wiring false).headingRefusal with
  | .error bracket, _ => .stopped (.fault (.unmatched bracket))
  | .ok _, some (_, reason) => .stopped (.crashed reason)
  | .ok p, none => .running p .idle

def reply (job : Job) : Caller → Option Verdict
  | .answered .halted => some .ok
  | .answered (.fault f) => some (.failed (.fault f))
  | .answered (.crashed _) => some (.failed .workerLost)
  | .answered _ => some .unanswered
  | .expired => some (.failed (.timeout (job.settings.timeoutMs.getD 0)))
  | _ => none

/-- One step of the worker, which finds the flag like this. -/
inductive Work (job : Job) (flag : Bool) : State → Worker → Event → State → Worker → Prop where
  | begin (s : State) : Work job flag s .spawned .work s job.begin
  -- the flag and the step count are looked at before every instruction
  | finish {s : State} {p : Program} (hend : p.tokens[s.ip]? = none) :
      Work job flag s (.running p .idle) .work s (.stopped .halted)
  | refuse {s : State} {p : Program} {t : Token} {f : Fault} (htoken : p.tokens[s.ip]? = some t)
      (hset : (job.wiring flag).interrupt s = some f) :
      Work job flag s (.running p .idle) .work s (.stopped (.fault f))
  | start {s : State} {p : Program} {t : Token} (htoken : p.tokens[s.ip]? = some t)
      (hclear : (job.wiring flag).interrupt s = none) :
      Work job flag s (.running p .idle) .start { s with ticks := s.ticks + 1 }
        (.running p (.begun t))
  -- an instruction that does not read is over when its row is printed
  | perform {s after : State} {p : Program} {t : Token} (hasks : (job.wiring flag).asks t = false)
      (hexec : (job.wiring flag).printRow s (p.exec (job.wiring flag) t s) = .next after) :
      Work job flag s (.running p (.begun t)) .work after (.running p .idle)
  | fail {s after : State} {p : Program} {t : Token} {outcome : Outcome}
      (hasks : (job.wiring flag).asks t = false)
      (hexec : (job.wiring flag).printRow s (p.exec (job.wiring flag) t s) = .stop outcome after) :
      Work job flag s (.running p (.begun t)) .work after (.stopped outcome)
  -- a read takes the lock, then looks at the flag, then at the queue
  | lock {s : State} {p : Program} {t : Token} (hasks : (job.wiring flag).asks t = true) :
      Work job flag s (.running p (.begun t)) .work s (.running p (.locked t))
  | giveUp {s : State} {p : Program} {t : Token} (hflag : flag = true) :
      Work job flag s (.running p (.locked t)) .work s.giveUp (.running p .idle)
  | check {s : State} {p : Program} {t : Token} (hflag : flag = false) :
      Work job flag s (.running p (.locked t)) .work s (.running p (.checked t))
  | take {s after : State} {p : Program} {t : Token}
      (hexec : p.exec (job.wiring flag) t s = .next after) :
      Work job flag s (.running p (.checked t)) (.take s.input.read.1.bytes) after
        (.running p .idle)
  | sleep {s : State} {p : Program} {t : Token}
      (hexec : p.exec (job.wiring flag) t s = .stop .waiting s) :
      Work job flag s (.running p (.checked t)) .work s (.running p (.asleep t))
  | wake {s : State} {p : Program} {t : Token} :
      Work job flag s (.running p (.asleep t)) .work s (.running p (.locked t))
  | answer {s : State} {outcome : Outcome} :
      Work job flag s (.stopped outcome) .work s (.answered outcome)
  | exit {s : State} {outcome : Outcome} :
      Work job flag s (.answered outcome) .work s (.exited outcome)

inductive Call (job : Job) (worker : Worker) : Bool → Caller → Bool → Caller → Prop where
  | receive {flag : Bool} {outcome : Outcome} (hanswer : worker.answer? = some outcome) :
      Call job worker flag .receiving flag (.answered outcome)
  | timeout {flag : Bool} (htimed : job.settings.timeoutMs.isSome = true) :
      Call job worker flag .receiving flag .timedOut
  | cancel {flag : Bool} : Call job worker flag .timedOut true .cancelled
  | notify {flag : Bool} (hfree : worker.holdsLock = false) :
      Call job worker flag .cancelled flag .joining
  | join {flag : Bool} {outcome : Outcome} (hworker : worker = .exited outcome) :
      Call job worker flag .joining flag .expired

inductive Step (job : Job) : Supervision → Event → Supervision → Prop where
  | push {x : Supervision} (bytes : Bytes) (hfree : x.worker.holdsLock = false) :
      Step job x (.push bytes) (x.refill (x.queue.push bytes))
  | close {x : Supervision} (hfree : x.worker.holdsLock = false) :
      Step job x .close (x.refill x.queue.close)
  | work {x : Supervision} {e : Event} {machine : State} {worker : Worker}
      (h : job.Work x.flag x.machine x.worker e machine worker) :
      Step job x e { x with machine := machine, worker := worker }
  | call {x : Supervision} {flag : Bool} {caller : Caller}
      (h : job.Call x.worker x.flag x.caller flag caller) :
      Step job x .call { x with flag := flag, caller := caller }

inductive Path (job : Job) : Supervision → List Event → Supervision → Prop where
  | nil (x : Supervision) : Path job x [] x
  | cons {x y z : Supervision} {e : Event} {events : List Event} (hstep : job.Step x e y)
      (hrest : Path job y events z) : Path job x (e :: events) z

def launch (job : Job) (q : ByteQueue) : Supervision :=
  { machine := State.initial (job.wiring false) .fresh (.queue q) }

end Job

namespace Worker

def reading : Worker → Option Token
  | running _ (.locked t) => some t
  | running _ (.checked t) => some t
  | running _ (.asleep t) => some t
  | _ => none

/-- The bytes the worker may take after the flag went up: one, if it looked before. -/
def allowance : Worker → Nat
  | running _ (.checked _) => 1
  | _ => 0

def rank : Worker → Nat
  | spawned => 4
  | running _ .idle => 3
  | running _ (.begun _) => 5
  | running _ (.locked _) => 4
  | running _ (.checked _) => 6
  | running _ (.asleep _) => 5
  | stopped _ => 2
  | answered _ => 1
  | exited _ => 0

end Worker

namespace Caller

def hasCancelled : Caller → Bool
  | cancelled => true
  | joining => true
  | expired => true
  | _ => false

def rank : Caller → Nat
  | receiving => 4
  | timedOut => 3
  | cancelled => 2
  | joining => 1
  | answered _ => 0
  | expired => 0

end Caller

theorem ReadResult.length_bytes_le (r : ReadResult) : r.bytes.length ≤ 1 := by
  cases r with
  | byte b => exact Nat.le_refl 1
  | endOfInput => exact Nat.zero_le 1
  | failed reason => exact Nat.zero_le 1
  | waiting => exact Nat.zero_le 1

theorem Wiring.readByte_of_queue {w : Wiring} {t : Token} {s : State} {q : ByteQueue}
    (htraced : w.traced = false) (hq : s.input = .queue q) :
    (∃ after, w.readByte t s = .next after) ∨ w.readByte t s = .stop .waiting s := by
  unfold readByte
  rw [htraced, hq]
  simp only [Input.read]
  cases (q.readByte false).1 with
  | ready b => exact .inl ⟨_, rfl⟩
  | finished => exact .inl ⟨_, rfl⟩
  | waiting => exact .inr rfl

namespace Job

variable {job : Job} {flag flag' : Bool} {s after : State} {w w' : Worker} {c c' : Caller}
  {e : Event}

theorem eq_expired_of_reply {ms : Nat} (h : job.reply c = some (.failed (.timeout ms))) :
    c = .expired := by
  cases c with
  | expired => rfl
  | answered outcome => cases outcome <;> simp [reply] at h
  | receiving | timedOut | cancelled | joining => simp [reply] at h

theorem interrupt_of_raised (job : Job) (s : State) :
    (job.wiring true).interrupt s = some .cancelled := by
  simp [Wiring.interrupt, wiring, Control.interrupt, CancelPlan.raised]

theorem begin_cases (job : Job) :
    (∃ outcome, job.begin = .stopped outcome) ∨ ∃ p, job.begin = .running p .idle := by
  unfold Job.begin
  split
  · exact .inl ⟨_, rfl⟩
  · exact .inl ⟨_, rfl⟩
  · exact .inr ⟨_, rfl⟩

namespace Work

theorem party_ne (h : job.Work flag s w e after w') : e.party ≠ .pump := by
  cases h <;> nofun

theorem pushed_eq (h : job.Work flag s w e after w') : e.pushed = [] := by
  cases h <;> rfl

theorem asks_of_reading (h : job.Work flag s w e after w')
    (hasks : ∀ t, w.reading = some t → (job.wiring false).asks t = true) {t : Token}
    (ht : w'.reading = some t) : (job.wiring false).asks t = true := by
  cases h with
  | begin =>
    rcases job.begin_cases with ⟨outcome, hbegin⟩ | ⟨p, hbegin⟩ <;> rw [hbegin] at ht <;> cases ht
  | lock hset =>
    cases ht
    exact hset
  | check | sleep | wake => exact hasks t ht
  | finish | refuse | start | perform | fail | giveUp | take | answer | exit => cases ht

theorem queue_eq (h : job.Work flag s w e after w') {q : ByteQueue} (hq : s.input = .queue q)
    (hasks : ∀ t, w.reading = some t → (job.wiring false).asks t = true) :
    ∃ q', after.input = .queue q' ∧ e.taken ++ q'.bytes = q.bytes ∧ q'.closed = q.closed := by
  cases h with
  | begin | finish | refuse | start | lock | check | sleep | wake | answer | exit =>
    exact ⟨q, hq, rfl, rfl⟩
  | perform hidle hexec | fail hidle hexec =>
    have hinput := congrArg (·.state.input) hexec
    rw [Wiring.input_printRow, Program.input_exec_of_not_asks hidle] at hinput
    exact ⟨q, hinput.symm.trans hq, rfl, rfl⟩
  | giveUp =>
    refine ⟨q, ?_, rfl, rfl⟩
    simp only [State.giveUp, hq]
    rfl
  | take hexec =>
    have hinput := congrArg (·.state.input) hexec
    have hread := Input.bytes_read (.queue q)
    have hclosed := Input.closed_read (.queue q)
    refine ⟨(q.readByte false).2, ?_, ?_, hclosed⟩
    · exact hinput.symm.trans ((Program.input_exec_of_asks (hasks _ rfl)).trans (by rw [hq]; rfl))
    · simp only [Event.taken, hq]
      exact hread

theorem of_raised (h : job.Work true s w e after w') :
    e ≠ .start ∧ e.taken.length + w'.allowance ≤ w.allowance ∧ w'.rank < w.rank := by
  cases h with
  | start _ hclear =>
    rw [job.interrupt_of_raised] at hclear
    cases hclear
  | check hdown => cases hdown
  | begin =>
    rcases job.begin_cases with ⟨outcome, hbegin⟩ | ⟨p, hbegin⟩ <;> rw [hbegin] <;>
      exact ⟨nofun, Nat.le_refl 0, by simp [Worker.rank]⟩
  | take => exact ⟨nofun, ReadResult.length_bytes_le _, by simp [Worker.rank]⟩
  | sleep => exact ⟨nofun, Nat.zero_le 1, by simp [Worker.rank]⟩
  | finish | refuse | perform | fail | lock | giveUp | wake | answer | exit =>
    exact ⟨nofun, Nat.le_refl 0, by simp [Worker.rank]⟩

theorem not_of_exited {outcome : Outcome} : ¬ job.Work flag s (.exited outcome) e after w' := nofun

theorem exists_of_raised {q : ByteQueue} (hq : s.input = .queue q)
    (hasks : ∀ t, w.reading = some t → (job.wiring false).asks t = true)
    (hw : ∀ outcome, w ≠ .exited outcome) : ∃ e after w', job.Work true s w e after w' := by
  cases w with
  | spawned => exact ⟨_, _, _, .begin s⟩
  | stopped outcome => exact ⟨_, _, _, .answer⟩
  | answered outcome => exact ⟨_, _, _, .exit⟩
  | exited outcome => exact absurd rfl (hw outcome)
  | running p phase =>
    cases phase with
    | idle =>
      cases htoken : p.tokens[s.ip]? with
      | none => exact ⟨_, _, _, .finish htoken⟩
      | some t => exact ⟨_, _, _, .refuse htoken (job.interrupt_of_raised s)⟩
    | begun t =>
      cases hasks : (job.wiring true).asks t with
      | true => exact ⟨_, _, _, .lock hasks⟩
      | false =>
        cases hexec : (job.wiring true).printRow s (p.exec (job.wiring true) t s) with
        | next after => exact ⟨_, _, _, .perform hasks hexec⟩
        | stop outcome after => exact ⟨_, _, _, .fail hasks hexec⟩
    | locked t => exact ⟨_, _, _, .giveUp rfl⟩
    | checked t =>
      obtain ⟨htraced, hexec⟩ := Program.exec_of_asks (w := job.wiring true) (p := p) (s := s)
        (hasks t rfl)
      rcases Wiring.readByte_of_queue htraced hq with ⟨after, hread⟩ | hread
      · exact ⟨_, _, _, .take (hexec.trans hread)⟩
      · exact ⟨_, _, _, .sleep (hexec.trans hread)⟩
    | asleep t => exact ⟨_, _, _, .wake⟩

end Work

namespace Call

theorem hasCancelled_eq (h : job.Call w flag c flag' c') (hraised : flag = c.hasCancelled) :
    flag' = c'.hasCancelled := by
  cases h with
  | cancel => rfl
  | receive | timeout | notify | join => exact hraised

theorem flag_of_raised (h : job.Call w true c flag' c') : flag' = true := by
  cases h <;> rfl

theorem rank_lt (h : job.Call w flag c flag' c') : c'.rank < c.rank := by
  cases h <;> simp [Caller.rank]

theorem exited_of_expired (h : job.Call w flag c flag' .expired) :
    ∃ outcome, w = .exited outcome := by
  cases h with
  | join hworker => exact ⟨_, hworker⟩

theorem not_of_expired : ¬ job.Call w flag .expired flag' c' := nofun

theorem exists_of_exited {outcome : Outcome} (hw : w = .exited outcome)
    (hraised : c.hasCancelled = true) (hback : c ≠ .expired) : ∃ c', job.Call w flag c flag c' := by
  cases c with
  | cancelled => exact ⟨.joining, .notify (hw ▸ rfl)⟩
  | joining => exact ⟨.expired, .join hw⟩
  | expired => exact absurd rfl hback
  | receiving | timedOut | answered => cases hraised

end Call

variable {x y z : Supervision} {events later : List Event}

/-- What holds at every moment of a supervised run. -/
structure Sound (job : Job) (x : Supervision) : Prop where
  queue : x.machine.input = .queue x.queue
  asks : ∀ t, x.worker.reading = some t → (job.wiring false).asks t = true
  raised : x.flag = x.caller.hasCancelled
  joined : x.caller = .expired → ∃ outcome, x.worker = .exited outcome

theorem sound_launch (job : Job) (q : ByteQueue) : job.Sound (job.launch q) where
  queue := rfl
  asks := fun _ ht => by cases ht
  raised := rfl
  joined := fun h => by cases h

namespace Step

theorem sound (h : job.Step x e y) (hx : job.Sound x) : job.Sound y := by
  cases h with
  | push bytes => exact ⟨rfl, hx.asks, hx.raised, hx.joined⟩
  | close => exact ⟨rfl, hx.asks, hx.raised, hx.joined⟩
  | work hwork =>
    obtain ⟨q, hq, -, -⟩ := hwork.queue_eq hx.queue hx.asks
    refine ⟨?_, fun t => hwork.asks_of_reading hx.asks, hx.raised, ?_⟩
    · simp only [Supervision.queue, hq]
      rfl
    · intro hexpired
      obtain ⟨outcome, hexited⟩ := hx.joined hexpired
      rw [hexited] at hwork
      exact absurd hwork Work.not_of_exited
  | call hcall =>
    refine ⟨hx.queue, hx.asks, hcall.hasCancelled_eq hx.raised, ?_⟩
    rintro rfl
    exact hcall.exited_of_expired

theorem conserves (h : job.Step x e y) (hx : job.Sound x) :
    e.taken ++ y.queue.bytes = x.queue.bytes ++ e.pushed := by
  cases h with
  | push bytes => rfl
  | close => exact (List.append_nil _).symm
  | work hwork =>
    obtain ⟨q, hq, hbytes, -⟩ := hwork.queue_eq hx.queue hx.asks
    simp only [Supervision.queue, hq, hwork.pushed_eq, List.append_nil]
    exact hbytes
  | call hcall => exact (List.append_nil _).symm

end Step

namespace Path

theorem sound (h : job.Path x events y) (hx : job.Sound x) : job.Sound y := by
  induction h with
  | nil x => exact hx
  | cons hstep _ ih => exact ih (hstep.sound hx)

theorem conserves (h : job.Path x events y) (hx : job.Sound x) :
    events.flatMap Event.taken ++ y.queue.bytes = x.queue.bytes ++ events.flatMap Event.pushed := by
  induction h with
  | nil x => exact (List.append_nil _).symm
  | @cons x y z e events hstep _ ih =>
    calc (e :: events).flatMap Event.taken ++ z.queue.bytes
        = e.taken ++ (events.flatMap Event.taken ++ z.queue.bytes) := List.append_assoc ..
      _ = e.taken ++ (y.queue.bytes ++ events.flatMap Event.pushed) := by rw [ih (hstep.sound hx)]
      _ = (e.taken ++ y.queue.bytes) ++ events.flatMap Event.pushed := (List.append_assoc ..).symm
      _ = (x.queue.bytes ++ e.pushed) ++ events.flatMap Event.pushed := by rw [hstep.conserves hx]
      _ = x.queue.bytes ++ (e :: events).flatMap Event.pushed := List.append_assoc ..

end Path
end Job

def Supervision.rank (x : Supervision) : Nat := x.worker.rank + x.caller.rank

/-- What happens once the flag is up: no instruction begins, the worker takes at
most a byte it had looked for before, and worker and caller have only so many
steps left. -/
structure WindsDown (x : Supervision) (events : List Event) (y : Supervision) : Prop where
  flag : y.flag = true
  noStart : Event.start ∉ events
  taken : (events.flatMap Event.taken).length + y.worker.allowance ≤ x.worker.allowance
  steps : events.countP (·.party ≠ .pump) + y.rank ≤ x.rank

structure LeftAlone (x : Supervision) (events : List Event) (y : Supervision) : Prop where
  pump : ∀ e ∈ events, e.party = .pump
  worker : y.worker = x.worker
  caller : y.caller = x.caller
  machine : y.machine = { x.machine with input := .queue y.queue }
  queue : y.queue =
    { bytes := x.queue.bytes ++ events.flatMap Event.pushed
      closed := x.queue.closed || events.contains .close }

section

variable {x y z : Supervision} {events later : List Event}

theorem WindsDown.trans (h : WindsDown x events y) (h' : WindsDown y later z) :
    WindsDown x (events ++ later) z where
  flag := h'.flag
  noStart := by simp [h.noStart, h'.noStart]
  taken := by
    have hfirst := h.taken
    have hsecond := h'.taken
    simp only [List.flatMap_append, List.length_append]
    omega
  steps := by
    have hfirst := h.steps
    have hsecond := h'.steps
    rw [List.countP_append]
    omega

theorem LeftAlone.trans (h : LeftAlone x events y) (h' : LeftAlone y later z) :
    LeftAlone x (events ++ later) z where
  pump := List.forall_mem_append.mpr ⟨h.pump, h'.pump⟩
  worker := h'.worker.trans h.worker
  caller := h'.caller.trans h.caller
  machine := by rw [h'.machine, h.machine]
  queue := by
    rw [h'.queue, h.queue]
    simp [List.flatMap_append, Bool.or_assoc]

end

namespace Job

variable {job : Job} {x y : Supervision} {e : Event} {events later : List Event}

theorem Step.windsDown (h : job.Step x e y) (hflag : x.flag = true) : WindsDown x [e] y := by
  cases h with
  | push bytes =>
    refine ⟨hflag, by simp, ?_, ?_⟩
    · exact Nat.le_of_eq (Nat.zero_add _)
    · exact Nat.le_of_eq (Nat.zero_add _)
  | close =>
    refine ⟨hflag, by simp, ?_, ?_⟩
    · exact Nat.le_of_eq (Nat.zero_add _)
    · exact Nat.le_of_eq (Nat.zero_add _)
  | work hwork =>
    have hcount := Event.countP_singleton hwork.party_ne
    rw [hflag] at hwork
    obtain ⟨hstart, htaken, hrank⟩ := hwork.of_raised
    refine ⟨hflag, by simpa using hstart.symm, by simpa using htaken, ?_⟩
    simp only [hcount, Supervision.rank]
    omega
  | call hcall =>
    have hrank := hcall.rank_lt
    rw [hflag] at hcall
    refine ⟨hcall.flag_of_raised, by simp, Nat.le_of_eq (Nat.zero_add _), ?_⟩
    have hcount := Event.countP_singleton (e := .call) nofun
    simp only [hcount, Supervision.rank]
    omega

theorem Path.windsDown (h : job.Path x events y) (hflag : x.flag = true) :
    WindsDown x events y := by
  induction h with
  | nil x =>
    refine ⟨hflag, List.not_mem_nil, ?_, ?_⟩
    · exact Nat.le_of_eq (Nat.zero_add _)
    · exact Nat.le_of_eq (Nat.zero_add _)
  | cons hstep _ ih =>
    have hfirst := hstep.windsDown hflag
    exact hfirst.trans (ih hfirst.flag)

theorem Step.leftAlone (h : job.Step x e y) (hx : job.Sound x) (hexpired : x.caller = .expired) :
    LeftAlone x [e] y := by
  cases h with
  | push bytes =>
    refine ⟨by simp [Event.party], rfl, rfl, rfl, ?_⟩
    simp [Supervision.queue, Supervision.refill, Input.toQueue, ByteQueue.push, Event.pushed]
  | close =>
    refine ⟨by simp [Event.party], rfl, rfl, rfl, ?_⟩
    simp [Supervision.queue, Supervision.refill, Input.toQueue, ByteQueue.close, Event.pushed]
  | work hwork =>
    obtain ⟨outcome, hexited⟩ := hx.joined hexpired
    rw [hexited] at hwork
    exact absurd hwork Work.not_of_exited
  | call hcall =>
    rw [hexpired] at hcall
    exact absurd hcall Call.not_of_expired

theorem Path.leftAlone (h : job.Path x events y) (hx : job.Sound x)
    (hexpired : x.caller = .expired) : LeftAlone x events y := by
  induction h with
  | nil x => exact ⟨by simp, rfl, rfl, by rw [← hx.queue], by simp⟩
  | cons hstep _ ih =>
    have hfirst := hstep.leftAlone hx hexpired
    exact hfirst.trans (ih (hstep.sound hx) (hfirst.caller.trans hexpired))

theorem Sound.exists_step (hx : job.Sound x) (hflag : x.flag = true) (hback : x.caller ≠ .expired) :
    ∃ e y, job.Step x e y ∧ e.party ≠ .pump := by
  by_cases hexited : ∃ outcome, x.worker = .exited outcome
  · obtain ⟨outcome, hworker⟩ := hexited
    obtain ⟨c, hcall⟩ := Call.exists_of_exited hworker (hx.raised ▸ hflag) hback
    exact ⟨.call, _, .call hcall, nofun⟩
  · obtain ⟨e, after, w, hwork⟩ := Work.exists_of_raised hx.queue hx.asks (not_exists.mp hexited)
    rw [← hflag] at hwork
    exact ⟨e, _, .work hwork, hwork.party_ne⟩

/-- A supervised run that has come to `x` with these events behind it spares the
input of others. -/
structure Spares (job : Job) (q : ByteQueue) (events : List Event) (x : Supervision) : Prop where
  conserved :
    events.flatMap Event.taken ++ x.queue.bytes = q.bytes ++ events.flatMap Event.pushed
  cancelled : x.flag = true → ∀ later y, job.Path x later y → WindsDown x later y
  expired : ∀ ms, job.reply x.caller = some (.failed (.timeout ms)) →
    ∀ later y, job.Path x later y → LeftAlone x later y
  returns : x.flag = true →
    (∃ ms, job.reply x.caller = some (.failed (.timeout ms))) ∨
      ∃ e y, job.Step x e y ∧ e.party ≠ .pump

end Job
end TapeLang
