import Mathlib.Logic.Relation
import TapeLang.ByteQueue

/-! A pump and a reader on one queue. The pump copies its source into the queue
while the reader makes its calls. However their steps fall, the calls get the
answers that a closed queue holding the whole source would have given. -/
namespace TapeLang

theorem cutLine_append {bytes line rest : Bytes} (h : cutLine bytes = some (line, rest))
    (more : Bytes) : cutLine (bytes ++ more) = some (line, rest ++ more) := by
  induction bytes generalizing line with
  | nil => cases h
  | cons b tail ih =>
    rw [cutLine] at h
    rw [List.cons_append, cutLine]
    split at h
    next hb =>
      cases h
      rw [if_pos hb]
    next hb =>
      obtain ⟨cut, hcut, heq⟩ := Option.map_eq_some_iff.mp h
      cases heq
      rw [if_neg hb, ih hcut]
      rfl

def Poll.returned {α : Type} : Poll α → Option (Option α)
  | .ready value => some (some value)
  | .finished => some none
  | .waiting => none

namespace ByteQueue

/-- The bytes a source brings before it ends. -/
def delivered : List Delivery → Bytes
  | [] => []
  | .chunk [] :: _ => []
  | .chunk (b :: bytes) :: rest => b :: bytes ++ delivered rest
  | .interrupted :: rest => delivered rest
  | .failed :: _ => []

def pumpOnce (q : ByteQueue) : List Delivery → ByteQueue × Option (List Delivery)
  | [] => (q.close, none)
  | .chunk [] :: _ => (q.close, none)
  | .chunk (b :: bytes) :: rest => (q.push (b :: bytes), some rest)
  | .interrupted :: rest => (q, some rest)
  | .failed :: _ => (q.close, none)

/-- The queue when nobody reads it and the pump goes on to its end. -/
def settle (q : ByteQueue) : Option (List Delivery) → ByteQueue
  | none => q
  | some source => q.pump source

theorem pump_eq (q : ByteQueue) (source : List Delivery) :
    q.pump source = ⟨q.bytes ++ delivered source, true⟩ := by
  fun_induction pump q source with
  | case1 q => simp [delivered, close]
  | case2 q _ => simp [delivered, close]
  | case3 q b bytes rest ih =>
    rw [ih]
    simp [delivered, push]
  | case4 q rest ih => simp [ih, delivered]
  | case5 q _ => simp [delivered, close]

theorem settle_pumpOnce (q : ByteQueue) (source : List Delivery) :
    (q.pumpOnce source).1.settle (q.pumpOnce source).2 = q.pump source := by
  fun_cases pumpOnce q source <;> rfl

theorem closed_pumpOnce {q : ByteQueue} (hopen : q.closed = false) (source : List Delivery) :
    (q.pumpOnce source).1.closed = (q.pumpOnce source).2.isNone := by
  fun_cases pumpOnce q source <;> first | rfl | exact hopen

inductive Call where
  | line
  | byte
deriving DecidableEq, Repr

inductive Reply where
  | line (text : Option String)
  | byte (value : Option UInt8)
deriving DecidableEq, Repr

def answer (q : ByteQueue) : Call → Option (Reply × ByteQueue)
  | .line => q.readLine.1.returned.map fun text => (.line text, q.readLine.2)
  | .byte => (q.readByte false).1.returned.map fun value => (.byte value, (q.readByte false).2)

def serve (q : ByteQueue) : List Call → Option (List Reply × ByteQueue)
  | [] => some ([], q)
  | call :: rest => do
    let (reply, after) ← q.answer call
    let (replies, last) ← after.serve rest
    return (reply :: replies, last)

theorem serve_concat {q last after : ByteQueue} {calls : List Call} {replies : List Reply}
    {call : Call} {reply : Reply} (hcalls : q.serve calls = some (replies, last))
    (hcall : last.answer call = some (reply, after)) :
    q.serve (calls ++ [call]) = some (replies ++ [reply], after) := by
  induction calls generalizing q replies with
  | nil =>
    cases hcalls
    simp [serve, hcall]
  | cons first rest ih =>
    simp only [serve, Option.bind_eq_bind, Option.bind_eq_some_iff] at hcalls
    obtain ⟨⟨head, next⟩, hfirst, ⟨tail, end'⟩, hrest, heq⟩ := hcalls
    cases heq
    simp [serve, hfirst, ih hrest]

theorem exists_answer {q : ByteQueue} (hclosed : q.closed = true) (call : Call) :
    ∃ reply after, q.answer call = some (reply, after) := by
  cases call with
  | line =>
    simp only [answer, readLine, hclosed]
    split
    · exact ⟨_, _, rfl⟩
    · simp only [if_true]
      split <;> exact ⟨_, _, rfl⟩
  | byte =>
    simp only [answer, readByte, hclosed]
    cases q.bytes <;> exact ⟨_, _, rfl⟩

theorem closed_readLine (q : ByteQueue) : q.readLine.2.closed = q.closed := by
  unfold readLine
  repeat' split
  all_goals rfl

theorem closed_readByte (q : ByteQueue) (cancelled : Bool) :
    (q.readByte cancelled).2.closed = q.closed := by
  unfold readByte
  repeat' split
  all_goals rfl

theorem closed_of_answer {q after : ByteQueue} {call : Call} {reply : Reply}
    (h : q.answer call = some (reply, after)) : after.closed = q.closed := by
  cases call with
  | line =>
    obtain ⟨text, -, heq⟩ := Option.map_eq_some_iff.mp h
    cases heq
    exact q.closed_readLine
  | byte =>
    obtain ⟨value, -, heq⟩ := Option.map_eq_some_iff.mp h
    cases heq
    exact q.closed_readByte false

theorem answer_append {q after : ByteQueue} {call : Call} {reply : Reply}
    (hopen : q.closed = false) (h : q.answer call = some (reply, after)) (more : Bytes) :
    answer ⟨q.bytes ++ more, true⟩ call = some (reply, ⟨after.bytes ++ more, true⟩) := by
  cases call with
  | line =>
    cases hcut : cutLine q.bytes with
    | none => simp [answer, readLine, hcut, hopen, Poll.returned] at h
    | some cut =>
      obtain ⟨line, rest⟩ := cut
      simp only [answer, readLine, hcut, Poll.returned, Option.map_some, Option.some.injEq,
        Prod.mk.injEq] at h
      obtain ⟨rfl, rfl⟩ := h
      simp only [answer, readLine, cutLine_append hcut more, Poll.returned, Option.map_some]
  | byte =>
    cases hbytes : q.bytes with
    | nil => simp [answer, readByte, hbytes, hopen, Poll.returned] at h
    | cons b rest =>
      simp only [answer, readByte, hbytes, Poll.returned, Option.map_some, Option.some.injEq,
        Prod.mk.injEq, Bool.false_eq_true, if_false] at h
      obtain ⟨rfl, rfl⟩ := h
      rfl

theorem answer_settle {q after : ByteQueue} {source : Option (List Delivery)} {call : Call}
    {reply : Reply} (hclosed : q.closed = source.isNone)
    (h : q.answer call = some (reply, after)) :
    (q.settle source).answer call = some (reply, after.settle source) := by
  cases source with
  | none => exact h
  | some source =>
    rw [settle, settle, pump_eq, pump_eq]
    exact answer_append hclosed h (delivered source)

/-- A pump with what its source has not brought yet, and a reader with the calls
it has not made yet. The source is gone once the pump has closed the queue. -/
structure Exchange where
  queue : ByteQueue
  source : Option (List Delivery)
  calls : List Call
  replies : List Reply
deriving DecidableEq, Repr

namespace Exchange

def start (source : List Delivery) (calls : List Call) : Exchange := ⟨{}, some source, calls, []⟩

inductive Step : Exchange → Exchange → Prop where
  | pump (q : ByteQueue) (source : List Delivery) (calls : List Call) (replies : List Reply) :
      Step ⟨q, some source, calls, replies⟩
        ⟨(q.pumpOnce source).1, (q.pumpOnce source).2, calls, replies⟩
  | answer {q after : ByteQueue} {call : Call} {reply : Reply}
      (h : q.answer call = some (reply, after)) (source : Option (List Delivery))
      (calls : List Call) (replies : List Reply) :
      Step ⟨q, source, call :: calls, replies⟩ ⟨after, source, calls, replies ++ [reply]⟩

def Reaches : Exchange → Exchange → Prop := Relation.ReflTransGen Step

/-- The replies so far are those of `whole`, which then is what the queue will be
when the pump is through. -/
structure Agrees (whole : ByteQueue) (calls : List Call) (e : Exchange) : Prop where
  closed : e.queue.closed = e.source.isNone
  served : ∃ answered, calls = answered ++ e.calls ∧
    whole.serve answered = some (e.replies, e.queue.settle e.source)

variable {whole : ByteQueue} {calls : List Call} {e next : Exchange}

theorem agrees_start (source : List Delivery) (calls : List Call) :
    Agrees ⟨delivered source, true⟩ calls (start source calls) := by
  refine ⟨rfl, [], rfl, ?_⟩
  change _ = some ([], ByteQueue.pump {} source)
  rw [pump_eq]
  rfl

theorem Agrees.step (h : Agrees whole calls e) (hstep : Step e next) : Agrees whole calls next := by
  obtain ⟨hclosed, answered, hcalls, hserved⟩ := h
  cases hstep with
  | pump q source rest replies =>
    refine ⟨closed_pumpOnce hclosed source, answered, hcalls, ?_⟩
    rw [settle_pumpOnce]
    exact hserved
  | @answer q after call reply hanswer source rest replies =>
    refine ⟨(closed_of_answer hanswer).trans hclosed, answered ++ [call], ?_, ?_⟩
    · rw [hcalls, List.append_assoc]
      rfl
    · exact serve_concat hserved (answer_settle hclosed hanswer)

theorem Agrees.reaches (h : Agrees whole calls e) (hreach : Reaches e next) :
    Agrees whole calls next := by
  induction hreach with
  | refl => exact h
  | tail _ hstep ih => exact ih.step hstep

theorem Agrees.done_of_stuck (h : Agrees whole calls e) (hstuck : ∀ next, ¬ Step e next) :
    e.source = none ∧ e.calls = [] := by
  obtain ⟨q, source, rest, replies⟩ := e
  cases source with
  | some source => exact absurd (.pump q source rest replies) (hstuck _)
  | none =>
    cases rest with
    | nil => exact ⟨rfl, rfl⟩
    | cons call rest =>
      obtain ⟨reply, after, hanswer⟩ := exists_answer h.closed call
      exact absurd (.answer hanswer none rest replies) (hstuck _)

def work (e : Exchange) : Nat := e.calls.length + e.source.elim 0 (·.length + 1)

theorem Step.work_lt (h : Step e next) : next.work < e.work := by
  cases h with
  | pump q source rest replies =>
    apply Nat.add_lt_add_left
    fun_cases pumpOnce q source <;> simp
  | answer hanswer source rest replies =>
    apply Nat.add_lt_add_right
    exact Nat.lt_succ_self _

theorem acc_step (e : Exchange) : Acc (fun next e => Step e next) e :=
  Subrelation.accessible Step.work_lt ((measure work).wf.apply e)

/-- Timing has no part in what a reader gets. At every moment of every exchange the
calls that have returned got what they get from a closed queue that holds all
the source brings, and the bytes left over are the same; every exchange comes
to an end, and there all calls have returned. -/
theorem replies_independent_of_interleaving {source : List Delivery} {calls : List Call}
    {e : Exchange} (h : Reaches (start source calls) e) :
    (∃ answered, calls = answered ++ e.calls ∧
      serve ⟨delivered source, true⟩ answered = some (e.replies, e.queue.settle e.source)) ∧
    Acc (fun next e => Step e next) e ∧
    ((∀ next, ¬ Step e next) →
      serve ⟨delivered source, true⟩ calls = some (e.replies, e.queue)) := by
  have hagrees := (agrees_start source calls).reaches h
  refine ⟨hagrees.served, acc_step e, ?_⟩
  intro hstuck
  obtain ⟨hsource, hcalls⟩ := hagrees.done_of_stuck hstuck
  obtain ⟨answered, hsplit, hserved⟩ := hagrees.served
  rw [hsource] at hserved
  rw [hsplit, hcalls, List.append_nil]
  exact hserved

theorem replies_independent_of_interleaving_split_line_end :
    Reaches (start [.chunk [97, 13], .interrupted, .chunk [10, 98], .failed] [.line, .byte, .byte])
      ⟨⟨[], true⟩, none, [], [.line (some "a"), .byte (some 98), .byte none]⟩ ∧
    serve ⟨[97, 13, 10, 98], true⟩ [.line, .byte, .byte] =
      some ([.line (some "a"), .byte (some 98), .byte none], ⟨[], true⟩) := by
  have hline : answer ⟨[97, 13, 10, 98], false⟩ .line =
      some (.line (some "a"), ⟨[98], false⟩) := by decide
  have hbyte : answer ⟨[98], false⟩ .byte = some (.byte (some 98), ⟨[], false⟩) := rfl
  have hnone : answer ⟨[], true⟩ .byte = some (.byte none, ⟨[], true⟩) := rfl
  have hreach : Reaches
      (start [.chunk [97, 13], .interrupted, .chunk [10, 98], .failed] [.line, .byte, .byte])
      ⟨⟨[], true⟩, none, [], [.line (some "a"), .byte (some 98), .byte none]⟩ := by
    refine .head (.pump _ _ _ _) (.head (.pump _ _ _ _) (.head (.pump _ _ _ _) ?_))
    refine .head (.answer hline _ _ _) (.head (.answer hbyte _ _ _) ?_)
    exact .head (.pump _ _ _ _) (.single (.answer hnone _ _ _))
  refine ⟨hreach, (replies_independent_of_interleaving hreach).2.2 ?_⟩
  intro next hstep
  cases hstep

end Exchange
end ByteQueue
end TapeLang
