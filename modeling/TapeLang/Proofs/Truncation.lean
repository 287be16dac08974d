import Mathlib.Data.ENat.Lattice
import Mathlib.Order.CompletePartialOrder
import TapeLang.Proofs.Progress

/-! Runs under limits. A limited run does what the run without limits does, up to
the first instruction that its flag or its step count keeps from being executed;
there it stops and leaves everything as it is. -/
namespace TapeLang

def Control.stepBound (control : Control) : ℕ∞ := control.maxSteps.elim ⊤ (↑·)

/-- How many instructions a run tries if its fuel does not end it. -/
noncomputable def attempts (run : Nat → Run) : ℕ∞ := ⨆ fuel, ((run fuel).state.ticks : ℕ∞)

/-- The flag goes up during instruction `c`, the first being 1: the checks before
that instruction do not see it, those after it do. -/
def CancelPlan.GoesUpDuring (plan : CancelPlan) (run : Nat → Run) (c : ℕ∞) : Prop :=
  ∀ k : Nat, (k : ℕ∞) ≤ attempts run → (plan.raised (run k).state.progress = true ↔ c ≤ k)

theorem reachedNth_mono {a b : Nat} (hab : a ≤ b) {n : Option Nat} (h : reachedNth a n = true) :
    reachedNth b n = true := by
  cases n with
  | none => exact h
  | some n =>
    simp only [reachedNth, Bool.and_eq_true, decide_eq_true_eq] at h ⊢
    omega

theorem CancelPlan.raised_mono (plan : CancelPlan) {a b : Progress} (hab : a ≤ b)
    (h : plan.raised a = true) : plan.raised b = true := by
  obtain ⟨hticks, hreads, hwrites⟩ := hab
  simp only [raised, Bool.or_eq_true] at h ⊢
  rcases h with (h | h) | h
  · refine .inl (.inl ?_)
    cases hn : plan.afterTicks with
    | none => simp [hn] at h
    | some n =>
      simp only [hn, Option.any_some, decide_eq_true_eq] at h ⊢
      exact Nat.le_trans h hticks
  · exact .inl (.inr (reachedNth_mono hreads h))
  · exact .inr (reachedNth_mono hwrites h)

theorem CancelPlan.exists_goesUpDuring (plan : CancelPlan) {run : Nat → Run}
    (hmono : ∀ k, (run k).state.progress ≤ (run (k + 1)).state.progress) :
    ∃ c, plan.GoesUpDuring run c := by
  have hstays : ∀ k m, k ≤ m → plan.raised (run k).state.progress = true →
      plan.raised (run m).state.progress = true := by
    intro k m hkm h
    induction hkm with
    | refl => exact h
    | step _ ih => exact plan.raised_mono (hmono _) ih
  by_cases hever : ∃ k, plan.raised (run k).state.progress = true
  · refine ⟨(Nat.find hever : ℕ), ?_⟩
    intro k _
    rw [Nat.cast_le]
    exact ⟨Nat.find_min' hever, fun hle => hstays _ k hle (Nat.find_spec hever)⟩
  · refine ⟨⊤, ?_⟩
    intro k _
    constructor
    · intro h
      exact absurd ⟨k, h⟩ hever
    · intro h
      exact absurd (top_le_iff.mp h) (ENat.natCast_ne_top k)

theorem Control.interrupt_of_raised {control : Control} {done : Progress}
    (h : control.cancel.raised done = true) : control.interrupt done = some .cancelled := by
  rw [interrupt, if_pos h]

theorem Control.interrupt_of_limit {control : Control} {done : Progress} {limit : Nat}
    (hdown : control.cancel.raised done = false) (hlimit : control.maxSteps = some limit)
    (hle : limit ≤ done.ticks) : control.interrupt done = some (.stepLimit limit) := by
  simp [interrupt, hdown, hlimit, hle]

theorem Control.interrupt_eq_none {control : Control} {done : Progress}
    (hdown : control.cancel.raised done = false)
    (hlt : (done.ticks : ℕ∞) < control.stepBound) : control.interrupt done = none := by
  cases hlimit : control.maxSteps with
  | none => simp [interrupt, hdown, hlimit]
  | some limit =>
    rw [stepBound, hlimit] at hlt
    have : ¬ limit ≤ done.ticks := Nat.not_le.mpr (Nat.cast_lt.mp hlt)
    simp [interrupt, hdown, hlimit, this]

namespace Program

variable {p : Program} {w : Wiring} {control : Control} {s u : State}

theorem step_of_past_end (h : p.tokens[s.ip]? = none) : p.step w s = .stop .halted s := by
  simp only [step, h]

theorem step_of_clear (h : control.interrupt s.progress = none) :
    p.step { w with control := some control } s = p.step { w with control := none } s := by
  have hclear : Wiring.interrupt { w with control := some control } s = none := h
  simp only [step, hclear]
  rfl

theorem step_of_interrupt {t : Token} {f : Fault} (ht : p.tokens[s.ip]? = some t)
    (h : control.interrupt s.progress = some f) :
    p.step { w with control := some control } s = .stop (.fault f) s := by
  have hset : Wiring.interrupt { w with control := some control } s = some f := h
  simp only [step, ht, hset]

/-- The machine stands at `u` after `k` instructions and is about to try another. -/
def TriesAfter (p : Program) (w : Wiring) (s : State) (k : Nat) (u : State) : Prop :=
  p.runFor w k s = ⟨.running, u⟩ ∧ ∃ t, p.tokens[u.ip]? = some t

theorem triesAfter_succ {k : Nat} {after : State} (hs : p.step w s = .next after)
    (h : p.TriesAfter w after k u) : p.TriesAfter w s (k + 1) u := by
  refine ⟨?_, h.2⟩
  rw [runFor_succ_of_next hs]
  exact h.1

theorem runFor_of_clear {fuel : Nat}
    (h : ∀ k < fuel, ∀ u, p.TriesAfter { w with control := none } s k u →
      control.interrupt u.progress = none) :
    p.runFor { w with control := some control } fuel s =
      p.runFor { w with control := none } fuel s := by
  induction fuel generalizing s with
  | zero => rfl
  | succ fuel ih =>
    cases ht : p.tokens[s.ip]? with
    | none =>
      rw [runFor_succ_of_stop (step_of_past_end ht), runFor_succ_of_stop (step_of_past_end ht)]
    | some t =>
      have hsame := step_of_clear (p := p) (w := w) (h 0 (Nat.succ_pos fuel) s ⟨rfl, t, ht⟩)
      cases hs : p.step { w with control := none } s with
      | next after =>
        rw [runFor_succ_of_next (hsame.trans hs), runFor_succ_of_next hs]
        apply ih
        intro k hk u hu
        exact h (k + 1) (Nat.succ_lt_succ hk) u (triesAfter_succ hs hu)
      | stop outcome after =>
        rw [runFor_succ_of_stop (hsame.trans hs), runFor_succ_of_stop hs]

theorem runFor_of_interrupt {m fuel : Nat} {f : Fault}
    (hclear : ∀ k < m, ∀ v, p.TriesAfter { w with control := none } s k v →
      control.interrupt v.progress = none)
    (hu : p.TriesAfter { w with control := none } s m u)
    (hset : control.interrupt u.progress = some f) (hfuel : m < fuel) :
    p.runFor { w with control := some control } fuel s = ⟨.fault f, u⟩ := by
  obtain ⟨extra, rfl⟩ := Nat.exists_eq_add_of_lt hfuel
  obtain ⟨hrun, t, ht⟩ := hu
  rw [← runFor_of_clear hclear] at hrun
  rw [Nat.add_assoc, runFor_add_of_running hrun, runFor_succ_of_stop (step_of_interrupt ht hset)]

section Free

variable (hfree : w.control = none)

include hfree

theorem ticks_step_of_free {t : Token} (ht : p.tokens[s.ip]? = some t) :
    (p.step w s).state.ticks = s.ticks + 1 := by
  apply ticks_step ht
  rw [Wiring.interrupt, hfree]
  rfl

theorem ticks_of_next {after : State} (hs : p.step w s = .next after) :
    after.ticks = s.ticks + 1 := by
  cases ht : p.tokens[s.ip]? with
  | none =>
    rw [step_of_past_end ht] at hs
    cases hs
  | some t =>
    have hone := ticks_step_of_free hfree ht
    rw [hs] at hone
    exact hone

theorem ticks_le_of_stop {outcome : Outcome} {after : State}
    (hs : p.step w s = .stop outcome after) : after.ticks ≤ s.ticks + 1 := by
  cases ht : p.tokens[s.ip]? with
  | none =>
    rw [step_of_past_end ht] at hs
    cases hs
    exact Nat.le_succ _
  | some t =>
    have hone := ticks_step_of_free hfree ht
    rw [hs] at hone
    exact Nat.le_of_eq hone

theorem ticks_of_running {k : Nat} (h : p.runFor w k s = ⟨.running, u⟩) :
    u.ticks = s.ticks + k := by
  induction k generalizing s with
  | zero =>
    cases h
    rfl
  | succ k ih =>
    cases hs : p.step w s with
    | next after =>
      rw [runFor_succ_of_next hs] at h
      rw [ih h, ticks_of_next hfree hs]
      omega
    | stop outcome after =>
      rw [runFor_succ_of_stop hs] at h
      cases h
      exact absurd hs (step_ne_stop_running p w s _)

theorem ticks_of_triesAfter {k : Nat} (h : p.TriesAfter w s k u) :
    (p.runFor w (k + 1) s).state.ticks = s.ticks + k + 1 := by
  obtain ⟨hrun, t, ht⟩ := h
  rw [runFor_add_of_running hrun, state_runFor_one, ticks_step_of_free hfree ht,
    ticks_of_running hfree hrun]

theorem exists_triesAfter {k fuel : Nat} (h : s.ticks + k < (p.runFor w fuel s).state.ticks) :
    ∃ u, p.TriesAfter w s k u := by
  induction k generalizing s fuel with
  | zero =>
    cases ht : p.tokens[s.ip]? with
    | some t => exact ⟨s, rfl, t, ht⟩
    | none =>
      cases fuel with
      | zero => exact absurd h (Nat.lt_irrefl _)
      | succ fuel =>
        rw [runFor_succ_of_stop (step_of_past_end ht)] at h
        exact absurd h (Nat.lt_irrefl _)
  | succ k ih =>
    cases fuel with
    | zero =>
      change s.ticks + (k + 1) < s.ticks at h
      omega
    | succ fuel =>
      cases hs : p.step w s with
      | next after =>
        have hone := ticks_of_next hfree hs
        rw [runFor_succ_of_next hs] at h
        have hmore : after.ticks + k < (p.runFor w fuel after).state.ticks := by omega
        obtain ⟨u, hu⟩ := ih hmore
        exact ⟨u, triesAfter_succ hs hu⟩
      | stop outcome after =>
        have hlast := ticks_le_of_stop hfree hs
        rw [runFor_succ_of_stop hs] at h
        change s.ticks + (k + 1) < after.ticks at h
        omega

theorem lt_attempts_iff (hs : s.ticks = 0) (k : Nat) :
    (k : ℕ∞) < attempts (p.runFor w · s) ↔ ∃ u, p.TriesAfter w s k u := by
  rw [attempts, lt_iSup_iff]
  constructor
  · rintro ⟨fuel, h⟩
    apply exists_triesAfter hfree
    rw [hs, Nat.zero_add]
    exact Nat.cast_lt.mp h
  · rintro ⟨u, hu⟩
    refine ⟨k + 1, ?_⟩
    rw [ticks_of_triesAfter hfree hu, hs, Nat.zero_add]
    exact Nat.cast_lt.mpr (Nat.lt_succ_self k)

theorem ticks_of_le_attempts (hs : s.ticks = 0) {k : Nat}
    (h : (k : ℕ∞) ≤ attempts (p.runFor w · s)) : (p.runFor w k s).state.ticks = k := by
  cases k with
  | zero => exact hs
  | succ k =>
    have hlt : (k : ℕ∞) < attempts (p.runFor w · s) :=
      lt_of_lt_of_le (Nat.cast_lt.mpr (Nat.lt_succ_self k)) h
    obtain ⟨u, hu⟩ := (lt_attempts_iff hfree hs k).mp hlt
    rw [ticks_of_triesAfter hfree hu, hs, Nat.zero_add]

theorem attempts_eq_top_iff (hs : s.ticks = 0) :
    attempts (p.runFor w · s) = ⊤ ↔ ∀ fuel, (p.runFor w fuel s).outcome = .running := by
  rw [ENat.eq_top_iff_forall_gt]
  constructor
  · intro h fuel
    obtain ⟨u, hrun, _⟩ := (lt_attempts_iff hfree hs fuel).mp (h fuel)
    rw [hrun]
  · intro h k
    rw [lt_attempts_iff hfree hs]
    have hrun : p.runFor w k s = ⟨.running, (p.runFor w k s).state⟩ := by rw [← h k]
    refine ⟨_, hrun, Option.ne_none_iff_exists'.mp ?_⟩
    intro hend
    have hnext := h (k + 1)
    rw [runFor_add_of_running hrun, runFor_succ_of_stop (step_of_past_end hend)] at hnext
    cases hnext

end Free
end Program

/-- `limited` is `free` cut short by a control. -/
structure Truncates (control : Control) (free limited : Nat → Run) : Prop where
  diverges : attempts free = ⊤ ↔ ∀ fuel, (free fuel).outcome = .running
  plans : ∃ c, control.cancel.GoesUpDuring free c
  moments : ∀ c, ∃ plan : CancelPlan, plan.GoesUpDuring free c
  whole : ∀ c, control.cancel.GoesUpDuring free c → attempts free ≤ min c control.stepBound →
    ∀ fuel, limited fuel = free fuel
  cut : ∀ c, control.cancel.GoesUpDuring free c → min c control.stepBound < attempts free →
    ∃ (m : ℕ) (u : State), (m : ℕ∞) = min c control.stepBound ∧
      free m = ⟨.running, u⟩ ∧ u.ticks = m ∧ (∀ fuel ≤ m, limited fuel = free fuel) ∧
      ∀ fuel > m, limited fuel =
        ⟨.fault (if c ≤ control.stepBound then .cancelled else .stepLimit m), u⟩

theorem exists_plan_of_ticks {run : Nat → Run}
    (hticks : ∀ k : ℕ, (k : ℕ∞) ≤ attempts run → (run k).state.ticks = k) (c : ℕ∞) :
    ∃ plan : CancelPlan, plan.GoesUpDuring run c := by
  cases c with
  | top =>
    refine ⟨{}, ?_⟩
    intro k _
    simp [CancelPlan.raised, reachedNth]
  | coe c =>
    refine ⟨{ afterTicks := some c }, ?_⟩
    intro k hk
    simp [CancelPlan.raised, reachedNth, State.progress, hticks k hk]

theorem Control.interrupt_of_min {control : Control} {done : Progress} {c : ℕ∞} {m : ℕ}
    (hraised : control.cancel.raised done = true ↔ c ≤ m) (hticks : done.ticks = m)
    (hm : (m : ℕ∞) = min c control.stepBound) :
    control.interrupt done =
      some (if c ≤ control.stepBound then .cancelled else .stepLimit m) := by
  by_cases hfirst : c ≤ control.stepBound
  · rw [if_pos hfirst]
    rw [min_eq_left hfirst] at hm
    exact interrupt_of_raised (hraised.mpr (le_of_eq hm.symm))
  · rw [if_neg hfirst]
    rw [min_eq_right (le_of_not_ge hfirst)] at hm
    apply interrupt_of_limit
    · rw [hm] at hraised
      exact Bool.eq_false_iff.mpr (mt hraised.mp hfirst)
    · cases hlimit : control.maxSteps with
      | none =>
        rw [stepBound, hlimit] at hm
        exact absurd hm (ENat.natCast_ne_top m)
      | some limit =>
        rw [stepBound, hlimit] at hm
        exact congrArg some (Nat.cast_injective hm).symm
    · exact Nat.le_of_eq hticks.symm

theorem truncates_const {control : Control} {r : Run} (hend : r.outcome ≠ .running)
    (hticks : r.state.ticks = 0) : Truncates control (fun _ => r) (fun _ => r) := by
  have hnone : attempts (fun _ => r) = 0 := by simp [attempts, hticks]
  refine ⟨?_, ?_, ?_, ?_, ?_⟩
  · rw [hnone]
    exact ⟨fun h => (ENat.top_ne_zero h.symm).elim, fun h => absurd (h 0) hend⟩
  · apply CancelPlan.exists_goesUpDuring
    intro _
    exact Progress.le_refl _
  · apply exists_plan_of_ticks
    intro k hk
    rw [hnone] at hk
    rw [hticks, Nat.cast_eq_zero.mp (nonpos_iff_eq_zero.mp hk)]
  · intro _ _ _ _
    rfl
  · intro c _ hlt
    rw [hnone] at hlt
    exact absurd hlt not_lt_zero

namespace Program

variable {p : Program} {w : Wiring} {control : Control} {s u : State}

theorem interrupt_of_triesAfter {c : ℕ∞} {k : Nat} (hs : s.ticks = 0)
    (hc : control.cancel.GoesUpDuring (p.runFor { w with control := none } · s) c)
    (hu : p.TriesAfter { w with control := none } s k u)
    (hlt : (k : ℕ∞) < min c control.stepBound) : control.interrupt u.progress = none := by
  have hraised := hc k (le_of_lt ((lt_attempts_iff rfl hs k).mpr ⟨u, hu⟩))
  have hticks := ticks_of_running rfl hu.1
  rw [hs, Nat.zero_add] at hticks
  obtain ⟨hflag, hsteps⟩ := lt_min_iff.mp hlt
  apply Control.interrupt_eq_none
  · simp only [hu.1] at hraised
    exact Bool.eq_false_iff.mpr (mt hraised.mp (not_le_of_gt hflag))
  · change (u.ticks : ℕ∞) < _
    rw [hticks]
    exact hsteps

theorem truncates_runFor (hs : s.ticks = 0) :
    Truncates control (p.runFor { w with control := none } · s)
      (p.runFor { w with control := some control } · s) where
  diverges := attempts_eq_top_iff rfl hs
  plans := CancelPlan.exists_goesUpDuring _ (progress_le_runFor_succ p _ s)
  moments := exists_plan_of_ticks fun _ hk => ticks_of_le_attempts rfl hs hk
  whole := by
    intro c hc hle fuel
    apply runFor_of_clear
    intro k _ u hu
    have hk := (lt_attempts_iff rfl hs k).mpr ⟨u, hu⟩
    exact interrupt_of_triesAfter hs hc hu (lt_of_lt_of_le hk hle)
  cut := by
    intro c hc hlt
    obtain ⟨m, hm⟩ := ENat.ne_top_iff_exists.mp (ne_top_of_lt hlt)
    rw [← hm] at hlt
    obtain ⟨u, hu⟩ := (lt_attempts_iff rfl hs m).mp hlt
    have hticks := ticks_of_running rfl hu.1
    rw [hs, Nat.zero_add] at hticks
    have hclear : ∀ k < m, ∀ v, p.TriesAfter { w with control := none } s k v →
        control.interrupt v.progress = none := by
      intro k hk v hv
      exact interrupt_of_triesAfter hs hc hv (hm ▸ Nat.cast_lt.mpr hk)
    refine ⟨m, u, hm, hu.1, hticks, ?_, ?_⟩
    · intro fuel hfuel
      exact runFor_of_clear fun k hk => hclear k (Nat.lt_of_lt_of_le hk hfuel)
    · intro fuel hfuel
      have hraised := hc m (le_of_lt hlt)
      simp only [hu.1] at hraised
      exact runFor_of_interrupt hclear hu (Control.interrupt_of_min hraised hticks hm) hfuel

end Program

/-- Limits cut a run short and do nothing else: without the limits the run tries
`attempts` instructions, and with them it goes on until the flag is up or the
step count is reached, whichever is first, the flag where both are. -/
theorem Wiring.run_truncates (w : Wiring) (control : Control) (tokens : List Token) (tape : Tape)
    (input : Input) :
    Truncates control (({ w with control := none } : Wiring).run · tokens tape input)
      (({ w with control := some control } : Wiring).run · tokens tape input) := by
  have hheading : ∀ limits, ({ w with control := limits } : Wiring).headingRefusal =
      w.headingRefusal := fun _ => rfl
  unfold run
  simp only [hheading]
  cases Program.ofTokens tokens with
  | error bracket => exact truncates_const (by simp) rfl
  | ok p =>
    cases w.headingRefusal with
    | some refused => exact truncates_const (by simp) rfl
    | none => exact Program.truncates_runFor rfl

theorem Wiring.run_truncates_endless_loop :
    let tokens : List Token := [⟨.increment, 0⟩, ⟨.loopOpen, 1⟩, ⟨.output, 2⟩, ⟨.loopClose, 3⟩]
    ∀ fuel > 3, ({ control := some { maxSteps := some 3 } } : Wiring).run fuel tokens (.blank 1)
        (.standard (.bytes [])) =
      ⟨.fault (.stepLimit 3),
        { tape := ⟨#[1], 0, by decide⟩, input := .standard (.bytes []), ip := 3, ticks := 3,
          writes := #[[1, 10]] }⟩ := by
  intro tokens
  have h := run_truncates {} { maxSteps := some 3 } tokens (.blank 1) (.standard (.bytes []))
  have hbound : min ⊤ (Control.stepBound { maxSteps := some 3 }) = (3 : ℕ) := min_eq_right le_top
  have hfour : ((4 : ℕ) : ℕ∞) ≤ attempts (({} : Wiring).run · tokens (.blank 1)
      (.standard (.bytes []))) :=
    le_iSup_of_le 4 (le_of_eq (congrArg Nat.cast (by decide)))
  obtain ⟨m, u, hm, hfree, -, -, hlimited⟩ := h.cut ⊤
    (fun k _ => by simp [CancelPlan.raised, reachedNth])
    (hbound ▸ lt_of_lt_of_le (Nat.cast_lt.mpr (Nat.lt_succ_self 3)) hfour)
  cases Nat.cast_injective (hm.trans hbound)
  have hstate : ({} : Wiring).run 3 tokens (.blank 1) (.standard (.bytes [])) =
      ⟨.running,
        { tape := ⟨#[1], 0, by decide⟩, input := .standard (.bytes []), ip := 3, ticks := 3,
          writes := #[[1, 10]] }⟩ := by decide
  cases hfree.symm.trans hstate
  intro fuel hfuel
  rw [hlimited fuel hfuel, if_neg]
  exact not_le_of_gt (WithTop.coe_lt_top 3)

end TapeLang
