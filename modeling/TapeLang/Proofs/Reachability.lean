import Mathlib.Logic.Relation
import TapeLang.Machine.Run

/-! Runs as paths of states. A run with enough fuel follows the steps of the
machine to the one that stops, and which one that is depends on the start only. -/
namespace TapeLang.Program

variable {p : Program} {w : Wiring} {s t u : State} {outcome : Outcome}

def Next (p : Program) (w : Wiring) (s t : State) : Prop := p.step w s = .next t

def Reaches (p : Program) (w : Wiring) : State → State → Prop := Relation.ReflTransGen (p.Next w)

def Ends (p : Program) (w : Wiring) (s : State) (outcome : Outcome) (u : State) : Prop :=
  ∃ t, p.Reaches w s t ∧ p.step w t = .stop outcome u

theorem Reaches.trans (hst : p.Reaches w s t) (htu : p.Reaches w t u) : p.Reaches w s u :=
  Relation.ReflTransGen.trans hst htu

theorem Reaches.head (hst : p.step w s = .next t) (htu : p.Reaches w t u) : p.Reaches w s u :=
  Relation.ReflTransGen.head hst htu

theorem Ends.of_reaches (hst : p.Reaches w s t) (h : p.Ends w t outcome u) :
    p.Ends w s outcome u := by
  obtain ⟨v, htv, hstop⟩ := h
  exact ⟨v, hst.trans htv, hstop⟩

theorem Ends.of_step_eq (hstep : p.step w s = p.step w t) (h : p.Ends w t outcome u) :
    p.Ends w s outcome u := by
  obtain ⟨v, htv, hstop⟩ := h
  rcases Relation.ReflTransGen.cases_head htv with rfl | ⟨v', hnext, hrest⟩
  · exact ⟨s, .refl, hstep.trans hstop⟩
  · exact ⟨v, Reaches.head (hstep.trans hnext) hrest, hstop⟩

theorem Reaches.of_step_eq (hstep : p.step w s = p.step w t) (h : p.Reaches w t u) (hne : t ≠ u) :
    p.Reaches w s u := by
  rcases Relation.ReflTransGen.cases_head h with heq | ⟨v, hnext, hrest⟩
  · exact absurd heq hne
  · exact Reaches.head (hstep.trans hnext) hrest

/-- A path of steps uses up some fuel and changes nothing else. -/
theorem Reaches.exists_runFor_add (h : p.Reaches w s t) :
    ∃ n, ∀ fuel, p.runFor w (n + fuel) s = p.runFor w fuel t := by
  induction h using Relation.ReflTransGen.head_induction_on with
  | refl => exact ⟨0, fun fuel => by rw [Nat.zero_add]⟩
  | head hnext _ ih =>
    obtain ⟨n, hn⟩ := ih
    refine ⟨n + 1, fun fuel => ?_⟩
    rw [Nat.add_right_comm, runFor_succ_of_next hnext, hn]

theorem runFor_succ_of_step_eq (hstep : p.step w s = p.step w t) (fuel : Nat) :
    p.runFor w (fuel + 1) s = p.runFor w (fuel + 1) t := by
  rw [runFor, runFor, hstep]

theorem Ends.exists_runFor (h : p.Ends w s outcome u) : ∃ fuel, p.runFor w fuel s = ⟨outcome, u⟩ := by
  obtain ⟨t, hst, hstop⟩ := h
  obtain ⟨n, hn⟩ := hst.exists_runFor_add
  exact ⟨n + 1, by rw [hn, runFor_succ_of_stop hstop]⟩

theorem runFor_eq_of_finished {fuel fuel' : Nat} (h : (p.runFor w fuel s).outcome ≠ .running)
    (h' : (p.runFor w fuel' s).outcome ≠ .running) : p.runFor w fuel s = p.runFor w fuel' s := by
  rw [← runFor_add_of_finished h fuel', ← runFor_add_of_finished h' fuel, Nat.add_comm]

theorem Reaches.running {fuel : Nat} (h : p.Reaches w s t)
    (ht : ∀ m ≤ fuel, (p.runFor w m t).outcome = .running) :
    (p.runFor w fuel s).outcome = .running := by
  obtain ⟨n, hn⟩ := h.exists_runFor_add
  rcases Nat.le_total n fuel with hle | hle
  · obtain ⟨m, rfl⟩ := Nat.exists_eq_add_of_le hle
    rw [hn]
    exact ht m (Nat.le_add_left m n)
  · apply Decidable.byContradiction
    intro hfinished
    obtain ⟨extra, rfl⟩ := Nat.exists_eq_add_of_le hle
    have hstill := hn 0
    rw [Nat.add_zero, runFor_add_of_finished hfinished] at hstill
    exact hfinished (by rw [hstill]; rfl)

/-- A run is on its way along a path of steps, or has come to the end of one. -/
theorem reaches_or_ends (p : Program) (w : Wiring) (fuel : Nat) (s : State) :
    ((p.runFor w fuel s).outcome = .running ∧ p.Reaches w s (p.runFor w fuel s).state) ∨
      p.Ends w s (p.runFor w fuel s).outcome (p.runFor w fuel s).state := by
  induction fuel generalizing s with
  | zero => exact .inl ⟨rfl, .refl⟩
  | succ fuel ih =>
    cases hs : p.step w s with
    | next after =>
      rw [runFor_succ_of_next hs]
      rcases ih after with ⟨hrunning, hreaches⟩ | hends
      · exact .inl ⟨hrunning, hreaches.head hs⟩
      · exact .inr (hends.of_reaches (Reaches.head hs .refl))
    | stop outcome after =>
      rw [runFor_succ_of_stop hs]
      exact .inr ⟨s, .refl, hs⟩

end TapeLang.Program
