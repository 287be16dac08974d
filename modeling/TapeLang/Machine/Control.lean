import TapeLang.Fault

/-! Limits on a run: how many instructions it may execute, and when its cancel
flag goes up. Both are looked at before an instruction, never during one. -/
namespace TapeLang

structure Progress where
  ticks : Nat
  reads : Nat
  writes : Nat
deriving DecidableEq, Repr

/-- When the cancel flag goes up. Once up it stays up, since progress only
grows. Reads and writes are counted from one. -/
structure CancelPlan where
  afterTicks : Option Nat := none
  duringRead : Option Nat := none
  duringWrite : Option Nat := none
deriving DecidableEq, Repr, Inhabited

def reachedNth (count : Nat) : Option Nat → Bool
  | none => false
  | some n => 0 < n && n ≤ count

def CancelPlan.raised (plan : CancelPlan) (done : Progress) : Bool :=
  plan.afterTicks.any (· ≤ done.ticks) ||
    reachedNth done.reads plan.duringRead || reachedNth done.writes plan.duringWrite

structure Control where
  maxSteps : Option Nat := none
  cancel : CancelPlan := {}
deriving DecidableEq, Repr, Inhabited

/-- What keeps the next instruction from being executed. The flag is looked
at before the step count. -/
def Control.interrupt (c : Control) (done : Progress) : Option Fault :=
  if c.cancel.raised done then some .cancelled
  else
    match c.maxSteps with
    | some limit => if limit ≤ done.ticks then some (.stepLimit limit) else none
    | none => none

end TapeLang
