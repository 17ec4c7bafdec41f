import ScriptCore.Proc
import ScriptCore.Stack

/-! # Limits on a run: fuel, deadline, interrupt and depth of calls

Every boundary between steps is reported by `Monitor.tick`. Fuel is checked first and spent, then
the host's interrupt, then the deadline, and the clock is compared only at every so many boundaries.
The monitor also holds the active calls and refuses one more than `maxDepth`.

The clock and the interrupt are readings of the monitor. The host sets them between two drives, and they stand still
while the machine is driven: a drive is stopped by the deadline or the interrupt only if its readings say so from
its beginning on. A drive that is stopped at a later boundary is described by fuel that lasts up to that boundary. -/

namespace ScriptCore

/-- Limits fixed when a machine is made. -/
structure MonitorOptions where
  /-- How many calls may be active at once. -/
  maxDepth : Nat := 1024
  /-- Fuel of the first budget; unlimited if missing. -/
  fuel : Option Nat := none
  /-- Time allowed by the first budget. -/
  allowance : Option Nat := none
  /-- The clock is compared at every so many boundaries. -/
  checkEvery : Nat := 100
  /-- Calls are named after their call site. -/
  debug : Bool := false

/-- How much a run may do before it is stopped. -/
structure Budget where
  fuel : Option Nat
  /-- The instant from which on the run is stopped. -/
  deadline : Option Nat
  checkEvery : Nat

namespace Budget

/-- The last instant that a deadline can name. -/
def lastInstant : Nat := Nat.pow 2 63 - 1

def unlimited (checkEvery : Nat) : Budget := ⟨none, none, checkEvery⟩

/-- The budget that the options give at the instant `now`. An allowance that ends after the last
instant is no limit. -/
def ofOptions (o : MonitorOptions) (now : Nat) : Budget :=
  let deadline := o.allowance.bind fun d => if now + d ≤ lastInstant then some (now + d) else none
  ⟨o.fuel, deadline, o.checkEvery⟩

/-- The deadline is found to have passed at a boundary, by a clock that shows `now` at every boundary of a drive. -/
def deadlinePassed (b : Budget) (boundary : UInt64) (now : Nat) : Bool :=
  match b.deadline with
  | none => false
  | some deadline => boundary.toNat % max b.checkEvery 1 == 0 && deadline ≤ now

end Budget

/-- What limits the runs of a machine. -/
structure Monitor where
  options : MonitorOptions
  budget : Budget
  /-- Boundaries crossed under the current budget. -/
  boundaries : UInt64
  /-- The active calls, the innermost on top. -/
  calls : Stack CallEntry
  /-- The host asked for the run to stop, before the machine was driven. -/
  interrupted : Bool
  /-- What the clock shows, as long as the machine is driven. -/
  now : Nat

namespace Monitor

def ofOptions (options : MonitorOptions) (now : Nat) : Monitor :=
  { options
    budget := .ofOptions options now
    boundaries := 0
    calls := .empty
    interrupted := false
    now }

/-- How many calls are active. -/
def depth (m : Monitor) : Nat := m.calls.size

/-- The active calls, the outermost first. -/
def trace (m : Monitor) : List CallEntry := m.calls.items.reverse

/-- The error that stops a run now. -/
def stop (m : Monitor) (reason : StopReason) : Error := .termination reason m.trace

/-- Replaces the budget and counts boundaries from zero. -/
def setBudget (m : Monitor) (budget : Budget) : Monitor := { m with budget, boundaries := 0 }

/-- Records a call, unless as many as may be are active. -/
def pushCall (c : CallEntry) : Proc Monitor Unit := fun m =>
  if m.options.maxDepth ≤ m.depth then .failed (m.stop .stackOverflow) m
  else .done () { m with calls := m.calls.push c }

/-- Forgets the innermost call. -/
def popCall (m : Monitor) : Monitor := { m with calls := m.calls.pop }

/-- Spends a unit of fuel, if there is any to spend. -/
def spend : Option Nat → Option (Option Nat)
  | none => some none
  | some 0 => none
  | some (n + 1) => some (some n)

/-- Accounts for one boundary. Neither the clock nor the interrupt changes by it. -/
def tick : Proc Monitor Unit := fun m =>
  match spend m.budget.fuel with
  | none => .failed (m.stop .outOfFuel) m
  | some fuel =>
    let m := { m with budget := { m.budget with fuel }, boundaries := m.boundaries + 1 }
    if m.interrupted then .failed (m.stop .interrupted) m
    else if m.budget.deadlinePassed m.boundaries m.now then .failed (m.stop .deadlineExceeded) m
    else .done () m

end Monitor

end ScriptCore
