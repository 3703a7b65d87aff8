import ProjectTracker.Workspace.Clock
/-!
A workspace whose clock is moved by a ticker. While the ticker runs the clock only moves with its ticks, one
step each; what was begun of a step when it stops is lost.
-/

namespace ProjectTracker

structure Ticker where
  workspace : Workspace
  /-- The time between two ticks, in milliseconds. -/
  interval : Nat
  /-- The time since the last tick. -/
  elapsed : Nat := 0
  isRunning : Bool := true

namespace Ticker

/-- The time between two ticks where none is asked for. -/
def defaultInterval : Nat := 50

/-- Starts a ticker. There is at least a millisecond between two ticks. -/
def start (workspace : Workspace) (interval : Nat) : Ticker :=
  { workspace, interval := max interval 1 }

/-- Lets a number of ticks happen. -/
def tick (t : Ticker) : Nat → Ticker
  | 0 => t
  | count + 1 => tick { t with workspace := t.workspace.advance t.interval } count

/-- Lets time pass. -/
def pass (t : Ticker) (duration : Nat) : Ticker :=
  if t.isRunning then
    let elapsed := t.elapsed + duration
    { t with elapsed := elapsed % t.interval }.tick (elapsed / t.interval)
  else t

/-- Stops the ticker. The tasks that wait stay where they are. -/
def stop (t : Ticker) : Ticker :=
  { t with isRunning := false }

end Ticker

end ProjectTracker
