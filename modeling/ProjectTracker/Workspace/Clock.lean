import ProjectTracker.Workspace.Manifests
/-!
The clock of a workspace. Work that waits is done when the clock is moved past its time.
-/

namespace ProjectTracker.Workspace

/-- Does the work of a task. -/
def runTask (w : Workspace) : Task → Workspace
  | .fold p => w.fold p
  | .settle change => if change = w.changeCount then w.settle else w
  | .reread id => w.rereadManifest id

/-- Runs at most the given number of the tasks that are due by a time, the earliest first. -/
def runDue (limit : Nat) : Nat → Workspace → Workspace
  | 0, w => w
  | count + 1, w =>
    match w.timers.popDue limit with
    | (_, none) => w
    | (timers, some timer) => runDue limit count ({ w with timers }.runTask timer.task)

/-- Lets time pass. No task starts another one, so at most those run that wait now. -/
def advance (w : Workspace) (duration : Nat) : Workspace :=
  let limit := w.timers.now + duration
  let w := runDue limit w.timers.size w
  { w with timers := w.timers.setNow limit }

/-- The time until the next task is due. -/
def nextTaskIn? (w : Workspace) : Option Nat :=
  w.timers.nextDeadline?.map (· - w.timers.now)

/-- Lets time pass until the next task is due, at most the given number of times. -/
def flushWithin : Nat → Workspace → Workspace
  | 0, w => w
  | count + 1, w =>
    match w.nextTaskIn? with
    | none => w
    | some duration => flushWithin count (w.advance duration)

/-- Lets time pass until no task waits. -/
def flush (w : Workspace) : Workspace :=
  flushWithin w.timers.size w

end ProjectTracker.Workspace
