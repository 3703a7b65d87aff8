/-!
Timers on a clock that is moved by hand. A key has at most one timer: scheduling it again replaces the
one that waits, so that work which is asked for again and again is done once, after the last request.
Times are counted in milliseconds.
-/

namespace ProjectTracker

structure Timer (κ τ : Type) where
  deadline : Nat
  /-- The place in the order of scheduling, which breaks ties between equal deadlines. -/
  order : Nat
  key : κ
  task : τ

/-- Timers wait by deadline and then by the order of scheduling. -/
structure TimerQueue (κ τ : Type) where
  now : Nat := 0
  nextOrder : Nat := 0
  timers : List (Timer κ τ) := []

namespace TimerQueue

variable {κ τ : Type}

/-- Puts a timer behind those that are due before it or with it. -/
def insertTimer (timer : Timer κ τ) : List (Timer κ τ) → List (Timer κ τ)
  | [] => [timer]
  | first :: rest =>
    if timer.deadline < first.deadline then timer :: first :: rest
    else first :: insertTimer timer rest

def size (q : TimerQueue κ τ) : Nat :=
  q.timers.length

def isEmpty (q : TimerQueue κ τ) : Bool :=
  q.timers.isEmpty

def nextDeadline? (q : TimerQueue κ τ) : Option Nat :=
  q.timers.head?.map (·.deadline)

/-- Takes the first timer if it is due by `limit`, and moves the clock to its deadline. -/
def popDue (q : TimerQueue κ τ) (limit : Nat) : TimerQueue κ τ × Option (Timer κ τ) :=
  match q.timers with
  | [] => (q, none)
  | timer :: rest =>
    if limit < timer.deadline then (q, none)
    else ({ q with now := max q.now timer.deadline, timers := rest }, some timer)

/-- Moves the clock on to a time, without firing anything. The clock never goes back. -/
def setNow (q : TimerQueue κ τ) (now : Nat) : TimerQueue κ τ :=
  { q with now := max q.now now }

/-- Lets the given time pass. The timers that come due leave the queue, earliest first. -/
def advance (q : TimerQueue κ τ) (duration : Nat) : TimerQueue κ τ × List (Timer κ τ) :=
  let limit := q.now + duration
  ({ q with
      now := limit
      timers := q.timers.dropWhile (·.deadline ≤ limit) },
    q.timers.takeWhile (·.deadline ≤ limit))

section

variable [DecidableEq κ]

def isScheduled (q : TimerQueue κ τ) (key : κ) : Bool :=
  q.timers.any (·.key = key)

def cancel (q : TimerQueue κ τ) (key : κ) : TimerQueue κ τ :=
  { q with timers := q.timers.filter (¬ ·.key = key) }

/-- Lets a task wait for the given time, in place of any other of the same key. -/
def schedule (q : TimerQueue κ τ) (key : κ) (delay : Nat) (task : τ) : TimerQueue κ τ :=
  let timer := ⟨q.now + delay, q.nextOrder, key, task⟩
  { q with
    nextOrder := q.nextOrder + 1
    timers := insertTimer timer (q.cancel key).timers }

end

end TimerQueue

end ProjectTracker
