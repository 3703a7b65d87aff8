import ProjectTracker.Text.Basic
/-!
Changes of a text, and the one span that covers a run of them.
-/

namespace ProjectTracker

/-- The replacement of `deleted` characters at `start`. -/
structure Change where
  start : Nat
  deleted : Nat
  inserted : Text
  deriving DecidableEq, Repr

namespace Change

/-- Makes a change in a text, clamped to its bounds. -/
def apply (c : Change) (text : Text) : Text :=
  text.take c.start ++ c.inserted ++ (text.drop c.start).drop c.deleted

/-- Makes changes one after the other. -/
def applyAll (changes : List Change) (text : Text) : Text :=
  changes.foldl (fun text c => c.apply text) text

@[simp] theorem applyAll_append (first second : List Change) (text : Text) :
    applyAll (first ++ second) text = applyAll second (applyAll first text) :=
  List.foldl_append

end Change

/-- `oldLength` characters at `start` of an older text that became `newLength` characters. -/
structure Span where
  start : Nat
  oldLength : Nat
  newLength : Nat
  deriving DecidableEq, Repr

namespace Span

/-- A number as a signed machine word. -/
def toSigned (n : Int) : Int :=
  n.bmod UInt64.size

/-- A number as an unsigned machine word. -/
def toUnsigned (n : Int) : Nat :=
  (n % UInt64.size).toNat

/-- A span under way: where it starts, and where it ends in the older and in the newer text. -/
structure Extent where
  start : Int
  oldEnd : Int
  newEnd : Int

def Extent.ofChange (c : Change) : Extent :=
  { start := toSigned c.start
    oldEnd := toSigned (c.start + c.deleted)
    newEnd := toSigned (c.start + c.inserted.length) }

/-- Widens a span by a change of the newer text. The end of the change is taken back to the older text
by the growth so far, and the end of the span forward to the text after the change. -/
def Extent.widen (e : Extent) (c : Change) : Extent :=
  let next := Extent.ofChange c
  { start := min e.start next.start
    oldEnd := max e.oldEnd (toSigned (e.oldEnd + toSigned (next.oldEnd - e.newEnd)))
    newEnd := max next.newEnd (toSigned (next.newEnd + toSigned (e.newEnd - next.oldEnd))) }

def Extent.span (e : Extent) : Span :=
  { start := toUnsigned e.start
    oldLength := toUnsigned (e.oldEnd - e.start)
    newLength := toUnsigned (e.newEnd - e.start) }

/-- The span that covers a run of changes, each of them one of the text after those before it. -/
def collapse : List Change → Option Span
  | [] => none
  | first :: rest => some (rest.foldl Extent.widen (Extent.ofChange first)).span

end Span

/-- What happened between two versions of a text. -/
inductive Difference where
  | unchanged
  /-- the changes that lead from the older to the newer version -/
  | changes (changes : List Change)
  /-- a version is unknown, or no longer kept, or the two are in the wrong order -/
  | unavailable
  deriving DecidableEq, Repr

namespace Difference

/-- The span that covers the whole difference. -/
def span : Difference → Option Span
  | unchanged => some ⟨0, 0, 0⟩
  | changes cs => Span.collapse cs
  | unavailable => none

end Difference

end ProjectTracker
