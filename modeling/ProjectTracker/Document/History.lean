import ProjectTracker.Document.Change
import ProjectTracker.Failure
import ProjectTracker.LineTree.Basic
/-!
The history of a text. Edits wait until somebody asks for the text, until too many wait, or until one is
large; they then become a new version together. The newest versions are kept, each with the changes that
led to it, and the older ones are forgotten.
-/

namespace ProjectTracker

/-- Makes changes in the text of a tree, one after the other. -/
def LineTree.editAll (t : LineTree) (changes : List Change) : LineTree :=
  changes.foldl (fun tree c => tree.edit c.start c.deleted c.inserted) t

/-- One version of a text. -/
structure Snapshot where
  version : Nat
  tree : LineTree
  /-- The changes from the version before it. -/
  changes : List Change

/-- When waiting edits become a version, and how many versions are kept. -/
structure HistoryLimits where
  /-- The most edits that wait. -/
  changeCount : Nat := 8
  /-- The most characters that a waiting edit deletes or inserts. -/
  changeLength : Nat := 256
  versions : Nat := 8
  deriving DecidableEq, Repr

structure History where
  latest : Snapshot
  /-- The versions before the latest, the newest first. -/
  earlier : List Snapshot
  /-- The edits that wait, the oldest first. -/
  pending : List Change
  /-- The length of the text with the edits that wait. -/
  length : Nat
  limits : HistoryLimits
  /-- The capacity of the line trees. -/
  capacity : Nat

namespace History

/-- A version that starts a history. -/
def firstSnapshot (version : Nat) (text : Text) (capacity : Nat) : Snapshot :=
  { version, tree := LineTree.ofText text capacity, changes := [] }

/-- The history of a new text. At least one version is kept. -/
def ofText (text : Text) (limits : HistoryLimits) (capacity : Nat) : History :=
  { latest := firstSnapshot 0 text capacity
    earlier := []
    pending := []
    length := text.length
    limits := { limits with versions := max limits.versions 1 }
    capacity }

def version (h : History) : Nat :=
  h.latest.version

/-- The versions that are kept, the newest first. -/
def snapshots (h : History) : List Snapshot :=
  h.latest :: h.earlier

/-- The oldest version that is kept. -/
def minVersion (h : History) : Nat :=
  (h.earlier.getLast?.getD h.latest).version

def hasPending (h : History) : Bool :=
  !h.pending.isEmpty

/-- The tree of the text with the edits that wait. -/
def currentTree (h : History) : LineTree :=
  h.latest.tree.editAll h.pending

/-- The text with the edits that wait. -/
def text (h : History) : Text :=
  h.currentTree.text

/-- Makes the edits that wait a new version. -/
def fold (h : History) : History :=
  if h.pending = [] then h
  else
    { h with
      latest := { version := h.version + 1, tree := h.currentTree, changes := h.pending }
      earlier := h.snapshots.take (h.limits.versions - 1)
      pending := [] }

/-- Whether the edits that wait are too many. -/
def isOverfull (h : History) : Bool :=
  h.limits.changeCount < h.pending.length

/-- Whether a change is too large to wait. -/
def isLarge (h : History) (c : Change) : Bool :=
  h.limits.changeLength < c.deleted || h.limits.changeLength < c.inserted.length

/-- Lets an edit of the current text wait, or makes a new version at once. -/
def edit (h : History) (c : Change) : Except Failure History :=
  if h.length < c.start ∨ h.length - c.start < c.deleted then
    .error (.editOutOfRange c.start c.deleted h.length)
  else
    let queued :=
      { h with
        pending := h.pending ++ [c]
        length := h.length - c.deleted + c.inserted.length }
    .ok (if queued.isOverfull || queued.isLarge c then queued.fold else queued)

/-- Puts another text in the place of this one. The history before it is forgotten. -/
def reload (h : History) (text : Text) : History :=
  { h with
    latest := firstSnapshot (h.version + 1) text h.capacity
    earlier := []
    pending := []
    length := text.length }

/-- The changes of the versions after `old` up to `new`, the oldest first. -/
def changesBetween (h : History) (old new : Nat) : List Change :=
  (h.snapshots.reverse.filter fun s => old < s.version && s.version ≤ new).flatMap (·.changes)

/-- What happened between two versions. -/
def difference (h : History) (old new : Nat) : Difference :=
  if old = new ∧ old ≤ h.version then .unchanged
  else if new < old ∨ old < h.minVersion ∨ h.version < new then .unavailable
  else .changes (h.changesBetween old new)

end History

end ProjectTracker
