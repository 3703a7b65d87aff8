import ProjectTracker.Workspace.Clock
import ProjectTracker.Workspace.Editing
/-!
Questions about documents and projects. To answer one about the text of a document its waiting edits become
a version, so that most answers come with another workspace.
-/

namespace ProjectTracker

/-- The part of a text from one position to another. -/
structure PositionRange where
  start : Position
  stop : Position
  deriving DecidableEq, Repr

namespace Workspace

/-- Asks something of the current version of a document. -/
def query {α : Type} (w : Workspace) (p : Path) (ask : Snapshot → Except Failure α) :
    Workspace × Except Failure α :=
  let p := w.normalize p
  match w.documents.get? p with
  | none => (w, .error (.documentNotFound p))
  | some d => (w.fold p, ask d.snapshot)

def snapshot (w : Workspace) (p : Path) : Workspace × Except Failure Snapshot :=
  w.query p .ok

/-- The characters from `start` on, at most `length` of them. -/
def getText (w : Workspace) (p : Path) (start length : Nat) : Workspace × Except Failure Text :=
  w.query p fun s => .ok (s.tree.getText start length)

def getTextRange (w : Workspace) (p : Path) (range : PositionRange) : Workspace × Except Failure Text :=
  w.query p fun s =>
    let start := s.tree.offset range.start
    let stop := s.tree.offset range.stop
    if stop < start then .error (.rangeReversed range.start range.stop)
    else .ok (s.tree.getText start (stop - start))

def positionAt (w : Workspace) (p : Path) (offset : Nat) : Workspace × Except Failure Position :=
  w.query p fun s => .ok (s.tree.position offset)

def offsetAt (w : Workspace) (p : Path) (position : Position) : Workspace × Except Failure Nat :=
  w.query p fun s => .ok (s.tree.offset position)

/-- Puts a text in the place of a range of an open document. -/
def changeRange (w : Workspace) (p : Path) (range : PositionRange) (text : Text) :
    Workspace × Except Failure Nat :=
  match w.snapshot p with
  | (w, .error e) => (w, .error e)
  | (w, .ok s) =>
    w.changeFile p [⟨s.tree.offset range.start, s.tree.offset range.stop, text⟩]

/-- What happened to a document between two versions. -/
def difference (w : Workspace) (p : Path) (old new : Nat) : Except Failure Difference :=
  let p := w.normalize p
  match w.documents.get? p with
  | none => .error (.documentNotFound p)
  | some d => .ok (d.history.difference old new)

/-- The project of a tracked file: the one that it belongs to, or else one that contains it. -/
def projectFor (w : Workspace) (p : Path) : Workspace × Option ProjectId :=
  let p := w.normalize p
  if w.isTracked p then
    match w.owner? p with
    | some id => (w, some id)
    | none =>
      let w := w.refresh
      (w, w.reachingProject? p none)
  else (w, none)

/-- The project of a tracked file. An open document without a project is given the one that is found. -/
def adoptProjectFor (w : Workspace) (p : Path) : Workspace × Option ProjectId :=
  let p := w.normalize p
  match w.projectFor p with
  | (w, none) => (w, none)
  | (w, some id) =>
    (if w.isOpen p then w.setOwner p (some id) else w, some id)

end Workspace

end ProjectTracker
