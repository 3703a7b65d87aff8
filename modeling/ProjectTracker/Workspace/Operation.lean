import ProjectTracker.Workspace.Queries
/-!
All that is asked of a workspace and that happens to its files, as data: a run is a list of such
operations. Questions that make no other workspace have no operation.
-/

namespace ProjectTracker.Workspace

inductive Operation where
  | openFile (path : Path) (text? : Option Text)
  | closeFile (path : Path)
  | changeFile (path : Path) (edits : List Edit)
  | changeRange (path : Path) (range : PositionRange) (text : Text)
  | snapshot (path : Path)
  | getText (path : Path) (start length : Nat)
  | getTextRange (path : Path) (range : PositionRange)
  | positionAt (path : Path) (offset : Nat)
  | offsetAt (path : Path) (position : Position)
  | projectFor (path : Path)
  | adoptProjectFor (path : Path)
  | takeEvents
  | fileChanged (path : Path) (change : FileChange)
  | advance (duration : Nat)
  | flush
  | reload
  | settle
  /-- The file system is another one from now on: files and watches are as somebody else left them. -/
  | replaceFiles (fs : FileSystem)

/-- The workspace after an operation. Where the operation fails this is the workspace that it leaves
behind. -/
def perform (w : Workspace) : Operation → Workspace
  | .openFile p text? => (w.openFile p text?).1
  | .closeFile p => (w.closeFile p).1
  | .changeFile p edits => (w.changeFile p edits).1
  | .changeRange p range text => (w.changeRange p range text).1
  | .snapshot p => (w.snapshot p).1
  | .getText p start length => (w.getText p start length).1
  | .getTextRange p range => (w.getTextRange p range).1
  | .positionAt p offset => (w.positionAt p offset).1
  | .offsetAt p position => (w.offsetAt p position).1
  | .projectFor p => (w.projectFor p).1
  | .adoptProjectFor p => (w.adoptProjectFor p).1
  | .takeEvents => w.takeEvents.1
  | .fileChanged p change => w.fileChanged p change
  | .advance duration => w.advance duration
  | .flush => w.flush
  | .reload => w.reload
  | .settle => w.settle
  | .replaceFiles fs => { w with fs }

/-- The workspace after operations, one after the other. -/
def run (w : Workspace) (ops : List Operation) : Workspace :=
  ops.foldl perform w

end ProjectTracker.Workspace
