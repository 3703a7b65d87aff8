import ProjectTracker.Document.Store
import ProjectTracker.Manifest.Basic
import ProjectTracker.Project
import ProjectTracker.Reference.Basic
import ProjectTracker.Settings.Basic
import ProjectTracker.TimerQueue
import ProjectTracker.Workspace.OpenFiles
/-!
The state of a workspace: the tracked documents, the projects, and which project each open document belongs
to. Every open document is listed as the root of an inferred project, as the root of a configured one, or
as a file that some project reaches.

All paths in a workspace are normal; the operations that take a path from outside make it so first.
-/

namespace ProjectTracker

/-- What a workspace tells about. -/
inductive Event where
  | opened (path : Path) (owner? : Option ProjectId)
  /-- A document was closed that belonged to `owner?` until then. -/
  | closed (path : Path) (owner? : Option ProjectId)
  | changed (path : Path) (owner? : Option ProjectId) (version : Nat)
  /-- The project of an open document is another one now, or is no longer what it was. -/
  | contextChanged (path : Path) (owner? : Option ProjectId)
  /-- Reading a manifest, for the sake of `trigger?`, showed problems. -/
  | manifestRead (manifest : Path) (trigger? : Option Path) (problems : List Manifest.Problem)
  | projectCreated (id : ProjectId) (kind : ProjectKind)
  | projectRemoved (id : ProjectId)
  deriving DecidableEq, Repr

/-- Why a workspace watches something. -/
inductive WatchPurpose where
  /-- a tracked document -/
  | document (path : Path)
  /-- the manifest of a project -/
  | manifest (project : ProjectId)
  /-- what lies below the directory of the manifest of a project -/
  | sourceTree (project : ProjectId)
  /-- a directory in which a manifest may appear -/
  | lookout (directory : Path)
  deriving DecidableEq, Repr

/-- The watch of a directory in which a manifest may appear, and the number of projects that wait for
one there. -/
structure Lookout where
  watch : WatchId
  users : Nat
  deriving DecidableEq, Repr

/-- Work that waits for more of its kind. -/
inductive Task where
  /-- Make the waiting edits of a document a version. -/
  | fold (path : Path)
  /-- Give the files to projects anew, unless a text changed after change number `change`. -/
  | settle (change : Nat)
  /-- Read the manifest of a project again. -/
  | reread (project : ProjectId)
  deriving DecidableEq, Repr

/-- What a task is about. Of the tasks with one topic only the last waits. -/
inductive Topic where
  | document (path : Path)
  | membership
  | project (project : ProjectId)
  deriving DecidableEq, Repr

def Task.topic : Task → Topic
  | fold path => .document path
  | settle _ => .membership
  | reread project => .project project

structure Workspace where
  settings : Settings
  scanner : Scanner
  fs : FileSystem
  documents : Store := {}
  projects : Table ProjectId Project := ∅
  /-- The last project id given out. -/
  lastProject : ProjectId := 0
  /-- The inferred projects, the oldest first. -/
  inferred : List ProjectId := []
  /-- The configured projects, the oldest first. -/
  configured : List ProjectId := []
  openFiles : OpenFiles := {}
  lookouts : Table Path Lookout := ∅
  /-- Why each watch is held. -/
  purposes : Table WatchId WatchPurpose := ∅
  timers : TimerQueue Topic Task := {}
  /-- The number of changes of texts so far. -/
  changeCount : Nat := 0
  /-- What happened since the events were taken last, the oldest first. -/
  events : List Event := []
  /-- How often a project was to count one open document less while it counted none. Its count then
  stayed at zero. -/
  overdrafts : Nat := 0

namespace Workspace

/-- An empty workspace. It fails if the settings hold a pattern that is none. -/
def create (fs : FileSystem) (settings : Settings) (base : Path) : Except Failure Workspace :=
  match Pattern.parse? settings.referencePattern with
  | none => .error .badSettings
  | some pattern =>
    .ok { settings, scanner := ⟨pattern, base, settings.caseSensitivePaths⟩, fs }

def normalizer (w : Workspace) : Normalizer :=
  w.scanner.normalizer

def normalize (w : Workspace) (p : Path) : Path :=
  w.normalizer.normalize p

def emit (w : Workspace) (e : Event) : Workspace :=
  { w with events := w.events ++ [e] }

/-- Takes the events that have gathered. -/
def takeEvents (w : Workspace) : Workspace × List Event :=
  ({ w with events := [] }, w.events)

def modifyDocument (w : Workspace) (p : Path) (f : Document → Document) : Workspace :=
  { w with documents := w.documents.modify p f }

def modifyProject (w : Workspace) (id : ProjectId) (f : Project → Project) : Workspace :=
  { w with projects := w.projects.modify id f }

def modifyOpenFiles (w : Workspace) (f : OpenFiles → OpenFiles) : Workspace :=
  { w with openFiles := f w.openFiles }

/-- Whether a project is live and has a property. -/
def projectHas (w : Workspace) (id : ProjectId) (property : Project → Bool) : Bool :=
  (w.projects.get? id).any property

def isTracked (w : Workspace) (p : Path) : Bool :=
  w.documents.contains p

def isOpen (w : Workspace) (p : Path) : Bool :=
  (w.documents.get? p).any (·.isOpen)

/-- The project that a document belongs to. -/
def owner? (w : Workspace) (p : Path) : Option ProjectId :=
  (w.documents.get? p).bind (·.owner?)

/-- Lets a task wait, in place of any other with the same topic. -/
def schedule (w : Workspace) (task : Task) (delay : Nat) : Workspace :=
  { w with timers := w.timers.schedule task.topic delay task }

def cancel (w : Workspace) (topic : Topic) : Workspace :=
  { w with timers := w.timers.cancel topic }

/-- Marks the projects stale that contain a file. -/
def markStaleAround (w : Workspace) (p : Path) : Workspace :=
  { w with
    projects := w.projects.map fun project =>
      if project.contains p then project.markStale else project }

end Workspace

end ProjectTracker
