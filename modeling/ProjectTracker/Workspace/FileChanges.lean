import ProjectTracker.Workspace.Manifests
/-!
Changes of files, as the file system reports them. A change only matters if a watch of the workspace covers
it, and then for each purpose of such watches once.
-/

namespace ProjectTracker

/-- What happened to a file. -/
inductive FileChange where
  | created
  | changed
  | deleted
  deriving DecidableEq, Repr

namespace Workspace

/-- The purposes of the watches that cover a path, each once, in the order of the watches. -/
def purposesAt (w : Workspace) (p : Path) : List WatchPurpose :=
  ((w.fs.watches.matching p).filterMap w.purposes.get?).foldl
    (fun found purpose => if purpose ∈ found then found else found ++ [purpose]) []

def isManifestName (w : Workspace) (p : Path) : Bool :=
  p.fileName?.any (· ∈ w.settings.manifestNames)

/-- A tracked file is gone. An open document stays, without its watch. A closed one is dropped, and with it
from the roots of all projects. -/
def documentDeleted (w : Workspace) (p : Path) : Workspace :=
  if w.isOpen p then
    let w := w.unwatch p
    w.emit (.contextChanged p (w.owner? p))
  else
    let affected := w.projects.keys.filter fun id => w.projectHas id (·.contains p)
    let w := w.forget p
    let w := affected.foldl
      (fun w id => w.modifyProject id fun project => (project.removeRoot p).markStale) w
    let w := w.refresh
    let touched := w.openFiles.all.filter fun q => (w.owner? q).any (· ∈ affected)
    let w := touched.foldl (fun w q => w.emit (.contextChanged q (w.owner? q))) w
    w.settle

/-- Counts a change of a text, after which the files are given to projects anew. -/
def textChanged (w : Workspace) : Workspace :=
  { w with changeCount := w.changeCount + 1 }.schedule (.settle (w.changeCount + 1))
    w.settings.timing.structureUpdate

/-- The file of a tracked document changed. An open document keeps its text. -/
def documentChanged (w : Workspace) (p : Path) (change : FileChange) : Workspace :=
  if change = .deleted then w.documentDeleted p
  else if w.isOpen p then w
  else
    match w.fs.text? p with
    | none => w.documentDeleted p
    | some text =>
      match w.documents.get? p with
      | none => w
      | some d =>
        let (d, reloaded) := d.reloadIfChanged text
        let w := w.modifyDocument p fun _ => d
        if reloaded then (w.markStaleAround p).textChanged else w

/-- A file below the directory of a manifest changed. -/
def sourceTreeChanged (w : Workspace) (id : ProjectId) (p : Path) : Workspace :=
  match w.manifestOf? id with
  | none => w
  | some manifest =>
    if manifest = p then w else w.schedule (.reread id) w.settings.timing.fileListUpdate

/-- What a change of a file means for one purpose of watching it. -/
def respond (p : Path) (change : FileChange) (w : Workspace) : WatchPurpose → Workspace
  | .document document => w.documentChanged document change
  | .manifest id => (w.updateConfigured id (some p)).settle
  | .sourceTree id => w.sourceTreeChanged id p
  | .lookout _ =>
    if change ≠ .deleted ∧ w.isManifestName p then w.discoverManifest p else w

/-- Takes note of a change of a file. -/
def fileChanged (w : Workspace) (p : Path) (change : FileChange) : Workspace :=
  let p := w.normalize p
  (w.purposesAt p).foldl (respond p change) w

end Workspace

end ProjectTracker
