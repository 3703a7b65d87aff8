import ProjectTracker.Workspace.Basic
/-!
What a workspace tracks: the files that it watches, the directories in which it waits for manifests, and the
documents.
-/

namespace ProjectTracker.Workspace

/-! ### Watches -/

/-- Watches a target for a purpose. -/
def watch (w : Workspace) (target : WatchTarget) (purpose : WatchPurpose) : Workspace × WatchId :=
  let (fs, id) := w.fs.watch target
  ({ w with fs, purposes := w.purposes.insert id purpose }, id)

def releaseWatch (w : Workspace) (id : WatchId) : Workspace :=
  { w with fs := w.fs.releaseWatch id, purposes := w.purposes.erase id }

/-- Lets one more project wait for a manifest in a directory. -/
def joinLookout (w : Workspace) (dir : Path) : Workspace :=
  match w.lookouts.get? dir with
  | some lookout =>
    { w with lookouts := w.lookouts.insert dir { lookout with users := lookout.users + 1 } }
  | none =>
    let (w, id) := w.watch (.directory (.ofPath dir) false) (.lookout dir)
    { w with lookouts := w.lookouts.insert dir ⟨id, 1⟩ }

/-- Lets one project less wait for a manifest in a directory. The last one to leave gives up the watch. -/
def leaveLookout (w : Workspace) (dir : Path) : Workspace :=
  match w.lookouts.get? dir with
  | none => w
  | some lookout =>
    if lookout.users ≤ 1 then
      { w with lookouts := w.lookouts.erase dir }.releaseWatch lookout.watch
    else
      { w with lookouts := w.lookouts.insert dir { lookout with users := lookout.users - 1 } }

/-! ### Tracking documents -/

/-- Starts to track a file with the given text. -/
def track (w : Workspace) (p : Path) (text : Text) : Workspace :=
  let (w, id) := w.watch (.file (.ofPath p)) (.document p)
  let document := Document.create (.ofPath p) text w.settings.history w.settings.nodeCapacity
  { w with documents := w.documents.insert { document with watch? := some id } }

/-- Tracks a file unless it is tracked already or cannot be read. -/
def load (w : Workspace) (p : Path) : Workspace :=
  if w.isTracked p then w
  else
    match w.fs.text? p with
    | none => w
    | some text => w.track p text

/-- Gives up the watch of a document. -/
def unwatch (w : Workspace) (p : Path) : Workspace :=
  match (w.documents.get? p).bind (·.watch?) with
  | none => w
  | some id => (w.modifyDocument p fun d => { d with watch? := none }).releaseWatch id

/-- Stops to track a file. -/
def forget (w : Workspace) (p : Path) : Workspace :=
  if w.isTracked p then
    let w := w.unwatch p
    { w with documents := w.documents.remove p }.cancel (.document p)
  else w

/-- Makes the waiting edits of a document a version. -/
def fold (w : Workspace) (p : Path) : Workspace :=
  w.modifyDocument p Document.fold

/-- Counts one open document less for a project, if it is live. -/
def countOut (w : Workspace) (id : ProjectId) : Workspace :=
  { w.modifyProject id Project.removeOpen with
    overdrafts := if w.projectHas id (·.openCount = 0) then w.overdrafts + 1 else w.overdrafts }

/-- Counts one more open document for a project, if it is live. -/
def countIn (w : Workspace) (id : ProjectId) : Workspace :=
  w.modifyProject id Project.addOpen

/-- Gives a document to a project or to none. Projects count those of their documents that are open. -/
def setOwner (w : Workspace) (p : Path) (owner? : Option ProjectId) : Workspace :=
  match w.documents.get? p with
  | none => w
  | some d =>
    if d.owner? = owner? then w
    else
      let w :=
        if d.isOpen then
          let w := d.owner?.elim w w.countOut
          owner?.elim w w.countIn
        else w
      w.modifyDocument p fun d => { d with owner? }

end ProjectTracker.Workspace
