import ProjectTracker.Workspace.FileChanges
/-!
What an editor does with documents: it opens them, changes them and closes them. While a document is open its
text is what the editor made it, whatever happens to the file.
-/

namespace ProjectTracker

/-- Puts a text in the place of the characters from `start` to before `stop`. -/
structure Edit where
  start : Nat
  stop : Nat
  text : Text

namespace Edit

def deleted (e : Edit) : Nat :=
  e.stop - e.start

def change (e : Edit) : Change :=
  ⟨e.start, e.deleted, e.text⟩

/-- Whether edits fit a text of the given length, one after the other. The first one that does not decides
the failure. -/
def checkAll : Nat → List Edit → Except Failure Unit
  | _, [] => .ok ()
  | length, e :: rest =>
    if e.stop < e.start then .error (.editReversed e.start e.stop)
    else if length < e.stop then .error (.editOutOfRange e.start e.deleted length)
    else checkAll (length - e.deleted + e.text.length) rest

end Edit

namespace Document

/-- Makes edits, one after the other. -/
def editAll (d : Document) (edits : List Edit) : Except Failure Document :=
  edits.foldlM (fun d e => d.edit e.change) d

end Document

namespace Workspace

/-- Has a document tracked, with the given text or else with that of its file. A document that is tracked
already keeps its text unless another one is given. -/
def receive (w : Workspace) (p : Path) (text? : Option Text) : Except Failure Workspace :=
  match w.documents.get? p, text? with
  | some d, some text =>
    let (d, reloaded) := d.reloadIfChanged text
    let w := w.modifyDocument p fun _ => d
    .ok (if reloaded then w.markStaleAround p else w)
  | some _, none => .ok w
  | none, some text => .ok (w.track p text)
  | none, none =>
    match w.fs.read (.ofPath p) with
    | .ok text => .ok (w.track p text)
    | .error .notFound => .error (.documentNotFound p)
    | .error e => .error (.file e)

/-- Opens a file, with the given text or else with that of the file, and tells its project. -/
def openFile (w : Workspace) (p : Path) (text? : Option Text) :
    Workspace × Except Failure (Option ProjectId) :=
  let p := w.normalize p
  match w.receive p text? with
  | .error e => (w, .error e)
  | .ok received =>
    let w :=
      if w.isOpen p then received
      else
        let w := received.modifyDocument p fun d => { d with isOpen := true }
        (((w.consultManifest p).attach p).prune).sweep
    (w.emit (.opened p (w.owner? p)), .ok (w.owner? p))

/-- The text that a document has once it is closed: that of its file, or none if the file is gone. -/
def textOnDisk (w : Workspace) (p : Path) : Except FileError Text :=
  match w.fs.read (.ofPath p) with
  | .error .notFound => .ok []
  | result => result

/-- Closes a document. Its project goes if it was inferred for the document, or if it is a configured one
without any other open document. -/
def close (w : Workspace) (p : Path) (text : Text) : Workspace :=
  let w := (w.modifyDocument p (·.reload text)).markStaleAround p
  let owner? := w.owner? p
  let wasRoot := p ∈ w.openFiles.roots
  let w := (w.modifyOpenFiles (·.removeFirst p)).setOwner p none
  let w := w.modifyDocument p fun d => { d with isOpen := false }
  let w :=
    match owner? with
    | none => w
    | some id =>
      if w.projectHas id fun project => wasRoot || (project.isConfigured && project.openCount = 0) then
        w.dissolve id
      else w
  ((w.cancel (.document p)).emit (.closed p owner?)).settle

/-- Closes a file. A document that is not open stays as it is, and so does one whose file is there but
cannot be read. -/
def closeFile (w : Workspace) (p : Path) : Workspace × Except Failure Unit :=
  let p := w.normalize p
  match w.documents.get? p with
  | none => (w, .error (.documentNotFound p))
  | some d =>
    if d.isOpen then
      match w.textOnDisk p with
      | .error e => (w, .error (.file e))
      | .ok text => (w.close p text, .ok ())
    else (w, .ok ())

/-- Makes edits to an open document, all or none, and tells its version. -/
def changeFile (w : Workspace) (p : Path) (edits : List Edit) : Workspace × Except Failure Nat :=
  let p := w.normalize p
  match w.documents.get? p with
  | none => (w, .error (.documentNotFound p))
  | some d =>
    let edited : Except Failure Document := do
      if !d.isOpen then throw (.documentNotOpen p)
      Edit.checkAll d.history.length edits
      d.editAll edits
    match edited with
    | .error e => (w, .error e)
    | .ok d =>
      let w := (w.modifyDocument p fun _ => d).schedule (.fold p) w.settings.timing.editCoalesce
      let w := w.textChanged.markStaleAround p
      (w.emit (.changed p (w.owner? p) d.version), .ok d.version)

end Workspace

end ProjectTracker
