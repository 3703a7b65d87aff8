import ProjectTracker.Workspace.Tracking
/-!
Which project each open document belongs to. A document belongs to the configured project that has it as a
root, or else to a project that reaches it, configured ones first, or else to an inferred project of its
own. An inferred project takes over the roots that it reaches.

A project that is removed leaves its open documents without one; they are then attached anew.
-/

namespace ProjectTracker.Workspace

/-! ### The files of a project -/

/-- The texts of the tracked documents, and of the files that are not tracked. -/
def sources (w : Workspace) : Sources where
  paths := w.documents.paths ++ w.fs.filePaths
  text? p :=
    match w.documents.get? p with
    | some d => some d.text
    | none => w.fs.text? p

/-- Finds the files of a project anew, and tracks them. The documents that were read on the way have no
waiting edits after it. -/
def refreshProject (w : Workspace) (id : ProjectId) : Workspace :=
  match w.projects.get? id with
  | none => w
  | some project =>
    let files := w.scanner.fileSet w.sources project.roots
    let w := files.foldl fold (w.modifyProject id (·.refresh files))
    files.foldl load w

/-- Finds the files of all stale projects anew. -/
def refresh (w : Workspace) : Workspace :=
  let stale := w.projects.keys.filter fun id => w.projectHas id (·.isStale)
  stale.foldl refreshProject w

/-- The oldest configured project that has a file as a root. -/
def rootingProject? (w : Workspace) (p : Path) : Option ProjectId :=
  w.configured.find? fun id => w.projectHas id (·.isRoot p)

/-- The project that should have a file among those that contain it: the oldest configured one, or else
the oldest inferred one. One project may be left out. -/
def reachingProject? (w : Workspace) (p : Path) (except? : Option ProjectId) : Option ProjectId :=
  (w.configured ++ w.inferred).find? fun id =>
    some id ≠ except? && w.projectHas id (·.contains p)

/-! ### Removing projects -/

/-- Takes an open document out of the lists and away from its project. -/
def detach (w : Workspace) (p : Path) : Workspace :=
  (w.modifyOpenFiles (·.remove p)).setOwner p none

/-- Removes a project with its watches. The open documents that belonged to it are left without a project
and without a place in the lists. -/
def removeProject (w : Workspace) (id : ProjectId) : Workspace × List Path :=
  match w.projects.get? id with
  | none => (w, [])
  | some project =>
    let w := project.watches.foldl releaseWatch w
    let w := project.lookouts.foldl leaveLookout w
    let w :=
      { w with
        projects := w.projects.erase id
        inferred := w.inferred.filter (· ≠ id)
        configured := w.configured.filter (· ≠ id) }.cancel (.project id)
    let orphans := w.openFiles.all.filter fun p => w.owner? p = some id
    ((orphans.foldl detach w).emit (.projectRemoved id), orphans)

/-- Removes the project that a document came from, if it came from one. -/
def evict (w : Workspace) (former? : Option ProjectId) : Workspace × List Path :=
  match former? with
  | none => (w, [])
  | some id => w.removeProject id

/-! ### Attaching documents -/

/-- Makes an inferred project with the given root. It waits for manifests in the directories above. -/
def createInferred (w : Workspace) (root : Path) : Workspace × ProjectId :=
  let id := w.lastProject + 1
  let project : Project := { id, kind := .inferred, roots := [root], lookouts := root.ancestors }
  let w := root.ancestors.foldl joinLookout { w with lastProject := id }
  let w :=
    { w with projects := w.projects.insert id project, inferred := w.inferred ++ [id] }.refreshProject id
  (w.emit (.projectCreated id .inferred), id)

/-- Makes the root of an inferred project a referenced file of another one. The former project goes. Those
of its other documents that are left over join the ones given. -/
def absorb (id : ProjectId) (state : Workspace × List Path) (root : Path) : Workspace × List Path :=
  let (w, detached) := state
  let (w, orphans) := (w.modifyOpenFiles (·.removeRoot root)).evict (w.owner? root)
  let w := (w.setOwner root (some id)).modifyOpenFiles (·.addReferenced root)
  (w.emit (.contextChanged root (some id)), detached ++ orphans.filter (· ≠ root))

/-- Gives an open document to a project that is there already, if there is one for it. -/
def join? (w : Workspace) (p : Path) : Option Workspace :=
  match w.rootingProject? p with
  | some id => some ((w.setOwner p (some id)).modifyOpenFiles (·.addConfiguredRoot p))
  | none =>
    match w.reachingProject? p none with
    | some id => some ((w.setOwner p (some id)).modifyOpenFiles (·.addReferenced p))
    | none => none

/-- Gives an open document an inferred project of its own, which takes over the roots that it reaches. The
documents that this leaves without a project are listed. -/
def foundProject (w : Workspace) (p : Path) (absorbs : Bool) : Workspace × List Path :=
  let (w, id) := w.createInferred p
  let w := w.setOwner p (some id)
  let reached :=
    if absorbs then w.openFiles.roots.filter fun root => w.projectHas id (·.contains root) else []
  let (w, detached) := reached.foldl (absorb id) (w, [])
  (w.modifyOpenFiles (·.addRoot p), detached)

/-- Attaches a document again that lost its project. -/
def reattachBy (attach : Workspace → Path → Workspace) (w : Workspace) (p : Path) : Workspace :=
  if !w.isOpen p || (w.owner? p).isSome then w
  else
    let w := attach (w.modifyOpenFiles (·.remove p)) p
    w.emit (.contextChanged p (w.owner? p))

/-- Attaches an open document, and then those that lost their project over it. The depth bounds how often
one inferred project takes the place of another in turn; below it nothing is taken over. -/
def attachWithin : Nat → Workspace → Path → Workspace
  | 0, w, p =>
    let w := w.refresh
    (w.join? p).getD (w.foundProject p false).1
  | depth + 1, w, p =>
    let w := w.refresh
    match w.join? p with
    | some w => w
    | none =>
      let (w, detached) := w.foundProject p true
      detached.foldl (reattachBy (attachWithin depth)) w

/-- Attaches a newly opened document. A project that is made on the way and then taken over has only files
that its successor has as well, so its documents need no further project. Every level of the recursion but
the last two thus removes a project that was there at the start, and the number of those bounds the
depth. -/
def attach (w : Workspace) (p : Path) : Workspace :=
  attachWithin (w.inferred.length + 2) w p

/-- Attaches those of the given documents that are open and have no project. -/
def reattach (w : Workspace) (paths : List Path) : Workspace :=
  paths.foldl (reattachBy attach) w

/-- Removes a project and attaches its documents anew. -/
def dissolve (w : Workspace) (id : ProjectId) : Workspace :=
  let (w, orphans) := w.removeProject id
  w.reattach orphans

/-! ### Settling -/

/-- Removes the configured projects without open documents. -/
def prune (w : Workspace) : Workspace :=
  let unused := w.configured.filter fun id => w.projectHas id (·.openCount = 0)
  unused.foldl dissolve w

/-- Stops to track the closed documents that no project contains. -/
def sweep (w : Workspace) : Workspace :=
  let orphans := w.documents.paths.filter fun p =>
    !w.isOpen p && !w.projects.values.any (·.contains p)
  orphans.foldl forget w

/-- Detaches those of the listed documents whose project no longer has the property that put them on the
list. The others stay. -/
def detachUnless (property : Path → Project → Bool) (removal : OpenFiles → Path → OpenFiles)
    (state : Workspace × List Path) (p : Path) : Workspace × List Path :=
  let (w, detached) := state
  if (w.owner? p).any fun id => w.projectHas id (property p) then (w, detached)
  else ((w.modifyOpenFiles (removal · p)).setOwner p none, detached ++ [p])

/-- Gives an open document to a project, as a root or as a referenced file. -/
def assign (w : Workspace) (p : Path) (id : ProjectId) : Workspace :=
  let add := if w.projectHas id (·.isRoot p) then OpenFiles.addConfiguredRoot else .addReferenced
  (w.modifyOpenFiles (add · p)).setOwner p (some id)

/-- Gives the root of an inferred project to another project that reaches it. -/
def demote (state : Workspace × List Path) (root : Path) : Workspace × List Path :=
  let (w, detached) := state
  if root ∉ w.openFiles.roots then (w, detached)
  else
    let own? := w.owner? root
    match w.reachingProject? root own? with
    | none => (w, detached)
    | some id =>
      let (w, orphans) := (w.modifyOpenFiles (·.removeRoot root)).evict own?
      let w := (w.assign root id).emit (.contextChanged root (some id))
      (w, detached ++ orphans.filter (· ≠ root))

/-- Gives every open document to the project that should have it, and removes the projects and documents
that nobody needs. -/
def settle (w : Workspace) : Workspace :=
  let w := w.refresh
  let state := w.openFiles.configuredRoots.foldl
    (detachUnless (fun p project => project.isRoot p) .removeConfiguredRoot) (w, [])
  let state := state.1.openFiles.referenced.foldl
    (detachUnless (fun p project => project.contains p) .removeReferenced) state
  let (w, detached) := state.1.openFiles.roots.foldl demote state
  ((w.reattach detached).prune).sweep

end ProjectTracker.Workspace
