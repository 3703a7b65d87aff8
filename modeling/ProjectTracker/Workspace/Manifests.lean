import ProjectTracker.Workspace.Membership
/-!
Configured projects: how manifests make them, change them and end them. A manifest that defines no project
makes none, and leaves one that it made before as it is.
-/

namespace ProjectTracker.Workspace

/-- The manifest that is nearest to a file. -/
def nearestManifest? (w : Workspace) (p : Path) : Option Path := do
  let dir ← p.parent?
  let found ← Manifest.find? w.fs (.ofPath dir) w.settings.manifestNames
  pure (w.normalize found.path)

/-- The live project of a manifest. -/
def projectOfManifest? (w : Workspace) (manifest : Path) : Option ProjectId :=
  w.configured.find? fun id => w.projectHas id (·.manifest? = some manifest)

/-- The manifest of a live project. -/
def manifestOf? (w : Workspace) (id : ProjectId) : Option Path :=
  (w.projects.get? id).bind (·.manifest?)

/-- Reads a manifest and tells about its problems. -/
def readManifest (w : Workspace) (manifest : Path) (trigger? : Option Path) :
    Workspace × Manifest.Outcome :=
  let outcome := Manifest.read w.fs w.normalizer (.ofPath manifest)
  let w :=
    if outcome.problems = [] then w
    else w.emit (.manifestRead manifest trigger? outcome.problems)
  (w, outcome)

/-- Makes the project that a manifest defines, if it defines one. Roots that cannot be read are left
out. -/
def createConfigured (w : Workspace) (manifest : Path) (outcome : Manifest.Outcome) : Workspace :=
  if outcome.definesProject then
    let id := w.lastProject + 1
    let w := outcome.roots.foldl load { w with lastProject := id }
    let roots := outcome.roots.filter w.isTracked
    let (w, manifestWatch) := w.watch (.file (.ofPath manifest)) (.manifest id)
    let (w, treeWatches) :=
      match manifest.parent? with
      | none => (w, [])
      | some dir =>
        let (w, tree) := w.watch (.directory (.ofPath dir) true) (.sourceTree id)
        (w, [tree])
    let project : Project :=
      { id, kind := .configured manifest, roots, settings := outcome.settings,
        watches := manifestWatch :: treeWatches }
    let w :=
      { w with
        projects := w.projects.insert id project
        configured := w.configured ++ [id] }.refreshProject id
    w.emit (.projectCreated id (.configured manifest))
  else w

/-- Takes a root out of a project. If the root is open and belongs to the project, it is left without
one. -/
def dropRoot (id : ProjectId) (state : Workspace × List Path) (root : Path) : Workspace × List Path :=
  let (w, detached) := state
  let w := w.modifyProject id (·.removeRoot root)
  if w.owner? root = some id ∧ root ∈ w.openFiles.configuredRoots then
    ((w.modifyOpenFiles (·.removeConfiguredRoot root)).setOwner root none, detached ++ [root])
  else (w, detached)

/-- Makes an open document belong to a project that has it as a root. An inferred project that it was the
root of goes. -/
def takeOver (id : ProjectId) (state : Workspace × List Path) (root : Path) : Workspace × List Path :=
  let (w, detached) := state
  let former? := if root ∈ w.openFiles.roots then w.owner? root else none
  let (w, orphans) := (w.modifyOpenFiles (·.removeRoot root)).evict former?
  let w := w.modifyOpenFiles fun o => (o.removeReferenced root).removeConfiguredRoot root
  let w := (w.setOwner root (some id)).modifyOpenFiles (·.addConfiguredRoot root)
  (w.emit (.contextChanged root (some id)), detached ++ orphans.filter (· ≠ root))

/-- Adds a root to a project if the file can be read. -/
def gainRoot (id : ProjectId) (state : Workspace × List Path) (root : Path) : Workspace × List Path :=
  let w := state.1.load root
  if w.isTracked root then
    let w := w.modifyProject id (·.addRoot root)
    if w.isOpen root then takeOver id (w, state.2) root else (w, state.2)
  else (w, state.2)

/-- Makes a project what its manifest defines now. -/
def applyManifest (w : Workspace) (id : ProjectId) (outcome : Manifest.Outcome) : Workspace :=
  match w.projects.get? id with
  | none => w
  | some project =>
    if outcome.definesProject then
      let gone := project.roots.filter fun root => root ∉ outcome.roots
      let new := outcome.roots.filter fun root => root ∉ project.roots
      let state := gone.foldl (dropRoot id) (w, [])
      let (w, detached) := new.foldl (gainRoot id) state
      let w := w.modifyProject id fun project =>
        { project with settings := outcome.settings, isStale := true }
      (w.refreshProject id).reattach detached
    else w

/-- Reads the manifest of a project again. The project goes if the manifest is gone. -/
def updateConfigured (w : Workspace) (id : ProjectId) (trigger? : Option Path) : Workspace :=
  match w.manifestOf? id with
  | none => w
  | some manifest =>
    if w.fs.isFile (.ofPath manifest) then
      let (w, outcome) := w.readManifest manifest trigger?
      w.applyManifest id outcome
    else w.dissolve id

/-- Reads the manifest that is nearest to a file, if there is one. -/
def consultManifest (w : Workspace) (p : Path) : Workspace :=
  match w.nearestManifest? p with
  | none => w
  | some manifest =>
    match w.projectOfManifest? manifest with
    | some id => w.updateConfigured id (some p)
    | none =>
      let (w, outcome) := w.readManifest manifest (some p)
      w.createConfigured manifest outcome

/-- Reads all manifests again, also those that appeared near the roots of inferred projects. -/
def reload (w : Workspace) : Workspace :=
  let w := w.configured.foldl (fun w id => w.updateConfigured id none) w
  let w := w.openFiles.roots.foldl consultManifest w
  w.settle

/-- Reads the manifest of a project again after files came or went below its directory. -/
def rereadManifest (w : Workspace) (id : ProjectId) : Workspace :=
  match w.manifestOf? id with
  | none => w
  | some manifest =>
    if w.fs.isFile (.ofPath manifest) then
      let (w, outcome) := w.readManifest manifest none
      let roots := ((w.projects.get? id).map (·.roots)).getD []
      if outcome.roots.isPerm roots then w else (w.applyManifest id outcome).settle
    else (w.updateConfigured id none).settle

/-- Whether a manifest would take over the root of an inferred project: by listing it, or by being the
nearest to it. -/
def takesOver (w : Workspace) (manifest : Path) (outcome : Manifest.Outcome) : Bool :=
  w.openFiles.roots.any fun root =>
    root ∈ outcome.roots || w.nearestManifest? root = some manifest

/-- Makes the project of a manifest that appeared, if it concerns the root of an inferred project. -/
def discoverManifest (w : Workspace) (manifest : Path) : Workspace :=
  if (w.projectOfManifest? manifest).isSome then w
  else
    let (w, outcome) := w.readManifest manifest none
    if outcome.definesProject && w.takesOver manifest outcome then
      (w.createConfigured manifest outcome).reload
    else w

end ProjectTracker.Workspace
