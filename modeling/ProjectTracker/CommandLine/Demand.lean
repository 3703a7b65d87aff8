import ProjectTracker.CommandLine.Report
/-!
Which places of a disk an answer depends on, as far as what is known of the disk shows. The places that an
answer needs beyond those only show once these are known, so that asking again and again until nothing new
is named finds them all.
-/

namespace ProjectTracker.CommandLine

/-- Places on a disk: files, and directories with all that lies below them. -/
structure Demand where
  files : List Path := []
  trees : List Path := []

/-- Where the manifest of a file may be. -/
def manifestPlaces (w : Workspace) (p : Path) : List Path :=
  p.ancestors.flatMap fun dir =>
    w.settings.manifestNames.map fun name => ((Spelling.ofPath dir).join name).path

/-- What a manifest lists, if it can be read. -/
def listing? (w : Workspace) (manifest : Path) : Option Manifest.Listing := do
  let text ← w.fs.text? manifest
  Manifest.Listing.ofEntries? (← Manifest.entries? text)

/-- The places that a manifest names. -/
def manifestDemand (w : Workspace) (manifest : Path) : Demand :=
  match listing? w manifest with
  | none => {}
  | some listing =>
    let place (written : String) : Path :=
      w.normalizer.resolveIn (manifest.parent?.getD Path.root) (Spelling.parse written).path
    { files := listing.files.map place, trees := listing.directories.map place }

/-- The places that matter for the files that are opened: these, what they refer to, and the manifests above
them with what those name. -/
def workspaceDemand (w : Workspace) (opened : List Path) : Demand :=
  let tracked := w.documents.paths
  let referenced := tracked.flatMap fun p =>
    match w.documents.get? p with
    | none => []
    | some d => w.scanner.references p d.text
  let manifests := (opened.flatMap (manifestPlaces w)).flatMap fun p => [p, w.normalize p]
  let named := manifests.map (manifestDemand w)
  { files := opened ++ tracked ++ referenced ++ manifests ++ named.flatMap (·.files)
    trees := named.flatMap (·.trees) }

/-- The places that the answer to the arguments depends on. -/
def demand (disk : Disk) (args : List String) : Demand :=
  match readArguments args with
  | .ok (.inspect options files) =>
    let fs : FileSystem := { storage := .disk disk }
    let settings := (Spelling.parse (options.config?.getD Settings.fileName)).path
    match openWorkspace fs disk.workingDirectory options with
    | .error _ => { files := [settings] }
    | .ok w =>
      let (w, _) := openAll w files
      let found := workspaceDemand w (files.map fun file => w.normalize (Spelling.parse file).path)
      { found with files := settings :: found.files }
  | _ => {}

end ProjectTracker.CommandLine
