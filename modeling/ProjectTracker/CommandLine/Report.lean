import ProjectTracker.CommandLine.Arguments
import ProjectTracker.Settings.Loader
import ProjectTracker.Workspace.Queries
/-!
What the program answers to its arguments: an exit code, lines of output, and lines about errors.
-/

namespace ProjectTracker.CommandLine

structure Report where
  code : Nat := 0
  output : List String := []
  errors : List String := []
  deriving DecidableEq, Repr

/-! ### Help -/

def version : String := "project-service 0.1.0"

def optionLines : List String :=
  [ "      --config <CONFIG>      Config file (default: ./project-service.toml)",
    "      --base-dir <BASE_DIR>  Directory relative paths are resolved against",
    "  -h, --help                 Print help" ]

def helpLines : HelpTopic → List String
  | .program =>
    [ "Resolve which project owns each open file",
      "",
      "Usage: project-service [OPTIONS] <COMMAND>",
      "",
      "Commands:",
      "  inspect  Open files as an editor would and print the resulting projects",
      "  help     Print this message or the help of the given subcommand(s)",
      "",
      "Options:" ] ++ optionLines ++
    [ "  -V, --version              Print version" ]
  | .inspect =>
    [ "Open files as an editor would and print the resulting projects",
      "",
      "Usage: project-service inspect [OPTIONS] <FILES>...",
      "",
      "Arguments:",
      "  <FILES>...  Files to open, in order",
      "",
      "Options:" ] ++ optionLines
  | .help =>
    [ "Print this message or the help of the given subcommand(s)",
      "",
      "Usage: project-service help [COMMAND]...",
      "",
      "Arguments:",
      "  [COMMAND]...  Print help for the subcommand(s)" ]

/-! ### Inspecting files -/

/-- The lines about a project: its id and kind, how many of its documents are open, and its files. -/
def projectLines (p : Project) : List String :=
  let kind :=
    match p.kind with
    | .inferred => "inferred"
    | .configured manifest => manifest.render
  let fileLine (file : Path) : String :=
    (if p.isRoot file then "  root " else "  ref  ") ++ file.render
  s!"{ProjectId.render p.id} ({kind})" :: s!"  open files: {p.openCount}" :: p.files.map fileLine

/-- A workspace for the given options. -/
def openWorkspace (fs : FileSystem) (workingDirectory : Path) (options : Options) :
    Except Failure Workspace :=
  let (settings, _) := Settings.load fs (.parse (options.config?.getD Settings.fileName))
  let base := (options.baseDir?.map fun written => (Spelling.parse written).path).getD workingDirectory
  Workspace.create fs settings base

/-- Opens one more file, and keeps the failure if there is one. -/
def openNext (state : Workspace × List Failure) (file : String) : Workspace × List Failure :=
  match state.1.openFile (Spelling.parse file).path none with
  | (w, .ok _) => (w, state.2)
  | (w, .error e) => (w, state.2 ++ [e])

/-- Opens files, one after the other, and lets all work be done that this leaves. -/
def openAll (w : Workspace) (files : List String) : Workspace × List Failure :=
  let (w, failures) := files.foldl openNext (w, [])
  (w.flush, failures)

def failureLine (e : Failure) : String :=
  s!"Error: {e.message}"

/-- Opens files and tells about the projects that they belong to. -/
def inspect (fs : FileSystem) (workingDirectory : Path) (options : Options) (files : List String) :
    Report :=
  match openWorkspace fs workingDirectory options with
  | .error e => { code := 1, errors := [failureLine e] }
  | .ok w =>
    let (w, failures) := openAll w files
    { code := if failures = [] then 0 else 1
      output := w.projects.values.flatMap projectLines
      errors := failures.map failureLine }

/-- Does what the arguments ask for. -/
def respond (fs : FileSystem) (workingDirectory : Path) (args : List String) : Report :=
  match readArguments args with
  | .error e => { code := 2, errors := [s!"error: {e.message}"] }
  | .ok .version => { output := [version] }
  | .ok (.help topic) => { output := helpLines topic }
  | .ok (.inspect options files) => inspect fs workingDirectory options files

end ProjectTracker.CommandLine
