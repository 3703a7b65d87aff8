import ProjectTracker.FileSystem.Basic
import ProjectTracker.Path.Normalizer
import ProjectTracker.Toml.Document
import ProjectTracker.Toml.Resolved
/-!
Manifests: TOML documents that list the files of a project, by name (`files`) or by directory (`include`,
filtered by `extensions`), and carry settings for it. A manifest that lists no existing file defines no
project. What is wrong with a manifest is told as diagnostics.
-/

namespace ProjectTracker

namespace Manifest

/-- What a diagnostic is about. -/
inductive Problem where
  | unreadable (error : FileError)
  | malformed
  | unknownKey (key : String)
  | invalid
  | missingFile (path : Path)
  | missingDirectory (path : Path)
  | noFiles
  deriving DecidableEq, Repr

namespace Problem

/-- Whether a problem keeps a manifest from defining a project. -/
def isError : Problem → Bool
  | unknownKey _ => false
  | missingFile _ => false
  | missingDirectory _ => false
  | _ => true

def message (manifest : Spelling) : Problem → String
  | unreadable error => "Failed to read manifest: " ++ error.message manifest
  | malformed => "Failed to parse manifest"
  | unknownKey key => "Unknown manifest key " ++ "`" ++ key ++ "`"
  | invalid => "Invalid manifest"
  | missingFile path => "Listed file does not exist: " ++ path.render
  | missingDirectory path => "Included directory does not exist: " ++ path.render
  | noFiles => "Manifest does not list any existing files"

end Problem

/-- A problem of a manifest. -/
structure Diagnostic where
  manifest : Spelling
  problem : Problem
  deriving DecidableEq, Repr

def Diagnostic.render (d : Diagnostic) : String :=
  d.manifest.text ++ (if d.problem.isError then ": error: " else ": warning: ") ++
    d.problem.message d.manifest

/-- What reading a manifest gives. -/
structure Outcome where
  roots : List Path := []
  settings : List (String × Toml.Value) := []
  problems : List Problem := []

namespace Outcome

def definesProject (o : Outcome) : Bool :=
  !o.roots.isEmpty

def hasErrors (o : Outcome) : Bool :=
  o.problems.any (·.isError)

end Outcome

/-- The contents of a manifest. -/
structure Listing where
  files : List String
  directories : List String
  extensions : List String
  settings : List (String × Toml.Value)

/-- The keys of a manifest. -/
def knownKeys : List String :=
  ["files", "include", "extensions", "settings"]

def stringsAt? (entries : List (String × Toml.Value)) (key : String) : Option (List String) :=
  match Toml.Value.lookup key entries with
  | none => some []
  | some v => v.strings?.map (·.map String.ofList)

/-- The settings that a value holds. In the place of a table, a date or a time gives its own spelling. -/
def settingsOf? : Toml.Value → Option (List (String × Toml.Value))
  | .table entries => Toml.resolvedEntries? entries
  | .datetime text => some [(Toml.datetimeKey, .string text.toList)]
  | _ => none

def Listing.ofEntries? (entries : List (String × Toml.Value)) : Option Listing := do
  guard (Toml.Value.othersReadable knownKeys entries)
  pure {
    files := ← stringsAt? entries "files"
    directories := ← stringsAt? entries "include"
    extensions := ← stringsAt? entries "extensions"
    settings := ← match Toml.Value.lookup "settings" entries with
      | none => some []
      | some v => settingsOf? v }

/-- The entries of a manifest's text, all of which can be taken over. -/
def entries? (text : Text) : Option (List (String × Toml.Value)) := do
  let entries ← Toml.parse? text
  guard (Toml.resolvedEntries? entries).isSome
  pure entries

/-- Whether a file has one of the wanted extensions, which may be written with dots in front. Without any
wanted every file will do. -/
def hasExtension (extensions : List String) (p : Path) : Bool :=
  extensions.isEmpty ||
    match p.extension? with
    | none => false
    | some found => extensions.any fun wanted => wanted.toList.dropWhile (· = '.') = found.toList

/-- A walk down from a directory: the directories that are still to be listed, the next one first, and the files found
so far. -/
structure Walk where
  pending : List Spelling
  files : List Spelling := []
  deriving DecidableEq, Repr

namespace Walk

/-- Lists the next directory, unless it cannot be listed. Its files are found, and its directories are stacked on those
that are pending, the last one first. -/
def step (fs : FileSystem) (w : Walk) : Walk :=
  match w.pending with
  | [] => w
  | dir :: pending =>
    match fs.readDirectory dir with
    | .error _ => { w with pending }
    | .ok entries =>
      { pending := (entries.filter fs.isDirectory).reverse.foldl (fun stack entry => entry :: stack) pending
        files := w.files ++ entries.filter fun entry => !fs.isDirectory entry && fs.isFile entry }

/-- Lists directories until none is pending, but no more than `fuel`. -/
def run (fs : FileSystem) : Nat → Walk → Walk
  | 0, w => w
  | fuel + 1, w => if w.pending.isEmpty then w else run fs fuel (w.step fs)

end Walk

/-- The files that a walk down from a directory finds. -/
def walk (fs : FileSystem) (dir : Spelling) : List Spelling :=
  (Walk.run fs fs.maxDirectories { pending := [dir] }).files

/-- All files below a directory. A directory's own files come before those of the directories in it. -/
def walkFiles (fs : FileSystem) (dir : Path) : List Spelling :=
  walk fs (.ofPath dir)

/-- Adds a root unless it is one already. -/
def Outcome.addRoot (o : Outcome) (p : Path) : Outcome :=
  if p ∈ o.roots then o else { o with roots := o.roots ++ [p] }

def Outcome.report (o : Outcome) (problem : Problem) : Outcome :=
  { o with problems := o.problems ++ [problem] }

/-- Adds a file that is listed by name. -/
def addFile (fs : FileSystem) (n : Normalizer) (dir : Path) (o : Outcome) (file : String) : Outcome :=
  let p := n.resolveIn dir (Spelling.parse file).path
  if fs.isFile (.ofPath p) then o.addRoot p else o.report (.missingFile p)

/-- Adds the files of a directory, but not the manifest itself. -/
def addDirectory (fs : FileSystem) (n : Normalizer) (manifest : Path) (extensions : List String)
    (dir : Path) (o : Outcome) (directory : String) : Outcome :=
  let p := n.resolveIn dir (Spelling.parse directory).path
  if fs.isDirectory (.ofPath p) then
    let found := (walkFiles fs p).map fun file => n.normalize file.path
    (found.filter fun file => file ≠ n.normalize manifest && hasExtension extensions file).foldl
      Outcome.addRoot o
  else o.report (.missingDirectory p)

/-- The project that a listing in a manifest defines. -/
def Listing.outcome (l : Listing) (fs : FileSystem) (n : Normalizer) (manifest : Path) (o : Outcome) :
    Outcome :=
  let dir := manifest.parent?.getD Path.root
  let o := l.files.foldl (addFile fs n dir) o
  let o := l.directories.foldl (addDirectory fs n manifest l.extensions dir) o
  let o := if o.roots.isEmpty then o.report .noFiles else o
  { o with settings := l.settings }

/-- Reads a manifest. -/
def read (fs : FileSystem) (n : Normalizer) (manifest : Spelling) : Outcome :=
  match fs.read manifest with
  | .error error => { problems := [.unreadable error] }
  | .ok text =>
    match entries? text with
    | none => { problems := [.malformed] }
    | some entries =>
      let unknown := (entries.map (·.1)).filter fun key => key ∉ knownKeys
      let o : Outcome := { problems := unknown.map .unknownKey }
      match Listing.ofEntries? entries with
      | none => o.report .invalid
      | some listing => listing.outcome fs n manifest.path o

/-- The manifest nearest to a directory: in it or in one above it, and in each under the first of the
names. -/
def find? (fs : FileSystem) (dir : Spelling) (names : List String) : Option Spelling :=
  let dirs := (dir :: dir.ancestors).filter (·.text ≠ "")
  (dirs.flatMap fun dir => names.map dir.join).find? fs.isFile

end Manifest

end ProjectTracker
