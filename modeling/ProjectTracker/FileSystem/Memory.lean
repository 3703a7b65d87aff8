import ProjectTracker.Table
import ProjectTracker.Path.Spelling
import ProjectTracker.Text.Basic
/-!
A file system held in memory: a table from paths to texts. Directories have no entries of their own; a
path is a directory if some file lies below it.
-/

namespace ProjectTracker

/-- Why a file or a directory could not be read. -/
inductive FileError where
  | notFound
  | permissionDenied
  | isADirectory
  | notADirectory
  | invalidData
  | nameTooLong
  | nameWithNul
  deriving DecidableEq, Repr

/-- The words for a failed reading of a path. -/
def FileError.message (path : Spelling) : FileError → String
  | notFound => path.text ++ " does not exist"
  | permissionDenied => "permission denied"
  | isADirectory => "is a directory"
  | notADirectory => "not a directory"
  | invalidData => "stream did not contain valid UTF-8"
  | nameTooLong => "file name too long"
  | nameWithNul => "file name contained an unexpected NUL byte"

/-- The files held in memory. -/
abbrev MemoryFiles := Table Path Text

namespace MemoryFiles

def isFile (files : MemoryFiles) (p : Path) : Bool :=
  files.contains p

def isDirectory (files : MemoryFiles) (p : Path) : Bool :=
  files.keys.any fun q => q.startsWith p && q ≠ p

def read (files : MemoryFiles) (p : Path) : Except FileError Text :=
  match files.get? p with
  | some text => .ok text
  | none => .error .notFound

/-- The component of `q` just below `p`. -/
def childOf (p q : Path) : Option Component :=
  if q.startsWith p then (q.components.drop p.components.length).head? else none

/-- Puts a component in its place among others, once. -/
def insertComponent (c : Component) : List Component → List Component
  | [] => [c]
  | d :: rest =>
    if c = d then d :: rest
    else if c < d then c :: d :: rest
    else d :: insertComponent c rest

/-- The components just below a path, in order. -/
def children (files : MemoryFiles) (p : Path) : List Component :=
  (files.keys.filterMap (childOf p)).foldr insertComponent []

/-- What lies immediately in a directory, in order. -/
def readDirectory (files : MemoryFiles) (dir : Spelling) : Except FileError (List Spelling) :=
  match files.children dir.path with
  | [] => .error .notFound
  | names => .ok (names.map fun name => dir.join name.render)

end MemoryFiles

end ProjectTracker
