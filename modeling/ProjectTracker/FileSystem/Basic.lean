import ProjectTracker.FileSystem.Disk
import ProjectTracker.Watch
/-!
The file system as the library sees it: files that are held in memory or on a disk, paths whose reading
is denied, and the watches that were asked for.
-/

namespace ProjectTracker

/-- Where the files are. -/
inductive Storage where
  | memory (files : MemoryFiles)
  | disk (disk : Disk)

structure FileSystem where
  storage : Storage
  /-- Files that exist but must not be read. -/
  denied : List Path := []
  watches : WatchTable := {}

namespace FileSystem

/-- A file system in memory, of the given files. -/
def ofFiles (files : List (Path × Text)) : FileSystem :=
  { storage := .memory (Table.ofList files) }

def read (fs : FileSystem) (s : Spelling) : Except FileError Text :=
  if s.path ∈ fs.denied then .error .permissionDenied
  else
    match fs.storage with
    | .memory files => files.read s.path
    | .disk disk => disk.read s

/-- The text of a file that can be read. -/
def text? (fs : FileSystem) (p : Path) : Option Text :=
  (fs.read (.ofPath p)).toOption

def isFile (fs : FileSystem) (s : Spelling) : Bool :=
  match fs.storage with
  | .memory files => files.isFile s.path
  | .disk disk => disk.isFile s

def isDirectory (fs : FileSystem) (s : Spelling) : Bool :=
  match fs.storage with
  | .memory files => files.isDirectory s.path
  | .disk disk => disk.isDirectory s

def readDirectory (fs : FileSystem) (dir : Spelling) : Except FileError (List Spelling) :=
  match fs.storage with
  | .memory files => files.readDirectory dir
  | .disk disk => disk.readDirectory dir

/-- No fewer than there are directories. In memory each is counted once for every file below it, and on a disk the
root is no entry. -/
def maxDirectories (fs : FileSystem) : Nat :=
  match fs.storage with
  | .memory files => (files.keys.flatMap (·.components)).length + 1
  | .disk disk => disk.entries.size + 1

/-- The clean paths that a file can be read by. -/
def filePaths (fs : FileSystem) : List Path :=
  match fs.storage with
  | .memory files => files.keys
  | .disk disk => disk.filePaths

def exists? (fs : FileSystem) (s : Spelling) : Bool :=
  fs.isFile s || fs.isDirectory s

/-- Puts a text at a path. -/
def write (fs : FileSystem) (s : Spelling) (text : Text) : FileSystem :=
  match fs.storage with
  | .memory files => { fs with storage := .memory (files.insert s.path text) }
  | .disk disk => { fs with storage := .disk (disk.write s (some text)) }

def remove (fs : FileSystem) (s : Spelling) : FileSystem :=
  match fs.storage with
  | .memory files => { fs with storage := .memory (files.erase s.path) }
  | .disk disk => { fs with storage := .disk (disk.remove s) }

def deny (fs : FileSystem) (p : Path) : FileSystem :=
  { fs with denied := p :: fs.denied }

def allowAll (fs : FileSystem) : FileSystem :=
  { fs with denied := [] }

def watch (fs : FileSystem) (target : WatchTarget) : FileSystem × WatchId :=
  let (watches, id) := fs.watches.add target
  ({ fs with watches }, id)

def releaseWatch (fs : FileSystem) (id : WatchId) : FileSystem :=
  { fs with watches := fs.watches.release id }

end FileSystem

end ProjectTracker
