import ProjectTracker.Document.Basic
import ProjectTracker.Toml.Value
/-!
Projects: files that belong together because some roots lead to them. A project is inferred, for one open
file that no other project holds, or configured by a manifest.
-/

namespace ProjectTracker

inductive ProjectKind where
  | inferred
  | configured (manifest : Path)
  deriving DecidableEq, Repr

structure Project where
  id : ProjectId
  kind : ProjectKind
  roots : List Path
  /-- The files that the roots lead to, as of the last refresh. -/
  files : List Path := []
  /-- Whether the files may have changed since the last refresh. -/
  isStale : Bool := true
  /-- The number of open documents that belong to the project. -/
  openCount : Nat := 0
  settings : List (String × Toml.Value) := []
  /-- The watches of the manifest and of what lies around it. -/
  watches : List WatchId := []
  /-- The directories in which the project waits for a manifest. -/
  lookouts : List Path := []

namespace Project

def manifest? (p : Project) : Option Path :=
  match p.kind with
  | .inferred => none
  | .configured manifest => some manifest

def isConfigured (p : Project) : Bool :=
  p.manifest?.isSome

def isRoot (p : Project) (file : Path) : Bool :=
  file ∈ p.roots

/-- Whether a file is a root or was reached at the last refresh. -/
def contains (p : Project) (file : Path) : Bool :=
  file ∈ p.files || p.isRoot file

def markStale (p : Project) : Project :=
  { p with isStale := true }

def addRoot (p : Project) (file : Path) : Project :=
  if p.isRoot file then p else { p with roots := p.roots ++ [file], isStale := true }

def removeRoot (p : Project) (file : Path) : Project :=
  if p.isRoot file then { p with roots := p.roots.filter (· ≠ file), isStale := true } else p

/-- Takes the files that the roots lead to now. -/
def refresh (p : Project) (files : List Path) : Project :=
  { p with files, isStale := false }

/-- Counts one more open document. -/
def addOpen (p : Project) : Project :=
  { p with openCount := p.openCount + 1 }

/-- Counts one open document less. -/
def removeOpen (p : Project) : Project :=
  { p with openCount := p.openCount - 1 }

end Project

end ProjectTracker
