import ProjectTracker.Path.Basic
/-!
The lists of the open documents. Adding puts a path at the end of a list, and taking it out takes its first
occurrence.
-/

namespace ProjectTracker

/-- The open documents, in the order in which they came to their lists. -/
structure OpenFiles where
  /-- the roots of inferred projects -/
  roots : List Path := []
  /-- documents that a project reaches from its roots -/
  referenced : List Path := []
  /-- the roots of configured projects -/
  configuredRoots : List Path := []
  deriving DecidableEq, Repr

namespace OpenFiles

def all (o : OpenFiles) : List Path :=
  o.roots ++ o.referenced ++ o.configuredRoots

def addRoot (o : OpenFiles) (p : Path) : OpenFiles :=
  { o with roots := o.roots ++ [p] }

def addReferenced (o : OpenFiles) (p : Path) : OpenFiles :=
  { o with referenced := o.referenced ++ [p] }

def addConfiguredRoot (o : OpenFiles) (p : Path) : OpenFiles :=
  { o with configuredRoots := o.configuredRoots ++ [p] }

/-- Takes a path out of the roots, once. -/
def removeRoot (o : OpenFiles) (p : Path) : OpenFiles :=
  { o with roots := o.roots.erase p }

def removeReferenced (o : OpenFiles) (p : Path) : OpenFiles :=
  { o with referenced := o.referenced.erase p }

def removeConfiguredRoot (o : OpenFiles) (p : Path) : OpenFiles :=
  { o with configuredRoots := o.configuredRoots.erase p }

/-- Takes a path out of each list, once. -/
def remove (o : OpenFiles) (p : Path) : OpenFiles :=
  ((o.removeRoot p).removeReferenced p).removeConfiguredRoot p

/-- Takes a path out of the first list that has it. -/
def removeFirst (o : OpenFiles) (p : Path) : OpenFiles :=
  if p ∈ o.roots then o.removeRoot p
  else if p ∈ o.configuredRoots then o.removeConfiguredRoot p
  else o.removeReferenced p

end OpenFiles

end ProjectTracker
