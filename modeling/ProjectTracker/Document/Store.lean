import ProjectTracker.Document.Basic
/-!
The tracked documents, by path. An entry keeps the spelling under which its path came in first.
-/

namespace ProjectTracker

structure Store where
  documents : Table Path Document := ∅
  /-- The first spelling of each path. -/
  spellings : Table Path Spelling := ∅

namespace Store

def get? (s : Store) (p : Path) : Option Document :=
  s.documents.get? p

def contains (s : Store) (p : Path) : Bool :=
  s.documents.contains p

/-- Puts a document at its path, in place of any that was there. -/
def insert (s : Store) (d : Document) : Store :=
  { documents := s.documents.insert d.path.path d
    spellings :=
      if s.spellings.contains d.path.path then s.spellings
      else s.spellings.insert d.path.path d.path }

def remove (s : Store) (p : Path) : Store :=
  { documents := s.documents.erase p, spellings := s.spellings.erase p }

def modify (s : Store) (p : Path) (f : Document → Document) : Store :=
  { s with documents := s.documents.modify p f }

/-- The tracked paths, in order. -/
def paths (s : Store) : List Path :=
  s.documents.keys

/-- The spellings of the tracked paths, in order. -/
def spelledPaths (s : Store) : List Spelling :=
  s.spellings.values

/-- The paths of the open documents, in order. -/
def openPaths (s : Store) : List Path :=
  (s.documents.entries.filter (·.2.isOpen)).map (·.1)

end Store

end ProjectTracker
