import ProjectTracker.FileSystem.Memory
import ProjectTracker.Text.Position
/-!
What a request can fail with, and the words for it.
-/

namespace ProjectTracker

inductive Failure where
  /-- no document is tracked under a path -/
  | documentNotFound (path : Path)
  /-- only open documents are edited -/
  | documentNotOpen (path : Path)
  /-- an edit reaches past the end of a text with `length` characters -/
  | editOutOfRange (start deleted length : Nat)
  /-- an edit ends before it starts -/
  | editReversed (start stop : Nat)
  /-- a range of positions ends before it starts -/
  | rangeReversed (start stop : Position)
  /-- the settings cannot be used -/
  | badSettings
  | file (error : FileError)
  deriving DecidableEq, Repr

namespace Failure

def message : Failure → String
  | documentNotFound path => s!"Document not found: {path.render}"
  | documentNotOpen path => s!"Document is not open for editing: {path.render}"
  | editOutOfRange start deleted length =>
    s!"Edit out of range: {start}+{deleted} exceeds document length {length}"
  | editReversed start stop => s!"Invalid range: edit end {stop} precedes start {start}"
  | rangeReversed start stop => s!"Invalid range: {start.render}-{stop.render}"
  | badSettings => "Invalid configuration"
  | file _ => "IO error"

end Failure

end ProjectTracker
