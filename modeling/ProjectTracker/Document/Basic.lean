import ProjectTracker.Document.History
import ProjectTracker.Watch
/-!
Tracked files: the history of a text, whether an editor has it open, and what the workspace knows about
it.
-/

namespace ProjectTracker

abbrev ProjectId := Nat

/-- The written form of a project id. -/
def ProjectId.render (id : ProjectId) : String :=
  s!"project#{id}"

structure Document where
  path : Spelling
  history : History
  isOpen : Bool := false
  /-- The fingerprint of the text as it was loaded, until it is edited. -/
  fingerprint? : Option UInt64
  watch? : Option WatchId := none
  /-- The project that the document belongs to. -/
  owner? : Option ProjectId := none

namespace Document

def create (path : Spelling) (text : Text) (limits : HistoryLimits) (capacity : Nat) : Document :=
  { path
    history := History.ofText text limits capacity
    fingerprint? := some text.fingerprint }

def version (d : Document) : Nat :=
  d.history.version

/-- The text with the edits that wait. -/
def text (d : Document) : Text :=
  d.history.text

/-- Makes the edits that wait a new version. -/
def fold (d : Document) : Document :=
  { d with history := d.history.fold }

def snapshot (d : Document) : Snapshot :=
  d.history.fold.latest

def edit (d : Document) (c : Change) : Except Failure Document :=
  match d.history.edit c with
  | .ok history => .ok { d with history, fingerprint? := none }
  | .error failure => .error failure

/-- Puts another text in the place of this one. -/
def reload (d : Document) (text : Text) : Document :=
  { d with history := d.history.reload text, fingerprint? := some text.fingerprint }

/-- A document whose fingerprint is known. To find it the edits that wait become a version. -/
def fingerprinted (d : Document) : Document × UInt64 :=
  match d.fingerprint? with
  | some fingerprint => (d, fingerprint)
  | none =>
    let fingerprint := Text.fingerprint d.text
    ({ d.fold with fingerprint? := some fingerprint }, fingerprint)

/-- Puts another text in the place of this one if their fingerprints differ, and says whether. -/
def reloadIfChanged (d : Document) (text : Text) : Document × Bool :=
  let (d, fingerprint) := d.fingerprinted
  if fingerprint = text.fingerprint then (d, false) else (d.reload text, true)

end Document

end ProjectTracker
