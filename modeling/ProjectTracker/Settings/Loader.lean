import ProjectTracker.FileSystem.Basic
import ProjectTracker.Settings.Basic
/-!
Settings from a file. Loading never fails: a file that is missing or cannot be used leaves the default
settings, and what happened is told as notes.
-/

namespace ProjectTracker.Settings

/-- The name of the settings file. -/
def fileName : String := "project-service.toml"

/-- What happened while settings were loaded. -/
inductive Note where
  | missing (path : Spelling)
  | found (path : Spelling)
  | loaded (path : Spelling)
  | malformed (path : Spelling)
  | unreadable (path : Spelling)
  | fixed (fix : Fix)
  deriving DecidableEq, Repr

namespace Note

def isWarning : Note → Bool
  | malformed _ => true
  | unreadable _ => true
  | fixed _ => true
  | _ => false

def message : Note → String
  | missing path => s!"No config file at {path.text}; using defaults"
  | found path => s!"Found config file: {path.text}"
  | loaded path => s!"Successfully loaded {path.text}"
  | malformed path => s!"Failed to parse {path.text}"
  | unreadable path => s!"Failed to read {path.text}"
  | fixed fix => fix.message

end Note

/-- The settings in a file, and how reading it went. -/
def readFile (fs : FileSystem) (path : Spelling) : Option Settings × List Note :=
  if fs.exists? path then
    match fs.read path with
    | .error _ => (none, [.found path, .unreadable path])
    | .ok text =>
      match parse? text with
      | none => (none, [.found path, .malformed path])
      | some s => (some s, [.found path, .loaded path])
  else (none, [.missing path])

/-- The settings in a file, fit for use. -/
def load (fs : FileSystem) (path : Spelling) : Settings × List Note :=
  let (settings?, notes) := readFile fs path
  let settings := settings?.getD {}
  (settings.sanitize, notes ++ settings.fixes.map .fixed)

end ProjectTracker.Settings
