import ProjectTracker.Document.History
import ProjectTracker.Pattern.Parser
import ProjectTracker.Toml.Document
/-!
The settings of a workspace, read from a TOML document in which every key may be missing. Values that a
workspace cannot use are replaced by the default ones.
-/

namespace ProjectTracker

/-- How long work waits for more of its kind, in milliseconds. -/
structure Timing where
  /-- from the last edit of a document until its edits become a version -/
  editCoalesce : Nat := 250
  /-- from the last change of a text until files are given to projects anew -/
  structureUpdate : Nat := 1500
  /-- from the last change of a directory until the manifests above it are read again -/
  fileListUpdate : Nat := 250
  deriving DecidableEq, Repr

structure Settings where
  /-- The names that a manifest may have, the preferred one first. -/
  manifestNames : List String := ["project.toml"]
  caseSensitivePaths : Bool := true
  nodeCapacity : Nat := LineTree.defaultCapacity
  history : HistoryLimits := {}
  timing : Timing := {}
  /-- The pattern whose first group takes the path of a referenced file. -/
  referencePattern : String := "(?m)^\\s*(?:import|include|reference)\\s+\"([^\"]+)\""
  deriving DecidableEq, Repr

namespace Settings

open Toml

/-- The value of a key, or the default where the key is missing. -/
def getD {α : Type} (entries : List (String × Value)) (key : String) (default : α)
    (read? : Value → Option α) : Option α :=
  match Value.lookup key entries with
  | none => some default
  | some v => read? v

/-- The entries of a group of settings with the given keys. A group may also be an array of values for the
keys in order, where what is left over does not count, and a date or a time is a group without values. -/
def groupOf? (keys : List String) : Value → Option (List (String × Value))
  | .table entries => do
    guard (Value.othersReadable keys entries)
    pure entries
  | .array items => some (keys.zip items)
  | .datetime _ => some []
  | _ => none

def historyOf? (v : Value) : Option HistoryLimits := do
  let entries ← groupOf? ["change_count_threshold", "change_length_threshold", "max_versions"] v
  pure {
    changeCount := ← getD entries "change_count_threshold" 8 Value.unsigned?
    changeLength := ← getD entries "change_length_threshold" 256 Value.unsigned?
    versions := ← getD entries "max_versions" 8 Value.unsigned? }

def timingOf? (v : Value) : Option Timing := do
  let entries ← groupOf? ["edit_coalesce_ms", "structure_update_ms", "file_list_update_ms"] v
  pure {
    editCoalesce := ← getD entries "edit_coalesce_ms" 250 Value.unsigned?
    structureUpdate := ← getD entries "structure_update_ms" 1500 Value.unsigned?
    fileListUpdate := ← getD entries "file_list_update_ms" 250 Value.unsigned? }

def nodeCapacityOf? (v : Value) : Option Nat := do
  getD (← groupOf? ["node_capacity"] v) "node_capacity" LineTree.defaultCapacity Value.unsigned?

def patternOf? (v : Value) : Option String := do
  let entries ← groupOf? ["reference_pattern"] v
  let text ← getD entries "reference_pattern" none fun v => v.string?.map some
  pure ((text.map String.ofList).getD ({} : Settings).referencePattern)

def namesOf? (v : Value) : Option (List String) := do
  pure ((← v.strings?).map String.ofList)

/-- The keys of a document of settings. -/
def knownKeys : List String :=
  ["manifest_names", "case_sensitive_paths", "line_index", "version_cache", "timing", "analysis"]

/-- The settings in the entries of a document. A key that means nothing here may hold any value that can be
read. -/
def ofEntries? (entries : List (String × Value)) : Option Settings := do
  guard (Value.othersReadable knownKeys entries)
  pure {
    manifestNames := ← getD entries "manifest_names" ["project.toml"] namesOf?
    caseSensitivePaths := ← getD entries "case_sensitive_paths" true Value.boolean?
    nodeCapacity := ← getD entries "line_index" LineTree.defaultCapacity nodeCapacityOf?
    history := ← getD entries "version_cache" {} historyOf?
    timing := ← getD entries "timing" {} timingOf?
    referencePattern :=
      ← getD entries "analysis" ({} : Settings).referencePattern patternOf? }

/-- The settings that a text is the written form of. -/
def parse? (text : Text) : Option Settings := do
  ofEntries? (← Toml.parse? text)

/-- A value that cannot be used and is replaced by the default one. -/
inductive Fix where
  | noManifestNames
  | smallCapacity (capacity : Nat)
  | noVersions
  | badPattern
  deriving DecidableEq, Repr

def Fix.message : Fix → String
  | noManifestNames => "manifest_names is empty; using project.toml"
  | smallCapacity capacity => s!"line_index.node_capacity {capacity} is below 2; using 4"
  | noVersions => "version_cache.max_versions must be at least 1; using 8"
  | badPattern => "analysis.reference_pattern is not a valid regex"

/-- Whether a name is nothing but white space. -/
def isBlankName (name : String) : Bool :=
  name.toList.all CharClass.isBlank

/-- The values that cannot be used. -/
def fixes (s : Settings) : List Fix :=
  (if s.manifestNames.all isBlankName then [.noManifestNames] else []) ++
  (if s.nodeCapacity < 2 then [.smallCapacity s.nodeCapacity] else []) ++
  (if s.history.versions = 0 then [.noVersions] else []) ++
  (if (Pattern.parse? s.referencePattern).isNone then [.badPattern] else [])

/-- Puts the default in the place of one value. -/
def applyFix (s : Settings) : Fix → Settings
  | .noManifestNames => { s with manifestNames := ({} : Settings).manifestNames }
  | .smallCapacity _ => { s with nodeCapacity := ({} : Settings).nodeCapacity }
  | .noVersions =>
    { s with history := { s.history with versions := ({} : HistoryLimits).versions } }
  | .badPattern => { s with referencePattern := ({} : Settings).referencePattern }

/-- The settings with all values fit for use. -/
def sanitize (s : Settings) : Settings :=
  s.fixes.foldl applyFix s

end Settings

end ProjectTracker
