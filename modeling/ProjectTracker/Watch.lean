import ProjectTracker.Table
import ProjectTracker.Path.Spelling
/-!
Watches: what a file system is asked to report changes of. The table only records the requests; ids are
given out in increasing order and never again.
-/

namespace ProjectTracker

abbrev WatchId := Nat

/-- The files that a watch asks about. -/
inductive WatchTarget where
  | file (path : Spelling)
  /-- what lies immediately in a directory, or with `recursive` anywhere below it -/
  | directory (path : Spelling) (recursive : Bool)
  deriving DecidableEq, Repr

namespace WatchTarget

def path : WatchTarget → Spelling
  | file path => path
  | directory path _ => path

/-- Whether a change of `changed` falls under a watch. -/
def covers (target : WatchTarget) (changed : Path) : Bool :=
  match target with
  | file path => path.path = changed
  | directory path true => changed.startsWith path.path && changed ≠ path.path
  | directory path false => changed.parent? = some path.path

end WatchTarget

/-- The written form of a watch id. -/
def WatchId.render (id : WatchId) : String :=
  s!"watch#{id}"

structure WatchTable where
  /-- The last id given out. -/
  lastId : Nat := 0
  targets : Table WatchId WatchTarget := ∅
  /-- How often a watch was to be released that was not live. -/
  misreleases : Nat := 0
  deriving DecidableEq

namespace WatchTable

def add (t : WatchTable) (target : WatchTarget) : WatchTable × WatchId :=
  ({ t with lastId := t.lastId + 1, targets := t.targets.insert (t.lastId + 1) target }, t.lastId + 1)

def release (t : WatchTable) (id : WatchId) : WatchTable :=
  { t with
    targets := t.targets.erase id
    misreleases := if t.targets.contains id then t.misreleases else t.misreleases + 1 }

def get? (t : WatchTable) (id : WatchId) : Option WatchTarget :=
  t.targets.get? id

/-- The live watches that cover a change, by id. -/
def matching (t : WatchTable) (changed : Path) : List WatchId :=
  (t.targets.entries.filter fun entry => entry.2.covers changed).map (·.1)

end WatchTable

end ProjectTracker
