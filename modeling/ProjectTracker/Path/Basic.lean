/-!
Paths as lists of components. Two paths are equal when their components are, whatever they were
written like; `..` stays a component of its own until a path is cleaned.

`Path.clean` folds `..` and drops `.`, and `Spelling` keeps a path together with the text that it was
written as, where an answer has to show that text.
-/

namespace ProjectTracker

/-- One step of a path. -/
inductive Component where
  /-- the leading `/` of an absolute path -/
  | root
  /-- a leading `.` -/
  | here
  /-- `..` -/
  | parent
  | name (text : String)
  deriving DecidableEq, Repr

namespace Component

def render : Component → String
  | root => "/"
  | here => "."
  | parent => ".."
  | name text => text

def rank : Component → Nat
  | root => 0
  | here => 1
  | parent => 2
  | name _ => 3

/-- Components compare by kind, and names by their characters. -/
def isBefore : Component → Component → Bool
  | name s, name t => s < t
  | a, b => a.rank < b.rank

instance : LT Component := ⟨fun a b => a.isBefore b⟩

instance : DecidableLT Component := fun a b => inferInstanceAs (Decidable (a.isBefore b = true))

end Component

/-- A path, as the list of its components. -/
structure Path where
  components : List Component
  deriving DecidableEq, Repr, Inhabited

namespace Path

/-- Paths compare by their first different component, and a path comes before those below it. -/
def listIsBefore : List Component → List Component → Bool
  | [], [] => false
  | [], _ :: _ => true
  | _ :: _, [] => false
  | a :: as, b :: bs => if a = b then listIsBefore as bs else a < b

def isBefore (p q : Path) : Bool :=
  listIsBefore p.components q.components

instance : LT Path := ⟨fun p q => p.isBefore q⟩

instance : DecidableLT Path := fun p q => inferInstanceAs (Decidable (p.isBefore q = true))

/-- The path `/`. -/
def root : Path := ⟨[.root]⟩

def isAbsolute (p : Path) : Bool :=
  p.components.head? = some .root

/-- The written form: `/` between components, and none after the last. -/
def render (p : Path) : String :=
  match p.components with
  | .root :: rest => "/" ++ "/".intercalate (rest.map Component.render)
  | components => "/".intercalate (components.map Component.render)

/-- The path `q` as seen from `p`: `q` itself if it is absolute. -/
def join (p q : Path) : Path :=
  if q.isAbsolute then q
  else if p.components = [] then q
  else ⟨p.components ++ q.components.filter (· ≠ .here)⟩

/-- The path without its last component. A root and the empty path have none. -/
def parent? (p : Path) : Option Path :=
  match p.components.getLast? with
  | none => none
  | some .root => none
  | some _ => some ⟨p.components.dropLast⟩

/-- The last component, if it is a name. -/
def fileName? (p : Path) : Option String :=
  match p.components.getLast? with
  | some (.name text) => some text
  | _ => none

/-- Whether `p` is `q` or lies below it. -/
def startsWith (p q : Path) : Bool :=
  q.components.isPrefixOf p.components

/-- The paths above `p`, nearest first, without the empty one. -/
def ancestors (p : Path) : List Path :=
  (List.range (p.components.length - 1)).reverse.map fun n => ⟨p.components.take (n + 1)⟩

/-- The part of a file name after its last dot. A name has none if it has no dot, or no other dot than
at its start. -/
def extensionOf (name : List Char) : Option (List Char) :=
  let after := (name.reverse.takeWhile (· ≠ '.')).reverse
  let before := (name.reverse.dropWhile (· ≠ '.')).tail
  if '.' ∈ name ∧ before ≠ [] then some after else none

def extension? (p : Path) : Option String :=
  p.fileName?.bind fun name => (extensionOf name.toList).map String.ofList

/-- One step of cleaning: the components so far, the last one first, and the next one. At a root the path
starts anew. -/
def cleanStep (done : List Component) : Component → List Component
  | .root => [.root]
  | .here => done
  | .parent =>
    match done with
    | .root :: _ => done
    | .name _ :: rest => rest
    | _ => .parent :: done
  | c => c :: done

/-- The shortest path with the same meaning by the names alone: without `.`, with `..` folded into the
name before it, and with nothing above the root. Where nothing is left it is `.`. -/
def clean (p : Path) : Path :=
  match p.components.foldl cleanStep [] with
  | [] => ⟨[.here]⟩
  | done => ⟨done.reverse⟩

end Path

end ProjectTracker
