import ProjectTracker.Path.Basic
import ProjectTracker.Text.Lowercase
/-!
Normal paths. Every path that a user, a manifest or a file writes is taken from a base directory,
cleaned, and written in small letters where case does not matter. Two ways to write one file then give
equal paths.
-/

namespace ProjectTracker

structure Normalizer where
  base : Path
  caseSensitive : Bool

namespace Normalizer

/-- A component in small letters. -/
def lowerComponent : Component → Component
  | .name text => .name (String.ofList (Text.toLower text.toList))
  | c => c

/-- The normal form of a path. -/
def normalize (n : Normalizer) (p : Path) : Path :=
  let cleaned := (n.base.join p).clean
  if n.caseSensitive then cleaned else ⟨cleaned.components.map lowerComponent⟩

/-- The normal form of a path that is written in a file of the directory `dir`. -/
def resolveIn (n : Normalizer) (dir p : Path) : Path :=
  n.normalize (dir.join p)

end Normalizer

end ProjectTracker
