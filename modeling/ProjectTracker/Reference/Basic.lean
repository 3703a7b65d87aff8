import ProjectTracker.Path.Normalizer
import ProjectTracker.Path.Spelling
import ProjectTracker.Pattern.Basic
/-!
References between files, and the set of files that some roots lead to.
-/

namespace ProjectTracker

/-- The texts that can be read. -/
structure Sources where
  /-- The paths with a text, and perhaps others. -/
  paths : List Path
  text? : Path → Option Text

/-- Finds references: the first group of the pattern takes the path of the file that is referred to. -/
structure Scanner where
  pattern : Pattern
  normalizer : Normalizer

namespace Scanner

/-- The files that a text refers to, in order of appearance. A path in it is seen from the directory of
the file. -/
def references (s : Scanner) (path : Path) (text : Text) : List Path :=
  let dir := path.parent?.getD Path.root
  (s.pattern.groupMatches 1 text).map fun target =>
    s.normalizer.resolveIn dir (Spelling.parse (String.ofList target)).path

/-- Lists those of the waiting files that can be read and are not listed yet, and collects what they refer
to. -/
def visit (s : Scanner) (sources : Sources) :
    List Path → List Path → List Path → List Path × List Path
  | [], listed, found => (listed, found)
  | p :: waiting, listed, found =>
    if p ∈ listed then s.visit sources waiting listed found
    else
      match sources.text? p with
      | none => s.visit sources waiting listed found
      | some text => s.visit sources waiting (listed ++ [p]) (found ++ s.references p text)

/-- Visits the waiting files, then what they refer to, and so on. A round that finds more files has listed
one, so there are at most as many rounds as files that can be read, and one. -/
def rounds (s : Scanner) (sources : Sources) : Nat → List Path → List Path → List Path
  | 0, _, listed => listed
  | n + 1, waiting, listed =>
    let (listed, found) := s.visit sources waiting listed []
    if found = [] then listed else s.rounds sources n found listed

/-- The files that can be read and that the roots lead to, in order of first discovery: the roots, then
what each listed file refers to. -/
def fileSet (s : Scanner) (sources : Sources) (roots : List Path) : List Path :=
  s.rounds sources (sources.paths.length + 1) roots []

/-- The same with roots as they are written: a listed file keeps the spelling under which a root first
named it. -/
def spelledFileSet (s : Scanner) (sources : Sources) (roots : List Spelling) : List Spelling :=
  (s.fileSet sources (roots.map (·.path))).map fun p =>
    (roots.find? (·.path = p)).getD (.ofPath p)

end Scanner

end ProjectTracker
