import ProjectTracker.Path.Basic
/-!
Paths as they are written. Different texts can be one path: `/w//a`, `/w/./a` and `/w/a/` all are
`/w/a`. Where an answer shows the text, it travels along with the path.
-/

namespace ProjectTracker

/-- A path together with the text that it was written as. -/
structure Spelling where
  text : String
  path : Path
  deriving DecidableEq, Repr, Inhabited

namespace Spelling

/-- The pieces of a text between slashes. -/
def pieces : List Char → List (List Char)
  | [] => [[]]
  | c :: rest =>
    if c = '/' then [] :: pieces rest
    else
      match pieces rest with
      | [] => [[c]]
      | piece :: more => (c :: piece) :: more

/-- The component that a piece stands for, if any. A `.` counts only at the start of a relative
path. -/
def componentOf (atStart : Bool) (piece : List Char) : Option Component :=
  if piece = [] then none
  else if piece = ['.'] then (if atStart then some .here else none)
  else if piece = ['.', '.'] then some .parent
  else some (.name (String.ofList piece))

/-- The components of a run of pieces, each with the length of the text up to its end. The first piece
starts after `start` characters. -/
def located (atStart : Bool) (start : Nat) : List (List Char) → List (Component × Nat)
  | [] => []
  | piece :: more =>
    let stop := start + piece.length
    let rest := located false (stop + 1) more
    match componentOf atStart piece with
    | none => rest
    | some c => (c, stop) :: rest

/-- The components of a text, each with the length of the text up to its end. -/
def scan : List Char → List (Component × Nat)
  | '/' :: rest => (.root, 1) :: located false 1 (pieces rest)
  | text => located true 0 (pieces text)

def parse (text : String) : Spelling :=
  ⟨text, ⟨(scan text.toList).map (·.1)⟩⟩

/-- The plain spelling of a path. -/
def ofPath (p : Path) : Spelling :=
  ⟨p.render, p⟩

/-- Writes `name` after a path: with a slash between them unless there is one already, or alone if it is
absolute. -/
def join (s : Spelling) (name : String) : Spelling :=
  let added := parse name
  if added.path.isAbsolute then added
  else
    let slash := if s.text = "" ∨ s.text.endsWith "/" then "" else "/"
    ⟨s.text ++ slash ++ name, s.path.join added.path⟩

/-- The beginnings of a text that end with a component, the longest first. -/
def beginnings (text : String) : List Spelling :=
  let found := scan text.toList
  let ends := found.map (·.2)
  ends.reverse.map fun stop => parse (String.ofList (text.toList.take stop))

/-- The paths above a path, as they stand at the start of its text, nearest first. -/
def ancestors (s : Spelling) : List Spelling :=
  (beginnings s.text).drop 1

/-- The path without its last component, as it stands at the start of the text. -/
def parent? (s : Spelling) : Option Spelling :=
  s.path.parent?.map fun p =>
    match s.ancestors with
    | [] => ⟨"", p⟩
    | above :: _ => above

end Spelling

end ProjectTracker
