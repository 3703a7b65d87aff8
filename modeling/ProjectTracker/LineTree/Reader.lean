import ProjectTracker.LineTree.Basic
/-!
Reading the lines of a tree one at a time. A reader holds no more than the way down to the next line.
-/

namespace ProjectTracker.LineTree

/-- The runs of nodes that are still to be read, the innermost first. -/
abbrev Reader := List (List Node)

namespace Reader

/-- The next line, and the reader that goes on after it. -/
def next? : Reader → Option (Text × Reader)
  | [] => none
  | [] :: runs => next? runs
  | (.leaf text _ :: nodes) :: runs => some (text, nodes :: runs)
  | (.branch children _ _ :: nodes) :: runs => next? (children :: nodes :: runs)
termination_by reader => sizeOf reader

/-- What is still to be read gets smaller. -/
theorem sizeOf_lt_of_next? {reader rest : Reader} {text : Text}
    (h : next? reader = some (text, rest)) : sizeOf rest < sizeOf reader := by
  fun_induction next? reader with
  | case1 => simp at h
  | case2 runs ih =>
    have := ih h
    simp only [List.cons.sizeOf_spec]
    omega
  | case3 =>
    cases h
    simp only [List.cons.sizeOf_spec]
    omega
  | case4 children chars lines nodes runs ih =>
    have := ih h
    simp only [List.cons.sizeOf_spec, Node.branch.sizeOf_spec] at this ⊢
    omega

/-- The lines that are still to be read, read to the end. -/
def drain (reader : Reader) : List Text :=
  match _h : reader.next? with
  | none => []
  | some (text, rest) => text :: drain rest
termination_by sizeOf reader
decreasing_by exact sizeOf_lt_of_next? _h

end Reader

/-- A reader at the first line of a tree. -/
def reader (t : LineTree) : Reader :=
  [t.root.children]

end ProjectTracker.LineTree
