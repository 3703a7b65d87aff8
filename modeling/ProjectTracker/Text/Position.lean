/-!
Places in a text by line and column, both counted from zero.
-/

namespace ProjectTracker

/-- A line and a column in it. -/
structure Position where
  line : Nat
  character : Nat
  deriving DecidableEq, Repr, Inhabited

namespace Position

/-- The written form, line first. -/
def render (p : Position) : String :=
  s!"{p.line}:{p.character}"

/-- Positions compare by line and then by column. -/
def isBefore (p q : Position) : Bool :=
  p.line < q.line || (p.line = q.line && p.character < q.character)

end Position

end ProjectTracker
