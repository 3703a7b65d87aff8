import ProjectTracker.Text.Basic
/-!
Nodes of a line tree. A leaf holds one line; a branch caches how many characters and lines its
children hold together, so that a search by offset or by line skips whole subtrees.
-/

namespace ProjectTracker.LineTree

inductive Node where
  | leaf (text : Text) (chars : Nat)
  | branch (children : List Node) (chars lines : Nat)

namespace Node

/-- The cached number of characters. -/
def chars : Node → Nat
  | leaf _ chars => chars
  | branch _ chars _ => chars

/-- The cached number of lines. -/
def lines : Node → Nat
  | leaf _ _ => 1
  | branch _ _ lines => lines

def children : Node → List Node
  | leaf _ _ => []
  | branch children _ _ => children

def ofLine (text : Text) : Node :=
  leaf text text.length

/-- The sum of a count over nodes. -/
def total (count : Node → Nat) (nodes : List Node) : Nat :=
  nodes.foldr (fun node sum => count node + sum) 0

def ofChildren (children : List Node) : Node :=
  branch children (total chars children) (total lines children)

mutual

/-- The lines below a node, in order. -/
def toList : Node → List Text
  | leaf text _ => [text]
  | branch children _ _ => toListAll children

/-- The lines below a run of nodes, in order. -/
def toListAll : List Node → List Text
  | [] => []
  | node :: nodes => node.toList ++ toListAll nodes

end

/-- The number of branches on the way to the first leaf. -/
def depth : Node → Nat
  | leaf _ _ => 0
  | branch [] _ _ => 0
  | branch (first :: _) _ _ => first.depth + 1

mutual

/-- The text of the last leaf. -/
def lastLine? : Node → Option Text
  | leaf text _ => some text
  | branch children _ _ => lastLineAll? children

/-- The text of the last leaf below the last of a run of nodes. -/
def lastLineAll? : List Node → Option Text
  | [] => none
  | [node] => node.lastLine?
  | _ :: node :: nodes => lastLineAll? (node :: nodes)

end

/-- A line found in a tree: its number, the offset where it starts, and its text. -/
structure Found where
  line : Nat
  start : Nat
  text : Text

/-- A line found below a node, seen from a tree in which `lines` lines with `chars` characters come
before that node. -/
def Found.shift (found : Found) (lines chars : Nat) : Found :=
  { found with line := found.line + lines, start := found.start + chars }

mutual

/-- The line that holds the character at `offset`. -/
def atOffset? : Node → Nat → Option Found
  | leaf text _, _ => some ⟨0, 0, text⟩
  | branch children _ _, offset => atOffsetAll? children offset

/-- The line that holds the character at `offset`, counted from the first of a run of nodes. -/
def atOffsetAll? : List Node → Nat → Option Found
  | [], _ => none
  | node :: nodes, offset =>
    if offset < node.chars then node.atOffset? offset
    else (atOffsetAll? nodes (offset - node.chars)).map (·.shift node.lines node.chars)

end

mutual

/-- The line with the given number. -/
def atLine? : Node → Nat → Option Found
  | leaf text _, _ => some ⟨0, 0, text⟩
  | branch children _ _, line => atLineAll? children line

/-- The line with the given number, counted from the first of a run of nodes. -/
def atLineAll? : List Node → Nat → Option Found
  | [], _ => none
  | node :: nodes, line =>
    if line < node.lines then node.atLine? line
    else (atLineAll? nodes (line - node.lines)).map (·.shift node.lines node.chars)

end

mutual

/-- The characters from `start` to before `stop`. -/
def range : Node → Nat → Nat → Text
  | leaf text chars, start, stop => (text.take (min stop chars)).drop start
  | branch children _ _, start, stop => rangeAll children start stop

/-- The characters from `start` to before `stop`, counted from the first of a run of nodes. Only the
children that overlap the range are entered. -/
def rangeAll : List Node → Nat → Nat → Text
  | [], _, _ => []
  | node :: nodes, start, stop =>
    if stop = 0 then []
    else
      (if start < node.chars then node.range start stop else []) ++
        rangeAll nodes (start - node.chars) (stop - node.chars)

end

/-- Cuts a list into pieces of `size` entries, of which only the last may be shorter. The piece under
way holds `piece`, reversed, and takes `room` more entries. -/
def chunksFrom {α : Type} (size : Nat) : Nat → List α → List α → List (List α)
  | _, [], [] => []
  | _, x :: piece, [] => [(x :: piece).reverse]
  | room, piece, y :: ys =>
    if room ≤ 1 then (y :: piece).reverse :: chunksFrom size size [] ys
    else chunksFrom size (room - 1) (y :: piece) ys

/-- Puts a run of nodes below branches of at most `capacity` children each. -/
def group (capacity : Nat) (nodes : List Node) : List Node :=
  (chunksFrom capacity capacity [] nodes).map ofChildren

/-- Adds levels above a run of nodes until it fits below one branch. Each level is shorter than the one
below it, so `fuel` at least the number of nodes never runs out. -/
def raise (capacity : Nat) : Nat → List Node → List Node
  | 0, nodes => nodes
  | fuel + 1, nodes =>
    if nodes.length ≤ capacity then nodes else raise capacity fuel (group capacity nodes)

/-- Drops a root that only holds one other branch. -/
def collapse : Node → Node
  | branch [branch children chars lines] _ _ => collapse (branch children chars lines)
  | node => node

/-- The root above a run of nodes of one depth. -/
def rootOf (capacity : Nat) (nodes : List Node) : Node :=
  (ofChildren (raise capacity nodes.length nodes)).collapse

/-- The lines that an edit replaces, and the leaves that take their place. -/
structure Replacement where
  first : Nat
  last : Nat
  leaves : List Node

/-- How a node lies to the replaced lines. -/
inductive Overlap where
  /-- wholly before or after them -/
  | apart
  /-- wholly among those after the first -/
  | within
  /-- holding the first of them or reaching past the last -/
  | across
  deriving DecidableEq

/-- How a node with `count` lines that starts at line `line` lies to the replaced lines. -/
def Replacement.overlap (r : Replacement) (line count : Nat) : Overlap :=
  if line + count - 1 < r.first ∨ r.last < line then .apart
  else if r.first < line ∧ line + count - 1 ≤ r.last then .within
  else .across

mutual

/-- The nodes that stand for a node starting at line `line` after the replacement: none where it was
emptied, several where it overflowed. The new leaves stand in the place of the first replaced line. -/
def splice (capacity : Nat) (r : Replacement) (line : Nat) : Node → List Node
  | leaf text chars =>
    match r.overlap line 1 with
    | .apart => [leaf text chars]
    | .within => []
    | .across => if line = r.first then r.leaves else []
  | branch children chars lines =>
    match r.overlap line lines with
    | .apart => [branch children chars lines]
    | .within => []
    | .across => group capacity (spliceAll capacity r line children)

/-- The nodes that stand for a run of nodes starting at line `line` after the replacement. -/
def spliceAll (capacity : Nat) (r : Replacement) (line : Nat) : List Node → List Node
  | [] => []
  | node :: nodes => node.splice capacity r line ++ spliceAll capacity r (line + node.lines) nodes

end

end Node

end ProjectTracker.LineTree
