import ProjectTracker.LineTree.Node
import ProjectTracker.Text.Position
/-!
The line tree: a text stored as a balanced tree of its lines. It answers questions by offset and by
line number, and an edit replaces only the lines that it touches.

Offsets count characters. Positions and ranges that lie outside the text are clamped to it.
-/

namespace ProjectTracker

structure LineTree where
  root : LineTree.Node
  /-- The most children that a branch may have. -/
  capacity : Nat

namespace LineTree

/-- The number of children per branch where nothing else is asked for. -/
def defaultCapacity : Nat := 4

/-- A branch needs room for two children. -/
def fitCapacity (capacity : Nat) : Nat :=
  max capacity 2

/-- The tree of an empty text. -/
def empty (capacity : Nat) : LineTree :=
  ⟨.ofChildren [], fitCapacity capacity⟩

/-- The tree whose leaves are the given lines, without the empty ones. -/
def ofLines (lines : List Text) (capacity : Nat) : LineTree :=
  let leaves := (lines.filter (!·.isEmpty)).map Node.ofLine
  ⟨.rootOf (fitCapacity capacity) leaves, fitCapacity capacity⟩

/-- The tree of a text. -/
def ofText (text : Text) (capacity : Nat) : LineTree :=
  ofLines text.splitLines capacity

/-- The number of characters. -/
def length (t : LineTree) : Nat :=
  t.root.chars

def isEmpty (t : LineTree) : Bool :=
  t.length = 0

/-- The number of lines. A final line feed starts no further line. -/
def lineCount (t : LineTree) : Nat :=
  t.root.lines

def depth (t : LineTree) : Nat :=
  t.root.depth

def lines (t : LineTree) : List Text :=
  t.root.toList

def text (t : LineTree) : Text :=
  t.lines.flatten

/-- A summary that shows the sizes and not the text. -/
def summary (t : LineTree) : String :=
  "LineIndex \x7b chars: " ++ toString t.length ++ ", lines: " ++ toString t.lineCount ++
    ", capacity: " ++ toString t.capacity ++ " \x7d"

/-- The offsets at which the given lines start if they follow `offset` characters. -/
def startsFrom (offset : Nat) : List Text → List Nat
  | [] => []
  | line :: lines => offset :: startsFrom (offset + line.length) lines

/-- The offset at which each line starts. -/
def lineStarts (t : LineTree) : List Nat :=
  startsFrom 0 t.lines

/-- The part of the text that starts at `start` and has `count` characters, clamped to the text. -/
def getText (t : LineTree) (start count : Nat) : Text :=
  if count = 0 ∨ t.length ≤ start then []
  else t.root.range start (min (start + count) t.length)

/-- The offset and the text of a line. Past the last line this is the end of the text and nothing. -/
def lineInfo (t : LineTree) (line : Nat) : Nat × Text :=
  if line < t.lineCount then
    match t.root.atLine? line with
    | some found => (found.start, found.text)
    | none => (t.length, [])
  else (t.length, [])

def lineText? (t : LineTree) (line : Nat) : Option Text :=
  if line < t.lineCount then some (t.lineInfo line).2 else none

/-- The line that holds the character at `offset`. -/
def lineAt? (t : LineTree) (offset : Nat) : Option Node.Found :=
  if offset < t.length then t.root.atOffset? offset else none

/-- The last line. -/
def lastLine? (t : LineTree) : Option Node.Found :=
  t.root.lastLine?.map fun text => ⟨t.lineCount - 1, t.length - text.length, text⟩

/-- The line that an edit at `offset` falls into; at the end of the text, the last line. -/
def editedLine? (t : LineTree) (offset : Nat) : Option Node.Found :=
  (t.lineAt? offset).or t.lastLine?

/-- The position of an offset. The end of a text that ends with a line feed is column 0 of the line
after it. -/
def position (t : LineTree) (offset : Nat) : Position :=
  let offset := min offset t.length
  match t.lineAt? offset with
  | some found => ⟨found.line, offset - found.start⟩
  | none =>
    match t.lastLine? with
    | none => ⟨0, 0⟩
    | some found =>
      if found.text.isTerminated then ⟨found.line + 1, 0⟩ else ⟨found.line, offset - found.start⟩

/-- The offset of a position. A column past the end of its line is the place before the line feed. -/
def offset (t : LineTree) (p : Position) : Nat :=
  let (start, line) := t.lineInfo p.line
  start + min p.character line.content.length

/-- Replaces `deleted` characters at `start` by `inserted`. The lines that the edit touches are
replaced as a whole: what stands before the edit in the first, the insertion, and what stands after
the edit in the last. -/
def edit (t : LineTree) (start deleted : Nat) (inserted : Text) : LineTree :=
  let start := min start t.length
  let deleted := min deleted (t.length - start)
  if deleted = 0 ∧ inserted = [] then t
  else
    match t.editedLine? start, t.editedLine? (start + deleted) with
    | some first, some last =>
      let before := first.text.take (start - first.start)
      let after := last.text.drop (start + deleted - last.start)
      let leaves := (Text.splitLines (before ++ inserted ++ after)).map Node.ofLine
      let nodes := t.root.splice t.capacity ⟨first.line, last.line, leaves⟩ 0
      { t with root := .rootOf t.capacity nodes }
    | _, _ => ofText inserted t.capacity

end LineTree

end ProjectTracker
