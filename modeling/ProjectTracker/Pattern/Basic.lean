import ProjectTracker.Text.Basic
import ProjectTracker.Text.CharClass.Word
/-!
Patterns: regular expressions with groups, and where they match a text.

Of the ways to match at one place the first counts, where an earlier alternative comes before a later one
and a greedy repetition prefers to go on. Of the places the leftmost counts, and matches do not overlap.

A text is passed once, from its end. At each place every part of a pattern is told how a match goes on behind
the part, and tells how one goes on in front of it. A part that takes a character keeps what it is told for
the place before, where the character stands.
-/

namespace ProjectTracker

/-- A class of characters that has a letter of its own in a pattern. -/
inductive CharKind where
  | blank
  | word
  | decimal
  deriving DecidableEq, Repr

def CharKind.holds : CharKind → Char → Bool
  | blank, c => CharClass.isBlank c
  | word, c => CharClass.isWord c
  | decimal, c => CharClass.isDecimal c

/-- A part of a set of characters. -/
inductive SetItem where
  | range (first last : Char)
  | kind (kind : CharKind) (negated : Bool)
  deriving DecidableEq, Repr

def SetItem.holds : SetItem → Char → Bool
  | range first last, c => first ≤ c && c ≤ last
  | kind k negated, c => k.holds c != negated

structure CharSet where
  items : List SetItem
  negated : Bool := false
  deriving DecidableEq, Repr

def CharSet.holds (s : CharSet) (c : Char) : Bool :=
  s.items.any (·.holds c) != s.negated

inductive Pattern where
  | empty
  | set (chars : CharSet)
  /-- the start of the text, or with `multiline` of a line -/
  | start (multiline : Bool)
  /-- the end of the text, or with `multiline` of a line -/
  | stop (multiline : Bool)
  | seq (first second : Pattern)
  | alt (first second : Pattern)
  /-- any number of repetitions, with `greedy` as many as possible -/
  | star (greedy : Bool) (body : Pattern)
  | group (index : Nat) (body : Pattern)
  deriving DecidableEq, Repr

namespace Pattern

/-- A place in a text: the number of characters before it, the last of them, and what follows. -/
structure Place where
  index : Nat
  before? : Option Char
  rest : Text

/-- A piece of a text. -/
structure Piece where
  text : Text
  length : Nat

def Piece.toText (p : Piece) : Text :=
  p.text.take p.length

/-- How a match goes on from a place: the index of its end, what each group takes last, and the groups that
begin before the place and end behind it, with the index of their end. -/
structure Way where
  stop : Nat
  groups : List (Nat × Piece) := []
  ending : List (Nat × Nat) := []

namespace Way

def group? (w : Way) (index : Nat) : Option Piece :=
  (w.groups.find? (·.1 = index)).map (·.2)

/-- Ends a group at a place, unless the group takes something later. -/
def endGroup (w : Way) (index : Nat) (p : Place) : Way :=
  if (w.group? index).isSome then w else { w with ending := (index, p.index) :: w.ending }

/-- Begins a group at a place. -/
def beginGroup (w : Way) (index : Nat) (p : Place) : Way :=
  match w.ending.find? (·.1 = index) with
  | none => w
  | some (_, stop) =>
    { w with
      groups := (index, ⟨p.rest, stop - p.index⟩) :: w.groups
      ending := w.ending.filter (·.1 ≠ index) }

end Way

/-- What the parts of a pattern keep from a place: each set of characters has the way to go on there. -/
def Memory : Pattern → Type
  | empty => Unit
  | set _ => Option Way
  | start _ => Unit
  | stop _ => Unit
  | seq a b => a.Memory × b.Memory
  | alt a b => a.Memory × b.Memory
  | star _ a => a.Memory
  | group _ a => a.Memory

/-- What is kept behind the end of a text. -/
def noMemory : (pattern : Pattern) → pattern.Memory
  | empty => ()
  | set _ => none
  | start _ => ()
  | stop _ => ()
  | seq a b => (a.noMemory, b.noMemory)
  | alt a b => (a.noMemory, b.noMemory)
  | star _ a => a.noMemory
  | group _ a => a.noMemory

/-- The way to match a pattern at a place and to go on by `go` behind it, with what is kept there, given what
is kept from the place after it. A repetition goes on by itself, but only behind a character. -/
def step : (pattern : Pattern) → Place → Option Way → pattern.Memory → Option Way × pattern.Memory
  | empty, _, go, kept => (go, kept)
  | set s, p, go, kept => (if p.rest.head?.any s.holds then kept else none, go)
  | start multiline, p, go, kept =>
    (if p.before? = none ∨ (multiline ∧ p.before? = some '\n') then go else none, kept)
  | stop multiline, p, go, kept =>
    (if p.rest = [] ∨ (multiline ∧ p.rest.head? = some '\n') then go else none, kept)
  | seq a b, p, go, (keptA, keptB) =>
    let (way, keptB) := b.step p go keptB
    let (way, keptA) := a.step p way keptA
    (way, keptA, keptB)
  | alt a b, p, go, (keptA, keptB) =>
    let (first, keptA) := a.step p go keptA
    let (second, keptB) := b.step p go keptB
    (first.or second, keptA, keptB)
  | star greedy a, p, go, kept =>
    let further := (a.step p none kept).1
    let way := if greedy then further.or go else go.or further
    (way, (a.step p way kept).2)
  | group index a, p, go, kept =>
    let (way, kept) := a.step p (go.map (·.endGroup index p)) kept
    (way.map (·.beginGroup index p), kept)

/-- A match: the indices of its start and its end, and what each group took last. -/
structure Match where
  start : Nat
  stop : Nat
  groups : List (Nat × Piece)

namespace Match

def group? (m : Match) (index : Nat) : Option Text :=
  (m.groups.find? (·.1 = index)).map (·.2.toText)

/-- Whether a match counts after another one: it begins where that one ends or later, and there it is not
empty. -/
def follows (m last : Match) : Bool :=
  last.stop < m.start || (last.stop = m.start && m.start < m.stop)

end Match

/-- The match at a place, if there is one, in front of those at later places, with what is kept there. -/
def matchesFrom (pattern : Pattern) (p : Place) (later : List Match × pattern.Memory) :
    List Match × pattern.Memory :=
  let (way, kept) := pattern.step p (some { stop := p.index }) later.2
  let found := way.toList.map fun w => ⟨p.index, w.stop, w.groups⟩
  (found ++ later.1, kept)

/-- The matches at a place and at all before it, in front of those at later places. The characters before
the place come with the last one first. -/
def matchesUpTo (pattern : Pattern) :
    Text → Nat → Text → List Match × pattern.Memory → List Match
  | [], index, rest, later => (pattern.matchesFrom ⟨index, none, rest⟩ later).1
  | c :: before, index, rest, later =>
    pattern.matchesUpTo before (index - 1) (c :: rest)
      (pattern.matchesFrom ⟨index, some c, rest⟩ later)

/-- The matches at all places of a text. -/
def matchesIn (pattern : Pattern) (text : Text) : List Match :=
  pattern.matchesUpTo text.reverse text.length [] ([], pattern.noMemory)

/-- Of matches in the order of their places, those that count. -/
def inTurn (found : List Match) : List Match :=
  (found.foldl (fun chosen m => if chosen.head?.all m.follows then m :: chosen else chosen) []).reverse

/-- What a group took in each match of a text, without the matches that it had no part in. -/
def groupMatches (pattern : Pattern) (index : Nat) (text : Text) : List Text :=
  (inTurn (pattern.matchesIn text)).filterMap (·.group? index)

end Pattern

end ProjectTracker
