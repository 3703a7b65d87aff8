import ProjectTracker.Pattern.Basic
/-!
The written form of patterns. A character stands for itself unless it is one of `\ ^ $ . | ( ) [ ] * + ?`
or a brace; `\s`, `\w` and `\d` are classes, in capitals their complements; `(…)` is a group that is
counted, `(?:…)` one that is not, and `(?m)` lets `^` and `$` stand for the ends of lines.

A text that is not a pattern has no reading.
-/

namespace ProjectTracker.Pattern

/-- A group under way: its finished alternatives, the items of the one under way (both with the last one
first), its number if it is counted, and whether `^` and `$` are about lines. -/
structure Level where
  branches : List Pattern := []
  items : List Pattern := []
  index? : Option Nat := none
  multiline : Bool := false

namespace Level

def add (l : Level) (p : Pattern) : Level :=
  { l with items := p :: l.items }

/-- The sequence of the items under way. -/
def sequence (l : Level) : Pattern :=
  match l.items with
  | [] => .empty
  | last :: earlier => earlier.foldl (fun p item => .seq item p) last

/-- Starts another alternative. -/
def split (l : Level) : Level :=
  { l with branches := l.sequence :: l.branches, items := [] }

def close (l : Level) : Pattern :=
  let body := l.branches.foldl (fun p branch => .alt branch p) l.sequence
  match l.index? with
  | some index => .group index body
  | none => body

/-- Puts a repetition on the last item, if there is one. -/
def repeatLast (l : Level) (f : Pattern → Pattern) : Option Level :=
  match l.items with
  | [] => none
  | last :: earlier => some { l with items := f last :: earlier }

end Level

/-- What a letter after a backslash stands for. -/
def escaped (c : Char) : Option SetItem :=
  match c with
  | 's' => some (.kind .blank false)
  | 'S' => some (.kind .blank true)
  | 'w' => some (.kind .word false)
  | 'W' => some (.kind .word true)
  | 'd' => some (.kind .decimal false)
  | 'D' => some (.kind .decimal true)
  | 'n' => some (.range '\n' '\n')
  | 't' => some (.range '\t' '\t')
  | 'r' => some (.range '\r' '\r')
  | _ =>
    if c.isAlphanum ∨ c = '<' ∨ c = '>' ∨ 128 ≤ c.toNat then none else some (.range c c)

/-- The items of a set up to its closing bracket, and what follows it. -/
def setItems : List Char → Option (List SetItem × List Char)
  | [] => none
  | ']' :: rest => some ([], rest)
  | '[' :: _ => none
  | '\\' :: c :: rest => do
    let item ← escaped c
    let (items, rest) ← setItems rest
    pure (item :: items, rest)
  | c :: '-' :: ']' :: rest => some ([.range c c, .range '-' '-'], rest)
  | c :: '-' :: d :: rest =>
    if d = '\\' ∨ d = '[' ∨ d < c then none
    else do
      let (items, rest) ← setItems rest
      pure (.range c d :: items, rest)
  | c :: rest => do
    let (items, rest) ← setItems rest
    pure (.range c c :: items, rest)

/-- The set after its opening bracket, and what follows it. A closing bracket at the start is an item. -/
def parseSet (text : List Char) : Option (CharSet × List Char) := do
  let (negated, text) := match text with
    | '^' :: rest => (true, rest)
    | _ => (false, text)
  let (items, rest) ← match text with
    | ']' :: rest => do
      let (items, rest) ← setItems rest
      pure (SetItem.range ']' ']' :: items, rest)
    | _ => setItems text
  pure (⟨items, negated⟩, rest)

def plus (greedy : Bool) (p : Pattern) : Pattern :=
  .seq p (.star greedy p)

def optional (greedy : Bool) (p : Pattern) : Pattern :=
  if greedy then .alt p .empty else .alt .empty p

/-- Reads a text below the groups under way, the innermost first, where `next` is the number of the next
group that is counted. Every step takes a character. -/
def parseFrom : Nat → Level → List Level → Nat → List Char → Option Pattern
  | 0, _, _, _, _ => none
  | fuel + 1, level, outer, next, text =>
    match text with
    | [] => if outer.isEmpty then some level.close else none
    | '(' :: '?' :: ':' :: rest =>
      parseFrom fuel { multiline := level.multiline } (level :: outer) next rest
    | '(' :: '?' :: 'm' :: ')' :: rest =>
      parseFrom fuel { level with multiline := true } outer next rest
    | '(' :: '?' :: _ => none
    | '(' :: rest =>
      parseFrom fuel { index? := some next, multiline := level.multiline } (level :: outer) (next + 1)
        rest
    | ')' :: rest =>
      match outer with
      | [] => none
      | above :: outer => parseFrom fuel (above.add level.close) outer next rest
    | '|' :: rest => parseFrom fuel level.split outer next rest
    | '*' :: '?' :: rest => do parseFrom fuel (← level.repeatLast (.star false)) outer next rest
    | '*' :: rest => do parseFrom fuel (← level.repeatLast (.star true)) outer next rest
    | '+' :: '?' :: rest => do parseFrom fuel (← level.repeatLast (plus false)) outer next rest
    | '+' :: rest => do parseFrom fuel (← level.repeatLast (plus true)) outer next rest
    | '?' :: '?' :: rest => do parseFrom fuel (← level.repeatLast (optional false)) outer next rest
    | '?' :: rest => do parseFrom fuel (← level.repeatLast (optional true)) outer next rest
    | '[' :: rest => do
      let (chars, rest) ← parseSet rest
      parseFrom fuel (level.add (.set chars)) outer next rest
    | '\\' :: c :: rest => do
      let item ← escaped c
      parseFrom fuel (level.add (.set ⟨[item], false⟩)) outer next rest
    | '\\' :: [] => none
    | '{' :: _ => none
    | '.' :: rest => parseFrom fuel (level.add (.set ⟨[.range '\n' '\n'], true⟩)) outer next rest
    | '^' :: rest => parseFrom fuel (level.add (.start level.multiline)) outer next rest
    | '$' :: rest => parseFrom fuel (level.add (.stop level.multiline)) outer next rest
    | c :: rest => parseFrom fuel (level.add (.set ⟨[.range c c], false⟩)) outer next rest

/-- The pattern that a text is the written form of. -/
def parse? (text : String) : Option Pattern :=
  parseFrom (text.toList.length + 1) {} [] 1 text.toList

end ProjectTracker.Pattern
