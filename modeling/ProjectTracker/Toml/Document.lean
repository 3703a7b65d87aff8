import ProjectTracker.Toml.Scalar
/-!
TOML documents. The lines of a document fill a tree of tables, which remembers how each table came about,
because that decides whether a later line may add to it: a table under its own header is complete when the
next header comes, one that only lies on the way to others may still get a header, and one made by a dotted
key grows only by dotted keys.
-/

namespace ProjectTracker.Toml

/-- How a table came about. -/
inductive Origin where
  /-- under a header of its own -/
  | header
  /-- on the way to a table under a header -/
  | passed
  /-- by a dotted key -/
  | dotted
  deriving DecidableEq, Repr

/-- What a key of an unfinished document holds. -/
inductive Node where
  | value (value : Value)
  | table (origin : Origin) (entries : List (String × Node))
  /-- the tables under headers in double brackets, the last one first -/
  | tables (elements : List (List (String × Node)))

/-- The entries of a table of an unfinished document. -/
abbrev Entries := List (String × Node)

namespace Entries

def get? (key : String) : Entries → Option Node
  | [] => none
  | (k, node) :: rest => if k = key then some node else get? key rest

/-- Puts a node at a key, in the order of the keys. -/
def put (key : String) (node : Node) : Entries → Entries
  | [] => [(key, node)]
  | (k, n) :: rest =>
    if k = key then (key, node) :: rest
    else if key < k then (key, node) :: (k, n) :: rest
    else (k, n) :: put key node rest

/-- Changes the table that a path leads to, with what it came from. A missing table on the way is made with
origin `origin`, and of several under one header the last is taken. A dotted path passes only through tables
without a header. -/
def update (origin : Origin) (change : Origin → Entries → Option Entries) :
    List String → Origin → Entries → Option Entries
  | [], own, entries => change own entries
  | key :: path, _, entries =>
    match get? key entries with
    | none => do
      let inner ← update origin change path origin []
      pure (put key (.table origin inner) entries)
    | some (.value _) => none
    | some (.table own inner) => do
      guard ¬(origin = .dotted ∧ own = .header)
      let inner ← update origin change path own inner
      pure (put key (.table own inner) entries)
    | some (.tables []) => none
    | some (.tables (last :: earlier)) => do
      let last ← update origin change path .header last
      pure (put key (.tables (last :: earlier)) entries)

/-- Gives a new key a value. A key without dots does not add to a table made by dotted keys, and one with
dots adds to no other. -/
def assign (path : List String) (key : String) (value : Value) (own : Origin) (entries : Entries) :
    Option Entries :=
  update .dotted (fun reached entries => do
    guard ((reached = .dotted) = (path ≠ []))
    guard (get? key entries).isNone
    pure (put key (.value value) entries)) path own entries

/-- Starts a table under a header. -/
def openTable (path : List String) (key : String) (root : Entries) : Option Entries :=
  update .passed (fun _ entries =>
    match get? key entries with
    | none => some (put key (.table .header []) entries)
    | some (.table .passed inner) => some (put key (.table .header inner) entries)
    | some _ => none) path .header root

/-- Starts one more table under a header in double brackets. -/
def openElement (path : List String) (key : String) (root : Entries) : Option Entries :=
  update .passed (fun _ entries =>
    match get? key entries with
    | none => some (put key (.tables [[]]) entries)
    | some (.tables elements) => some (put key (.tables ([] :: elements)) entries)
    | some _ => none) path .header root

end Entries

mutual

def Node.toValue : Node → Value
  | .value v => v
  | .table _ entries => .table (entriesToValues entries)
  | .tables elements => .array (elementsToValues elements [])

def entriesToValues : List (String × Node) → List (String × Value)
  | [] => []
  | (key, node) :: rest => (key, node.toValue) :: entriesToValues rest

/-- The values of tables with the last one first, in front of `after`. -/
def elementsToValues : List (List (String × Node)) → List Value → List Value
  | [], after => after
  | entries :: earlier, after => elementsToValues earlier (.table (entriesToValues entries) :: after)

end

def isBareKeyChar (c : Char) : Bool :=
  c.isAlphanum || c = '_' || c = '-'

/-- One key, quoted or bare. -/
def key? (size : Nat) (text : Text) : Option (String × Text) :=
  match text with
  | '"' :: _ => do
    let (key, rest) ← lineString? size text
    pure (String.ofList key, rest)
  | '\'' :: _ => do
    let (key, rest) ← lineString? size text
    pure (String.ofList key, rest)
  | _ =>
    let key := text.takeWhile isBareKeyChar
    if key = [] then none else some (String.ofList key, text.dropWhile isBareKeyChar)

/-- The greatest number of keys with dots between them, and of arrays and inline tables in each other. -/
def maxDepth : Nat := 80

/-- At most so many keys with dots between them, the last one apart from those on the way to it. -/
def dottedKeys? (size : Nat) : Nat → Text → Option ((List String × String) × Text)
  | 0, _ => none
  | most + 1, text => do
    let (key, rest) ← key? size text
    match skipBlanks rest with
    | '.' :: rest => do
      let ((path, last), rest) ← dottedKeys? size most (skipBlanks rest)
      pure ((key :: path, last), rest)
    | rest => pure (([], key), rest)

/-- Keys with dots between them. -/
def dottedKey? (size : Nat) : Text → Option ((List String × String) × Text) :=
  dottedKeys? size maxDepth

/-- The items of an array after its opening bracket. -/
def items? (value? : Text → Option (Value × Text)) : Nat → Text → Option ((List Value) × Text)
  | 0, _ => none
  | size + 1, text =>
    match skipSpace text with
    | ']' :: rest => some ([], rest)
    | text => do
      let (item, rest) ← value? text
      match skipSpace rest with
      | ']' :: rest => pure ([item], rest)
      | ',' :: rest => do
        let (more, rest) ← items? value? size rest
        pure (item :: more, rest)
      | _ => none

/-- The entries of an inline table after its opening brace, added to those before them. -/
def inlineEntries? (value? : Text → Option (Value × Text)) : Nat → Entries → Text → Option (Entries × Text)
  | 0, _, _ => none
  | size + 1, entries, text =>
    match skipSpace text with
    | '}' :: rest => some (entries, rest)
    | text => do
      let ((path, key), rest) ← dottedKey? (size + 1) text
      let rest ← after? '=' (skipSpace rest)
      let (value, rest) ← value? (skipSpace rest)
      let entries ← entries.assign path key value .header
      match skipSpace rest with
      | '}' :: rest => pure (entries, rest)
      | ',' :: rest => inlineEntries? value? size entries rest
      | _ => none

/-- A value, with arrays and inline tables at most so many deep. -/
def value? (size : Nat) : Nat → Text → Option (Value × Text)
  | _, '"' :: rest => do
    let (text, rest) ← string? size ('"' :: rest)
    pure (.string text, rest)
  | _, '\'' :: rest => do
    let (text, rest) ← string? size ('\'' :: rest)
    pure (.string text, rest)
  | 0, '[' :: _ => none
  | 0, '{' :: _ => none
  | depth + 1, '[' :: rest => do
    let (items, rest) ← items? (value? size depth) size rest
    pure (.array items, rest)
  | depth + 1, '{' :: rest => do
    let (entries, rest) ← inlineEntries? (value? size depth) size [] rest
    pure (.table (entriesToValues entries), rest)
  | _, text => scalar? text

/-- The tables read so far, and the path of the header that the next lines are under. -/
structure Draft where
  root : Entries := []
  header : List String := []

/-- Adds a line with a key and a value. -/
def Draft.assign (d : Draft) (path : List String) (key : String) (value : Value) : Option Draft := do
  let root ← Entries.update .passed (fun own entries => entries.assign path key value own)
    d.header .header d.root
  pure { d with root }

/-- Reads one line that is neither empty nor a comment. -/
def line? (size : Nat) (d : Draft) (text : Text) : Option (Draft × Text) :=
  match text with
  | '[' :: '[' :: rest => do
    let rest := skipBlanks rest
    let ((path, key), rest) ← dottedKey? size rest
    let rest ← after? ']' (← after? ']' rest)
    pure ({ root := ← d.root.openElement path key, header := path ++ [key] }, rest)
  | '[' :: rest => do
    let rest := skipBlanks rest
    let ((path, key), rest) ← dottedKey? size rest
    let rest ← after? ']' rest
    pure ({ root := ← d.root.openTable path key, header := path ++ [key] }, rest)
  | _ => do
    let ((path, key), rest) ← dottedKey? size text
    let rest ← after? '=' rest
    let (value, rest) ← value? size maxDepth (skipBlanks rest)
    pure (← d.assign path key value, rest)

/-- Reads the lines of a document. Each takes a character, so that the size stays greater than the length of
what is left. -/
def lines? : Nat → Draft → Text → Option Draft
  | 0, _, _ => none
  | size + 1, d, text =>
    match skipSpace text with
    | [] => some d
    | text => do
      let (d, rest) ← line? (size + 1) d text
      let rest := skipComment (skipBlanks rest)
      guard (atLineEnd rest)
      lines? size d rest

/-- The entries of the document that a text is the written form of. A byte order mark may stand in
front. -/
def parse? (text : Text) : Option (List (String × Value)) := do
  let body := match text with
    | '\uFEFF' :: rest => rest
    | _ => text
  let d ← lines? (body.length + 1) {} body
  pure (entriesToValues d.root)

end ProjectTracker.Toml
