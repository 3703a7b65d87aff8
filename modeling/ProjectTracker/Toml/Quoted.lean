import ProjectTracker.Text.Basic
/-!
Blanks, comments and quoted strings of TOML. Each reader takes a form from the start of a text and leaves
what follows it. A reader that takes an unknown number of characters is given a `size`, a number greater than
the length of the text, which bounds its rounds.
-/

namespace ProjectTracker.Toml

/-- A line feed at the start of a text, with a carriage return before it or not, and what follows it. -/
def lineBreak? : Text → Option (Text × Text)
  | '\n' :: rest => some (['\n'], rest)
  | '\r' :: '\n' :: rest => some (['\r', '\n'], rest)
  | _ => none

/-- The rest of a text after a line feed at its start. -/
def newline? (text : Text) : Option Text :=
  (lineBreak? text).map (·.2)

/-- Skips spaces and tabs. -/
def skipBlanks (text : Text) : Text :=
  text.dropWhile fun c => c = ' ' || c = '\t'

/-- Whether a character may stand for itself in a comment or a string. -/
def isPlain (c : Char) : Bool :=
  c = '\t' || (0x20 ≤ c.toNat && c.toNat ≠ 0x7f)

/-- Skips a comment, if there is one. What is left starts with the end of the line. -/
def skipComment : Text → Text
  | '#' :: rest => rest.dropWhile isPlain
  | text => text

/-- Whether a text starts with the end of a line, or is empty. -/
def atLineEnd (text : Text) : Bool :=
  text.isEmpty || (newline? text).isSome

/-- The rest of a text after blanks, comments and line feeds. It may start inside a comment. -/
def skipFrom : Bool → Text → Text
  | _, [] => []
  | _, '\n' :: rest => skipFrom false rest
  | _, '\r' :: '\n' :: rest => skipFrom false rest
  | true, c :: rest => if isPlain c then skipFrom true rest else c :: rest
  | false, c :: rest =>
    if c = ' ' ∨ c = '\t' then skipFrom false rest
    else if c = '#' then skipFrom true rest
    else c :: rest

/-- The rest of a text after blanks, comments and line feeds. -/
def skipSpace (text : Text) : Text :=
  skipFrom false text

def hexDigit? (c : Char) : Option Nat :=
  if '0' ≤ c ∧ c ≤ '9' then some (c.toNat - '0'.toNat)
  else if 'a' ≤ c ∧ c ≤ 'f' then some (c.toNat - 'a'.toNat + 10)
  else if 'A' ≤ c ∧ c ≤ 'F' then some (c.toNat - 'A'.toNat + 10)
  else none

/-- A number of exactly `count` hexadecimal digits. -/
def hexDigits? (count : Nat) (text : Text) : Option Nat :=
  let digits := text.take count
  if digits.length = count then
    digits.foldlM (fun n c => (hexDigit? c).map (16 * n + ·)) 0
  else none

/-- The character with the given number, unless it is a surrogate or too large. -/
def charOf? (n : Nat) : Option Char :=
  if n < 0xd800 ∨ (0xdfff < n ∧ n < 0x110000) then some (Char.ofNat n) else none

/-- The character that an escape stands for, after its backslash, and the number of characters that the
escape takes. -/
def escape? (text : Text) : Option (Char × Nat) :=
  match text with
  | 'b' :: _ => some ('\x08', 1)
  | 't' :: _ => some ('\t', 1)
  | 'n' :: _ => some ('\n', 1)
  | 'f' :: _ => some ('\x0c', 1)
  | 'r' :: _ => some ('\r', 1)
  | 'e' :: _ => some ('\x1b', 1)
  | '"' :: _ => some ('"', 1)
  | '\\' :: _ => some ('\\', 1)
  | 'x' :: rest => do pure (← charOf? (← hexDigits? 2 rest), 3)
  | 'u' :: rest => do pure (← charOf? (← hexDigits? 4 rest), 5)
  | 'U' :: rest => do pure (← charOf? (← hexDigits? 8 rest), 9)
  | _ => none

/-- The rest of a string on one line, after its opening quote. -/
def basicString : Nat → Text → Option (Text × Text)
  | 0, _ => none
  | size + 1, text =>
    match text with
    | [] => none
    | '"' :: rest => some ([], rest)
    | '\\' :: rest => do
      let (c, taken) ← escape? rest
      let (more, rest) ← basicString size (rest.drop taken)
      pure (c :: more, rest)
    | c :: rest => do
      guard (isPlain c)
      let (more, rest) ← basicString size rest
      pure (c :: more, rest)

/-- The rest of a literal string on one line, after its opening apostrophe. -/
def literalString : Text → Option (Text × Text)
  | [] => none
  | '\'' :: rest => some ([], rest)
  | c :: rest => do
    guard (isPlain c)
    let (more, rest) ← literalString rest
    pure (c :: more, rest)

/-- The quotes at the start of a text that closes a string of several lines with three of them: up to two
more belong to the string. -/
def closing? (quote : Char) (text : Text) : Option (Text × Text) :=
  let count := (text.takeWhile (· = quote)).length
  if 3 ≤ count then
    let own := min (count - 3) 2
    some (List.replicate own quote, text.drop (own + 3))
  else none

/-- The rest of a text after blanks and line feeds. -/
def skipBlankLines : Text → Text
  | ' ' :: rest => skipBlankLines rest
  | '\t' :: rest => skipBlankLines rest
  | '\n' :: rest => skipBlankLines rest
  | '\r' :: '\n' :: rest => skipBlankLines rest
  | text => text

/-- The rest of a text after a backslash at the end of a line: it swallows the blanks and line feeds up to
the next character. -/
def continuation? (text : Text) : Option Text := do
  pure (skipBlankLines (← newline? (skipBlanks text)))

/-- The rest of a string of several lines, after its opening quotes. It keeps its line feeds as they are
written. -/
def basicLines : Nat → Text → Option (Text × Text)
  | 0, _ => none
  | size + 1, text =>
    match closing? '"' text with
    | some out => some out
    | none =>
      match lineBreak? text with
      | some (lineBreak, rest) => do
        let (more, rest) ← basicLines size rest
        pure (lineBreak ++ more, rest)
      | none =>
        match text with
        | [] => none
        | '\\' :: rest =>
          match continuation? rest with
          | some rest => basicLines size rest
          | none => do
            let (c, taken) ← escape? rest
            let (more, rest) ← basicLines size (rest.drop taken)
            pure (c :: more, rest)
        | c :: rest => do
          guard (isPlain c)
          let (more, rest) ← basicLines size rest
          pure (c :: more, rest)

/-- The rest of a literal string of several lines, after its opening apostrophes. -/
def literalLines : Nat → Text → Option (Text × Text)
  | 0, _ => none
  | size + 1, text =>
    match closing? '\'' text with
    | some out => some out
    | none =>
      match lineBreak? text with
      | some (lineBreak, rest) => do
        let (more, rest) ← literalLines size rest
        pure (lineBreak ++ more, rest)
      | none =>
        match text with
        | [] => none
        | c :: rest => do
          guard (isPlain c)
          let (more, rest) ← literalLines size rest
          pure (c :: more, rest)

/-- A string on one line. -/
def lineString? (size : Nat) (text : Text) : Option (Text × Text) :=
  match text with
  | '"' :: rest => basicString size rest
  | '\'' :: rest => literalString rest
  | _ => none

/-- A string of any form. A line feed just after the opening quotes of several lines does not count. -/
def string? (size : Nat) (text : Text) : Option (Text × Text) :=
  match text with
  | '"' :: '"' :: '"' :: rest => basicLines size ((newline? rest).getD rest)
  | '\'' :: '\'' :: '\'' :: rest => literalLines size ((newline? rest).getD rest)
  | _ => lineString? size text

end ProjectTracker.Toml
