import ProjectTracker.Binary64
import ProjectTracker.Toml.Quoted
import ProjectTracker.Toml.Value
/-!
Numbers, booleans, dates and times of TOML, each as one whole word.
-/

namespace ProjectTracker.Toml

/-- Whether a character belongs to an unquoted value. -/
def isWordChar (c : Char) : Bool :=
  c.isAlphanum || c = '+' || c = '-' || c = '_' || c = '.' || c = ':'

def isDecimalDigit (c : Char) : Bool :=
  '0' ≤ c && c ≤ '9'

/-- The digits of a word in which single underscores may stand between digits. -/
def ungrouped? (isDigit : Char → Bool) : Text → Option Text
  | [] => none
  | [c] => if isDigit c then some [c] else none
  | c :: '_' :: rest => do
    guard (isDigit c)
    pure (c :: (← ungrouped? isDigit rest))
  | c :: rest => do
    guard (isDigit c)
    pure (c :: (← ungrouped? isDigit rest))

def ofDigits (base : Nat) (digits : Text) : Nat :=
  digits.foldl (fun n c => base * n + (hexDigit? c).getD 0) 0

/-- The sign of a number, and what follows it. -/
def signOf : Text → Bool × Text
  | '-' :: rest => (true, rest)
  | '+' :: rest => (false, rest)
  | text => (false, text)

/-- The digits of a whole number without needless zeros. -/
def wholeDigits? (word : Text) : Option Text := do
  let digits ← ungrouped? isDecimalDigit word
  guard (digits.length = 1 ∨ digits.head? ≠ some '0')
  pure digits

def integer? (word : Text) : Option Int :=
  match word with
  | '0' :: 'x' :: rest => do
    pure (ofDigits 16 (← ungrouped? (fun c => (hexDigit? c).isSome) rest))
  | '0' :: 'o' :: rest => do
    pure (ofDigits 8 (← ungrouped? (fun c => '0' ≤ c && c ≤ '7') rest))
  | '0' :: 'b' :: rest => do
    pure (ofDigits 2 (← ungrouped? (fun c => c = '0' || c = '1') rest))
  | _ => do
    let (negative, rest) := signOf word
    let n : Int := ofDigits 10 (← wholeDigits? rest)
    pure (if negative then -n else n)

/-- The exponent of a number after its `e`. -/
def exponent? (word : Text) : Option Int := do
  let (negative, rest) := signOf word
  let n : Int := ofDigits 10 (← ungrouped? isDecimalDigit rest)
  pure (if negative then -n else n)

/-- A number with a fraction or an exponent: its digits without the dot, and the power of ten that they are
multiplied with. -/
def decimal? (word : Text) : Option (Text × Int) := do
  let isMark (c : Char) : Bool := c = '.' || c = 'e' || c = 'E'
  let whole ← wholeDigits? (word.takeWhile (!isMark ·))
  let rest := word.dropWhile (!isMark ·)
  let (fraction, rest) ← match rest with
    | '.' :: rest => do
      let digits ← ungrouped? isDecimalDigit (rest.takeWhile (!isMark ·))
      pure (digits, rest.dropWhile (!isMark ·))
    | _ => pure ([], rest)
  let exponent ← match rest with
    | [] => if fraction = [] then none else pure 0
    | '.' :: _ => none
    | _ :: rest => exponent? rest
  pure (whole ++ fraction, exponent - fraction.length)

/-- A floating-point number. -/
def float? (word : Text) : Option Value := do
  let (negative, rest) := signOf word
  if rest = "inf".toList then
    return .float (some (Binary64.withSign negative Binary64.infinity))
  if rest = "nan".toList then
    return .float (some (Binary64.withSign negative Binary64.notANumber))
  let (digits, exponent) ← decimal? rest
  let bits := Binary64.ofDecimal? (ofDigits 10 digits) exponent
  pure (.float (bits.map (Binary64.withSign negative)))

/-- A number of exactly `count` decimal digits at the start of a word. -/
def fixed? (count : Nat) (word : Text) : Option (Nat × Text) := do
  let digits := word.take count
  guard (digits.length = count ∧ digits.all isDecimalDigit)
  pure (ofDigits 10 digits, word.drop count)

/-- The rest of a word after a given character. -/
def after? (c : Char) : Text → Option Text
  | d :: rest => if d = c then some rest else none
  | [] => none

def daysIn (year month : Nat) : Nat :=
  if month = 2 then
    if year % 4 = 0 ∧ (year % 100 ≠ 0 ∨ year % 400 = 0) then 29 else 28
  else if month = 4 ∨ month = 6 ∨ month = 9 ∨ month = 11 then 30
  else 31

/-- A number in decimal with zeros in front up to a width. -/
def padded (width n : Nat) : String :=
  let digits := Nat.toDigits 10 n
  String.ofList (List.replicate (width - digits.length) '0' ++ digits)

/-- A date, in its standard spelling. -/
def date? (word : Text) : Option (String × Text) := do
  let (year, rest) ← fixed? 4 word
  let (month, rest) ← fixed? 2 (← after? '-' rest)
  let (day, rest) ← fixed? 2 (← after? '-' rest)
  guard (1 ≤ month ∧ month ≤ 12 ∧ 1 ≤ day ∧ day ≤ daysIn year month)
  pure (padded 4 year ++ "-" ++ padded 2 month ++ "-" ++ padded 2 day, rest)

/-- The part of a second after a dot, to the nanosecond and without needless zeros. -/
def fraction? (word : Text) : Option (String × Text) :=
  match word with
  | '.' :: rest =>
    let digits := rest.takeWhile isDecimalDigit
    if digits = [] then none
    else
      let kept := ((digits.take 9).reverse.dropWhile (· = '0')).reverse
      some (if kept = [] then "" else "." ++ String.ofList kept, rest.drop digits.length)
  | _ => some ("", word)

/-- The seconds of a time of day, in their standard spelling, after a colon at the start of a word. They may
be missing. -/
def seconds? (word : Text) : Option (String × Text) :=
  match word with
  | ':' :: rest => do
    let (second, rest) ← fixed? 2 rest
    let (fraction, rest) ← fraction? rest
    guard (second ≤ 60)
    pure (padded 2 second ++ fraction, rest)
  | _ => some (padded 2 0, word)

/-- A time of day, in its standard spelling. -/
def time? (word : Text) : Option (String × Text) := do
  let (hour, rest) ← fixed? 2 word
  let (minute, rest) ← fixed? 2 (← after? ':' rest)
  let (seconds, rest) ← seconds? rest
  guard (hour ≤ 23 ∧ minute ≤ 59)
  pure (padded 2 hour ++ ":" ++ padded 2 minute ++ ":" ++ seconds, rest)

/-- The distance of a time from universal time, in its standard spelling, or nothing. -/
def zone? (word : Text) : Option String :=
  match word with
  | [] => some ""
  | ['Z'] => some "Z"
  | ['z'] => some "Z"
  | sign :: rest => do
    guard (sign = '+' ∨ sign = '-')
    let (hours, rest) ← fixed? 2 rest
    let (minutes, rest) ← fixed? 2 (← after? ':' rest)
    guard (rest = [] ∧ hours ≤ 23 ∧ minutes ≤ 59)
    let shown := if sign = '-' ∧ (hours ≠ 0 ∨ minutes ≠ 0) then "-" else "+"
    pure (shown ++ padded 2 hours ++ ":" ++ padded 2 minutes)

/-- A date, a time of day, or a date with a time of day and perhaps a zone, in its standard spelling. -/
def datetime? (word : Text) : Option String :=
  match date? word with
  | some (date, []) => some date
  | some (date, separator :: rest) => do
    guard (separator = 'T' ∨ separator = 't' ∨ separator = ' ')
    let (time, rest) ← time? rest
    pure (date ++ "T" ++ time ++ (← zone? rest))
  | none =>
    match time? word with
    | some (time, []) => some time
    | _ => none

/-- The value of an unquoted word. -/
def wordValue? (word : Text) : Option Value :=
  if word = "true".toList then some (.boolean true)
  else if word = "false".toList then some (.boolean false)
  else
    match integer? word with
    | some n => some (.integer n)
    | none =>
      match datetime? word with
      | some text => some (.datetime text)
      | none => float? word

/-- Whether a word is a date alone. -/
def isDate (word : Text) : Bool :=
  match date? word with
  | some (_, []) => true
  | _ => false

/-- The word at the start of a text. A date takes a time after one space along. -/
def scalar? (text : Text) : Option (Value × Text) := do
  let word := text.takeWhile isWordChar
  let rest := text.dropWhile isWordChar
  let joined := match rest with
    | ' ' :: more =>
      let time := more.takeWhile isWordChar
      if isDate word ∧ (time? time).isSome then
        some (word ++ ' ' :: time, more.dropWhile isWordChar)
      else none
    | _ => none
  let (word, rest) := joined.getD (word, rest)
  pure (← wordValue? word, rest)

end ProjectTracker.Toml
