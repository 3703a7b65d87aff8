/-!
Texts and the two ways to measure them. A text is a list of characters, so an offset is a plain
list index; its UTF-8 form appears only in byte offsets and in the fingerprint of a text.
-/

namespace ProjectTracker

/-- A text, one entry per Unicode scalar value. -/
abbrev Text := List Char

namespace Text

/-- The lines of a text, each with its line feed. Nothing follows a final line feed, and a carriage
return is an ordinary character. -/
def splitLines : Text → List Text
  | [] => []
  | c :: rest =>
    if c = '\n' then [c] :: splitLines rest
    else
      match splitLines rest with
      | [] => [[c]]
      | line :: lines => (c :: line) :: lines

/-- The number of UTF-8 bytes before the `n`-th character, or of the whole text if it is shorter. -/
def byteOffset (text : Text) (n : Nat) : Nat :=
  (text.take n).foldr (fun c bytes => c.utf8Size + bytes) 0

/-- The characters from `start` on, at most `count` of them. -/
def slice (text : Text) (start count : Nat) : Text :=
  (text.drop start).take count

/-- Whether a text ends its last line. -/
def isTerminated (text : Text) : Bool :=
  text.getLast? = some '\n'

/-- A line without its line feed. -/
def content (line : Text) : Text :=
  if line.isTerminated then line.dropLast else line

/-- The UTF-8 bytes of a text. -/
def toUtf8 (text : Text) : List UInt8 :=
  text.flatMap String.utf8EncodeChar

/-- Folds one byte into a 64-bit FNV-1a hash. -/
def mixByte (hash : UInt64) (byte : UInt8) : UInt64 :=
  (hash ^^^ byte.toUInt64) * 0x100000001b3

/-- The 64-bit FNV-1a hash of the UTF-8 bytes of a text. -/
def fingerprint (text : Text) : UInt64 :=
  text.toUtf8.foldl mixByte 0xcbf29ce484222325

@[simp] theorem splitLines_nil : splitLines [] = [] := rfl

/-- Splitting loses nothing. -/
@[simp] theorem flatten_splitLines (text : Text) : text.splitLines.flatten = text := by
  induction text with
  | nil => rfl
  | cons c rest ih =>
    unfold splitLines
    split
    · simp [ih]
    · split
      · rename_i h
        simp [h] at ih
        simp [ih]
      · rename_i h
        simp [h] at ih
        simp [ih]

theorem ne_nil_of_mem_splitLines {text line : Text} (h : line ∈ text.splitLines) : line ≠ [] := by
  induction text generalizing line with
  | nil => simp at h
  | cons c rest ih =>
    rw [splitLines] at h
    split at h
    · rcases List.mem_cons.mp h with rfl | h
      · simp
      · exact ih h
    · cases hlines : splitLines rest with
      | nil => simp_all
      | cons first lines =>
        rw [hlines] at h ih
        rcases List.mem_cons.mp h with rfl | h
        · simp
        · exact ih (List.mem_cons_of_mem _ h)

end Text

end ProjectTracker
