import ProjectTracker.Text.Basic
import ProjectTracker.Text.CharClass.Case
/-!
Small letters of a whole text. A character has the same small letter wherever it stands, but for the
capital sigma, which takes its final form at the end of a word.
-/

namespace ProjectTracker.Text

open CharClass

/-- Whether the first character that a search does not pass over has case. -/
def meetsCased (text : Text) : Bool :=
  match text.dropWhile isCaseIgnorable with
  | [] => false
  | c :: _ => isCased c

/-- The small letters of a text that follows `before`, which is reversed. -/
def lowerAfter (before : Text) : Text → Text
  | [] => []
  | c :: rest =>
    let small :=
      if c = 'Σ' then
        if meetsCased before && !meetsCased rest then ['ς'] else ['σ']
      else lower c
    small ++ lowerAfter (c :: before) rest

def toLower (text : Text) : Text :=
  lowerAfter [] text

end ProjectTracker.Text
