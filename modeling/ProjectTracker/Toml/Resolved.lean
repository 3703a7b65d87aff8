import ProjectTracker.Toml.Scalar
/-!
Values of a TOML document as they are taken over from it: integers fit signed words of 64 bits, and a table
that spells a date or a time stands for it.
-/

namespace ProjectTracker.Toml

/-- The key under which a table spells a date or a time. -/
def datetimeKey : String := "$__toml_private_datetime"

/-- What a table with `datetimeKey` as its first key has there, if it is a date or a time. The other keys of
such a table do not count. -/
def spelledDatetime? : List (String × Value) → Option (Option String)
  | (key, v) :: _ => if key = datetimeKey then some (v.string?.bind datetime?) else none
  | [] => none

mutual

def Value.resolved? : Value → Option Value
  | .integer n =>
    if -0x8000000000000000 ≤ n ∧ n ≤ 0x7fffffffffffffff then some (.integer n) else none
  | .float none => none
  | .array items => (resolvedItems? items).map .array
  | .table entries =>
    match spelledDatetime? entries with
    | some spelled => spelled.map .datetime
    | none => (resolvedEntries? entries).map .table
  | v => some v

def resolvedItems? : List Value → Option (List Value)
  | [] => some []
  | v :: vs => do pure ((← v.resolved?) :: (← resolvedItems? vs))

def resolvedEntries? : List (String × Value) → Option (List (String × Value))
  | [] => some []
  | (key, v) :: rest => do pure ((key, ← v.resolved?) :: (← resolvedEntries? rest))

end

end ProjectTracker.Toml
