import ProjectTracker.Text.Basic
/-!
The values of a TOML document.
-/

namespace ProjectTracker.Toml

inductive Value where
  | string (text : Text)
  | integer (n : Int)
  /-- a floating-point number, by its 64 bits, which one that is too large has not -/
  | float (bits : Option UInt64)
  | boolean (b : Bool)
  /-- a date, a time of day, or both, in its standard spelling -/
  | datetime (text : String)
  | array (items : List Value)
  /-- the keys are in order and differ -/
  | table (entries : List (String × Value))

namespace Value

/-- The value of a key in the entries of a table. -/
def lookup (key : String) : List (String × Value) → Option Value
  | [] => none
  | (k, v) :: rest => if k = key then some v else lookup key rest

/-- Whether an integer takes at most 128 bits, with its sign or without one. -/
def isReadableInteger (n : Int) : Bool :=
  -0x80000000000000000000000000000000 ≤ n && n ≤ 0xffffffffffffffffffffffffffffffff

mutual

/-- Whether no number in a value is too large to be read at all. -/
def isReadable : Value → Bool
  | integer n => isReadableInteger n
  | float bits => bits.isSome
  | array items => allReadable items
  | table entries => entriesReadable entries
  | _ => true

def allReadable : List Value → Bool
  | [] => true
  | v :: vs => v.isReadable && allReadable vs

def entriesReadable : List (String × Value) → Bool
  | [] => true
  | (_, v) :: rest => v.isReadable && entriesReadable rest

end

/-- Whether the values of all keys but some can be read. A reader that knows those keys and no other still
reads the rest of a table and drops it. -/
def othersReadable (known : List String) (entries : List (String × Value)) : Bool :=
  entries.all fun (key, v) => key ∈ known || v.isReadable

def string? : Value → Option Text
  | string text => some text
  | _ => none

def boolean? : Value → Option Bool
  | boolean b => some b
  | _ => none

/-- An array of strings. -/
def strings? : Value → Option (List Text)
  | array items => items.mapM string?
  | _ => none

/-- An integer that fits an unsigned word of 64 bits. -/
def unsigned? : Value → Option Nat
  | integer n => if 0 ≤ n ∧ n < UInt64.size then some n.toNat else none
  | _ => none

end Value

end ProjectTracker.Toml
