/-!
Floating-point numbers of 64 bits, as their bits. A decimal number is rounded to the nearest one by exact
arithmetic on natural numbers, a tie to the one with an even significand.
-/

namespace ProjectTracker.Binary64

def signBit : Nat := 1 <<< 63

/-- The bits of positive infinity. -/
def infinity : Nat := 0x7ff <<< 52

/-- The bits of the quiet not-a-number. -/
def notANumber : Nat := 0x7ff8 <<< 48

def withSign (negative : Bool) (bits : Nat) : UInt64 :=
  UInt64.ofNat (if negative then signBit + bits else bits)

/-- The quotient rounded to the nearest natural number, a tie to the even one. -/
def roundDiv (num den : Nat) : Nat :=
  let q := num / den
  let twice := 2 * (num % den)
  if den < twice ∨ (twice = den ∧ q % 2 = 1) then q + 1 else q

/-- The exponent of the last binary place of a quotient: the least by which the quotient has at most 53
binary digits, and not less than that of the subnormal numbers. -/
def lastPlace (num den : Nat) : Int :=
  let guess : Int := (num.log2 : Int) - den.log2 - 52
  let exact : Int :=
    if guess < 0 then
      if num <<< (-guess).toNat < den <<< 52 then guess - 1 else guess
    else if num < den <<< (52 + guess.toNat) then guess - 1 else guess
  max exact (-1074)

/-- The bits of the quotient of two positive numbers, or nothing if it is too large. -/
def ofQuotient? (num den : Nat) : Option Nat :=
  let q := lastPlace num den
  let significand :=
    if q < 0 then roundDiv (num <<< (-q).toNat) den else roundDiv num (den <<< q.toNat)
  let bits := ((q + 1074).toNat <<< 52) + significand
  if bits < infinity then some bits else none

/-- The number of decimal digits. -/
def digitCount (n : Nat) : Nat :=
  (Nat.toDigits 10 n).length

/-- The bits of `digits * 10 ^ exponent`, or nothing if it is too large. Outside the range of exponents
that is looked at, the number is zero or too large. -/
def ofDecimal? (digits : Nat) (exponent : Int) : Option Nat :=
  let top := exponent + digitCount digits
  if digits = 0 ∨ top < -330 then some 0
  else if 310 < top then none
  else if exponent < 0 then ofQuotient? digits (Nat.pow 10 (-exponent).toNat)
  else ofQuotient? (digits * Nat.pow 10 exponent.toNat) 1

end ProjectTracker.Binary64
