/-!
# Unsigned numerals

Statement numbers and numeric answers are read back from text as unsigned 64-bit numbers: ASCII
digits after an optional plus sign, leading zeros allowed. A larger number is not a numeral.
-/

namespace ProgramQuery

/-- Numerals denote numbers below this bound. -/
def numeralBound : Nat := 0x10000000000000000

/-- The number that a list of decimal digits denotes. -/
def digitsValue (digits : List Char) : Nat :=
  digits.foldl (fun value d => 10 * value + (d.toNat - '0'.toNat)) 0

/-- The digits of a numeral, without the plus sign that may lead them. -/
def unsignedDigits : List Char → List Char
  | '+' :: digits => digits
  | digits => digits

/-- The number that a text denotes, if it is a numeral. -/
def numeral? (s : String) : Option Nat :=
  let digits := unsignedDigits s.toList
  if digits ≠ [] ∧ digits.all Char.isDigit ∧ digitsValue digits < numeralBound then
    some (digitsValue digits)
  else
    none

end ProgramQuery
