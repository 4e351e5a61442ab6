namespace CanonicalLR.Text

/-! Decimal numerals of 64-bit numbers. -/

def numeralLimit : Nat := UInt64.size - 1

def digitValue (c : Char) : Nat :=
  c.toNat - '0'.toNat

/-- Value of a sequence of decimal digits, the most significant one first. -/
def digitsValue (digits : List Char) : Nat :=
  digits.foldl (fun value c => 10 * value + digitValue c) 0

/-- A plus sign may stand in front of the digits, but only one. -/
def unsigned : List Char → List Char
  | '+' :: digits => digits
  | digits => digits

/-- Reads one or more ASCII digits after an optional plus sign.  Leading zeros
are allowed, a value beyond the limit is not. -/
def numeral? (text : List Char) : Option Nat :=
  let digits := unsigned text
  if digits ≠ [] ∧ digits.all Char.isDigit ∧ digitsValue digits ≤ numeralLimit then
    some (digitsValue digits)
  else none

end CanonicalLR.Text
