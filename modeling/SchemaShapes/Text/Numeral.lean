/-! Decimal numerals of 64-bit counts. A numeral may carry a plus sign and leading zeros; it is
written back without either. -/
namespace SchemaShapes.Text

/-- The digits of a numeral, its optional plus sign removed. -/
def unsigned : List Char → List Char
  | '+' :: digits => digits
  | digits => digits

/-- Read a numeral: an optional plus sign, then at least one ASCII digit, with a value that fits
into 64 bits. -/
def readUInt64 (cs : List Char) : Option UInt64 :=
  let digits := unsigned cs
  if digits ≠ [] ∧ digits.all Char.isDigit then
    let n := Nat.ofDigitChars 10 digits 0
    if h : n < UInt64.size then some (UInt64.ofNatLT n h) else none
  else
    none

/-- The shortest numeral of a count. -/
def writeUInt64 (n : UInt64) : String :=
  toString n.toNat

end SchemaShapes.Text
