/-! Digits in bases up to sixteen. -/
namespace SchemaShapes.Text

/-- The value of a digit. -/
def digitValue? (c : Char) : Option Nat :=
  if c.isDigit then some (c.toNat - '0'.toNat)
  else if 'a' ≤ c ∧ c ≤ 'f' then some (c.toNat - 'a'.toNat + 10)
  else if 'A' ≤ c ∧ c ≤ 'F' then some (c.toNat - 'A'.toNat + 10)
  else none

/-- Go on reading a number in a base after a value already read. -/
def readNumberFrom (base : Nat) (value : Nat) : List Char → Option Nat
  | [] => some value
  | c :: cs =>
    match digitValue? c with
    | some d => if d < base then readNumberFrom base (base * value + d) cs else none
    | none => none

/-- A number in a base: at least one digit and nothing else. -/
def readNumber (base : Nat) (cs : List Char) : Option Nat :=
  if cs.isEmpty then none else readNumberFrom base 0 cs

/-- Whether a character is a digit of a base. -/
def isDigitOf (base : Nat) (c : Char) : Bool := (digitValue? c).any (· < base)

end SchemaShapes.Text
